import Mathlib.Data.List.Infix
import Mathlib.Data.List.TakeWhile
import ChaosLoris.Links

/-!
# What the patterns accept

A reference in a text is the literal of a pattern with a digit behind it. In a text without line
terminators, such as a URI, the search finds the last reference and reads all of its digits
(`Reference.findGroup`), but it does not look at what comes behind them.

So a link of the service is read back as the id it was made for (`referencedId_link`), whatever
comes before it, and a text that goes on behind its last reference is accepted as well
(`only_links_accepted_iff`).
-/

namespace ChaosLoris

/-- The characters of a URI in its ASCII form. -/
def isURIChar (c : Char) : Bool := c.isAlphanum || "_-!.~'()*,;:$&+=?/[]@%#".toList.contains c

/-- The literal of a pattern is a path segment between slashes, and begins with no digit. -/
def IsSegment (literal : List Char) : Prop :=
  ∃ a w, literal = '/' :: a :: (w ++ ['/']) ∧ (∀ c ∈ a :: w, isURIChar c = true ∧ c ≠ '/') ∧
    isDigit a = false

/-- Somewhere in the text the literal is followed by a digit. -/
def HasReference (literal text : List Char) : Prop :=
  ∃ pre d post, text = pre ++ literal ++ d :: post ∧ isDigit d = true

/-- The last reference of the text has the digits `ds`, and `tail` behind them. -/
structure Reference (literal text pre ds tail : List Char) : Prop where
  split : text = pre ++ literal ++ (ds ++ tail)
  nonempty : ds ≠ []
  digits : ∀ d ∈ ds, isDigit d = true
  maximal : ∀ c ∈ tail.head?, isDigit c = false
  last : ¬ HasReference literal tail

theorem forall_mem_of_all {p : Char → Prop} [DecidablePred p] {text : List Char}
    (h : (text.all fun c => p c) = true) : ∀ c ∈ text, p c :=
  fun c hc => of_decide_eq_true (List.all_eq_true.mp h c hc)

theorem isSegment_applications : IsSegment "/applications/".toList :=
  ⟨'a', "pplications".toList, rfl, forall_mem_of_all (by decide), by decide⟩

theorem isSegment_schedules : IsSegment "/schedules/".toList :=
  ⟨'s', "chedules".toList, rfl, forall_mem_of_all (by decide), by decide⟩

theorem not_isLineTerminator {c : Char} (h : isURIChar c = true) : isLineTerminator c = false := by
  rw [← Bool.not_eq_true]
  intro hterm
  simp only [isLineTerminator, Bool.or_eq_true, decide_eq_true_eq] at hterm
  have hc : c = Char.ofNat c.toNat := (Char.ofNat_toNat c).symm
  rcases hterm with (((ht | ht) | ht) | ht) | ht <;> rw [ht] at hc <;> subst hc <;>
    exact absurd h (by decide)

/-! ## The search -/

section Search

variable {literal text rest rest' g : List Char}

theorem matchLiteral_eq_some : matchLiteral literal text = some g ↔
    ∃ tail, text = literal ++ tail ∧ g = tail.takeWhile isDigit ∧ g ≠ [] := by
  unfold matchLiteral
  cases hhead : literal.isPrefixOf text with
  | false =>
    constructor
    · intro h
      simp at h
    · rintro ⟨tail, rfl, -⟩
      have := List.isPrefixOf_iff_prefix.mpr (List.prefix_append literal tail)
      rw [hhead] at this
      cases this
  | true =>
    obtain ⟨tail, rfl⟩ := List.isPrefixOf_iff_prefix.mp hhead
    rw [List.drop_left]
    constructor
    · intro h
      cases htake : tail.takeWhile isDigit with
      | nil => simp [htake] at h
      | cons d ds =>
        rw [htake] at h
        obtain rfl := Option.some.inj h
        exact ⟨tail, rfl, htake.symm, by simp⟩
    · rintro ⟨tail', happend, rfl, hne⟩
      obtain rfl := List.append_cancel_left happend
      cases htake : tail.takeWhile isDigit with
      | nil => exact absurd htake hne
      | cons d ds => rfl

/-- `rest` is the last place of the text where the pattern matches without `.*`. -/
structure LastMatch (literal text rest : List Char) : Prop where
  suffix : rest <:+ text
  found : matchLiteral literal rest ≠ none
  last : ∀ rest', rest' <:+ rest → rest' ≠ rest → matchLiteral literal rest' = none

theorem LastMatch.unique (h : LastMatch literal text rest) (h' : LastMatch literal text rest') :
    rest = rest' := by
  by_contra hne
  rcases List.suffix_or_suffix_of_suffix h.suffix h'.suffix with hs | hs
  · exact h.found (h'.last rest hs hne)
  · exact h'.found (h.last rest' hs (Ne.symm hne))

theorem matchGreedy_eq_none (htext : ∀ c ∈ text, isLineTerminator c = false) :
    matchGreedy literal text = none ↔ ∀ rest, rest <:+ text → matchLiteral literal rest = none := by
  induction text with
  | nil => simp [matchGreedy]
  | cons c text ih =>
    have hc : ¬ isLineTerminator c = true := by simp [htext c List.mem_cons_self]
    unfold matchGreedy
    rw [if_neg hc]
    show (matchGreedy literal text <|> matchLiteral literal (c :: text)) = none ↔ _
    rw [Option.orElse_eq_none, ih fun d hd => htext d (List.mem_cons_of_mem _ hd)]
    simp only [List.suffix_cons_iff]
    constructor
    · rintro ⟨htail, hhere⟩ rest (rfl | hrest)
      · exact hhere
      · exact htail rest hrest
    · intro h
      exact ⟨fun rest hrest => h rest (Or.inr hrest), h _ (Or.inl rfl)⟩

theorem matchGreedy_eq_some (htext : ∀ c ∈ text, isLineTerminator c = false)
    (h : matchGreedy literal text = some g) :
    ∃ rest, LastMatch literal text rest ∧ matchLiteral literal rest = some g := by
  induction text with
  | nil =>
    refine ⟨[], ⟨List.suffix_refl _, ?_, ?_⟩, h⟩
    · rw [show matchLiteral literal [] = some g from h]
      simp
    · intro rest' hrest' hne
      exact absurd (List.suffix_nil.mp hrest') hne
  | cons c text ih =>
    have hc : ¬ isLineTerminator c = true := by simp [htext c List.mem_cons_self]
    have htail : ∀ d ∈ text, isLineTerminator d = false :=
      fun d hd => htext d (List.mem_cons_of_mem _ hd)
    unfold matchGreedy at h
    rw [if_neg hc] at h
    cases hgreedy : matchGreedy literal text with
    | some g' =>
      rw [hgreedy] at h
      obtain rfl : g' = g := Option.some.inj h
      obtain ⟨rest, hlast, hrest⟩ := ih htail hgreedy
      exact ⟨rest, { hlast with suffix := hlast.suffix.trans (List.suffix_cons _ _) }, hrest⟩
    | none =>
      rw [hgreedy] at h
      have hhere : matchLiteral literal (c :: text) = some g := h
      refine ⟨c :: text, ⟨List.suffix_refl _, by simp [hhere], fun rest' hrest' hne => ?_⟩, hhere⟩
      rcases List.suffix_cons_iff.mp hrest' with rfl | hrest'
      · exact absurd rfl hne
      · exact (matchGreedy_eq_none htail).mp hgreedy rest' hrest'

/-- Without line terminators the first start position decides. -/
theorem findGroup_eq_matchGreedy (htext : ∀ c ∈ text, isLineTerminator c = false) :
    findGroup literal text = matchGreedy literal text := by
  induction text with
  | nil => rfl
  | cons c text ih =>
    have htail : ∀ d ∈ text, isLineTerminator d = false :=
      fun d hd => htext d (List.mem_cons_of_mem _ hd)
    unfold findGroup
    cases hgreedy : matchGreedy literal (c :: text) with
    | some g => rfl
    | none =>
      show findGroup literal text = none
      rw [ih htail, matchGreedy_eq_none htail]
      intro rest hrest
      exact (matchGreedy_eq_none htext).mp hgreedy rest (hrest.trans (List.suffix_cons _ _))

theorem LastMatch.findGroup_eq (htext : ∀ c ∈ text, isLineTerminator c = false)
    (h : LastMatch literal text rest) : findGroup literal text = matchLiteral literal rest := by
  rw [findGroup_eq_matchGreedy htext]
  cases hgreedy : matchGreedy literal text with
  | none => exact absurd ((matchGreedy_eq_none htext).mp hgreedy rest h.suffix) h.found
  | some g =>
    obtain ⟨rest', hlast, hrest'⟩ := matchGreedy_eq_some htext hgreedy
    rw [h.unique hlast, hrest']

/-! ## References -/

theorem hasReference_iff :
    HasReference literal text ↔ ∃ rest, rest <:+ text ∧ matchLiteral literal rest ≠ none := by
  constructor
  · rintro ⟨pre, d, post, rfl, hd⟩
    refine ⟨literal ++ d :: post, ⟨pre, by rw [List.append_assoc]⟩, ?_⟩
    rw [Option.ne_none_iff_exists']
    exact ⟨_, matchLiteral_eq_some.mpr ⟨d :: post, rfl, rfl, by simp [hd]⟩⟩
  · rintro ⟨rest, ⟨pre, rfl⟩, hrest⟩
    obtain ⟨g, hg⟩ := Option.ne_none_iff_exists'.mp hrest
    obtain ⟨tail, rfl, rfl, hne⟩ := matchLiteral_eq_some.mp hg
    cases tail with
    | nil => exact absurd rfl hne
    | cons d post =>
      refine ⟨pre, d, post, by rw [List.append_assoc], ?_⟩
      by_contra hd
      exact hne (List.takeWhile_cons_of_neg hd)

theorem suffix_append_cases {x y : List Char} (h : rest <:+ x ++ y) :
    rest <:+ y ∨ ∃ s, s ≠ [] ∧ s <:+ x ∧ rest = s ++ y := by
  rcases List.suffix_or_suffix_of_suffix h (List.suffix_append x y) with hy | ⟨s, rfl⟩
  · exact Or.inl hy
  · cases s with
    | nil => exact Or.inl (List.suffix_refl _)
    | cons c s =>
      refine Or.inr ⟨c :: s, by simp, ?_, rfl⟩
      exact List.suffix_append_self_iff.mp h

/-- The literal of a pattern matches only where a slash is. -/
theorem matchLiteral_eq_none {c : Char} (hliteral : IsSegment literal) (hc : c ≠ '/') :
    matchLiteral literal (c :: text) = none := by
  obtain ⟨a, w, rfl, -, -⟩ := hliteral
  rw [Option.eq_none_iff_forall_ne_some]
  intro g hg
  obtain ⟨tail, htail, -⟩ := matchLiteral_eq_some.mp hg
  exact hc (List.cons.inj htail).1

/-- The literal does not match inside itself when a digit comes behind it. -/
theorem matchLiteral_inside {d : Char} {s : List Char} (hliteral : IsSegment literal)
    (hd : isDigit d = true) (hs : s <:+ literal) (hne : s ≠ []) (hproper : s ≠ literal) :
    matchLiteral literal (s ++ d :: text) = none := by
  have hsegment := hliteral
  obtain ⟨a, w, rfl, hchars, ha⟩ := hliteral
  rcases List.suffix_cons_iff.mp hs with rfl | hs
  · exact absurd rfl hproper
  rcases suffix_append_cases (x := a :: w) hs with hs | ⟨s', hne', hs', rfl⟩
  · obtain rfl : s = ['/'] := by
      rcases List.suffix_cons_iff.mp hs with rfl | hnil
      · rfl
      · exact absurd (List.suffix_nil.mp hnil) hne
    rw [Option.eq_none_iff_forall_ne_some]
    intro g hg
    obtain ⟨tail, htail, -⟩ := matchLiteral_eq_some.mp hg
    obtain rfl : d = a := (List.cons.inj (List.cons.inj htail).2).1
    rw [hd] at ha
    cases ha
  · cases s' with
    | nil => exact absurd rfl hne'
    | cons c s' =>
      refine matchLiteral_eq_none hsegment ?_
      exact (hchars c (hs'.subset List.mem_cons_self)).2

end Search

section References

variable {literal text pre ds tail pre' ds' tail' : List Char}

theorem takeWhile_digits (hdigits : ∀ d ∈ ds, isDigit d = true)
    (hmaximal : ∀ c ∈ tail.head?, isDigit c = false) : (ds ++ tail).takeWhile isDigit = ds := by
  rw [List.takeWhile_append_of_pos hdigits]
  cases tail with
  | nil => simp
  | cons c tail => simp [hmaximal c rfl]

theorem Reference.lastMatch (hliteral : IsSegment literal) (h : Reference literal text pre ds tail) :
    LastMatch literal text (literal ++ (ds ++ tail)) ∧
      matchLiteral literal (literal ++ (ds ++ tail)) = some ds := by
  have hfound : matchLiteral literal (literal ++ (ds ++ tail)) = some ds :=
    matchLiteral_eq_some.mpr
      ⟨ds ++ tail, rfl, (takeWhile_digits h.digits h.maximal).symm, h.nonempty⟩
  refine ⟨⟨⟨pre, ?_⟩, ?_, fun rest hrest hne => ?_⟩, hfound⟩
  · rw [h.split, List.append_assoc]
  · simp [hfound]
  · rcases suffix_append_cases hrest with hrest | ⟨s, hs, hsuffix, rfl⟩
    · rcases suffix_append_cases hrest with hrest | ⟨s, hs, hsuffix, rfl⟩
      · by_contra hmatch
        exact h.last (hasReference_iff.mpr ⟨rest, hrest, hmatch⟩)
      · cases s with
        | nil => exact absurd rfl hs
        | cons d s =>
          refine matchLiteral_eq_none hliteral ?_
          rintro rfl
          exact absurd (h.digits _ (hsuffix.subset List.mem_cons_self)) (by decide)
    · have hds := h.nonempty
      have hdigits := h.digits
      cases ds with
      | nil => exact absurd rfl hds
      | cons d ds =>
        refine matchLiteral_inside hliteral (hdigits d List.mem_cons_self) hsuffix hs ?_
        rintro rfl
        exact hne rfl

/-- **The search reads the last reference**, and all of its digits. -/
theorem Reference.findGroup (hliteral : IsSegment literal)
    (htext : ∀ c ∈ text, isLineTerminator c = false) (h : Reference literal text pre ds tail) :
    findGroup literal text = some ds := by
  obtain ⟨hlast, hfound⟩ := h.lastMatch hliteral
  rw [hlast.findGroup_eq htext, hfound]

theorem Reference.unique (hliteral : IsSegment literal) (h : Reference literal text pre ds tail)
    (h' : Reference literal text pre' ds' tail') : ds = ds' ∧ tail = tail' := by
  obtain ⟨hlast, hfound⟩ := h.lastMatch hliteral
  obtain ⟨hlast', hfound'⟩ := h'.lastMatch hliteral
  have hrest := hlast.unique hlast'
  rw [hrest] at hfound
  obtain rfl : ds = ds' := Option.some.inj (hfound.symm.trans hfound')
  exact ⟨rfl, List.append_cancel_left (List.append_cancel_left hrest)⟩

/-- What the search reads is the last reference. -/
theorem exists_reference (hliteral : IsSegment literal)
    (htext : ∀ c ∈ text, isLineTerminator c = false) (h : findGroup literal text = some ds) :
    ∃ pre tail, Reference literal text pre ds tail := by
  rw [findGroup_eq_matchGreedy htext] at h
  obtain ⟨rest, ⟨⟨pre, rfl⟩, -, hlast⟩, hrest⟩ := matchGreedy_eq_some htext h
  obtain ⟨after, rfl, rfl, hne⟩ := matchLiteral_eq_some.mp hrest
  refine ⟨pre, after.dropWhile isDigit, ?_, hne, fun d hd => List.mem_takeWhile_imp hd, ?_, ?_⟩
  · rw [List.takeWhile_append_dropWhile, List.append_assoc]
  · intro c hc
    have := List.head?_dropWhile_not isDigit after
    rwa [Option.mem_def.mp hc] at this
  · intro hreference
    obtain ⟨rest, hsuffix, hmatch⟩ := hasReference_iff.mp hreference
    have hafter := hsuffix.trans (List.dropWhile_suffix isDigit)
    refine hmatch (hlast rest (hafter.trans (List.suffix_append _ _)) ?_)
    rintro rfl
    obtain ⟨a, w, rfl, -, -⟩ := hliteral
    have := hafter.length_le
    simp only [List.length_append, List.length_cons] at this
    omega

end References

/-! ## Ids -/

/-- The whole URI is a link to the resource `id`: it ends with the literal and the digits of `id`. -/
def IsLink (literal : String) (uri : URI) (id : Id) : Prop :=
  ∃ pre ds, uri.toList = pre ++ literal.toList ++ ds ∧ ds ≠ [] ∧ (∀ d ∈ ds, isDigit d = true) ∧
    digitsValue ds ≤ maxLong ∧ id = digitsValue ds

/-- The digits of the last reference of the URI denote the `Long` `id`. -/
def Denotes (literal : String) (uri : URI) (id : Id) : Prop :=
  ∃ pre ds tail, Reference literal.toList uri.toList pre ds tail ∧ digitsValue ds ≤ maxLong ∧
    id = digitsValue ds

/-- The URI goes on behind the digits of its last reference, and these denote a `Long`. -/
def GoesOn (literal : String) (uri : URI) : Prop :=
  ∃ pre ds c tail, Reference literal.toList uri.toList pre ds (c :: tail) ∧ digitsValue ds ≤ maxLong

section Ids

variable {literal : String} {uri : URI} {pre ds tail : List Char}

theorem isDigit_eq (c : Char) : isDigit c = c.isDigit := by
  simp only [isDigit, Char.isDigit, UInt32.le_iff_toNat_le, Char.toNat, ge_iff_le]

theorem isURIChar_of_isDigit {c : Char} (h : isDigit c = true) : isURIChar c = true := by
  rw [isDigit_eq] at h
  simp [isURIChar, Char.isAlphanum, h]

theorem IsSegment.isURIChar {literal : List Char} (h : IsSegment literal) :
    ∀ c ∈ literal, isURIChar c = true := by
  obtain ⟨a, w, rfl, hchars, -⟩ := h
  intro c hc
  rcases List.mem_cons.mp hc with rfl | hc
  · decide
  rcases List.mem_append.mp (show c ∈ (a :: w) ++ ['/'] from hc) with hc | hc
  · exact (hchars c hc).1
  · obtain rfl := List.mem_singleton.mp hc
    decide

theorem digitsValue_toDigits (n : ℕ) : digitsValue (Nat.toDigits 10 n) = n :=
  Nat.ofDigitChars_ten_toDigits

theorem isDigit_toDigits {n : ℕ} : ∀ d ∈ Nat.toDigits 10 n, isDigit d = true := by
  intro d hd
  rw [isDigit_eq]
  exact Nat.isDigit_of_mem_toDigits (by decide) (by decide) hd

theorem not_hasReference_nil {literal : List Char} : ¬ HasReference literal [] := by
  rintro ⟨pre, d, post, h, -⟩
  simp at h

/-- A text that ends with the digits behind the literal has its last reference there. -/
theorem reference_of_link (hsplit : uri.toList = pre ++ literal.toList ++ ds) (hne : ds ≠ [])
    (hds : ∀ d ∈ ds, isDigit d = true) : Reference literal.toList uri.toList pre ds [] :=
  ⟨by rw [hsplit, List.append_nil], hne, hds, by simp, not_hasReference_nil⟩

theorem Reference.referencedId (hliteral : IsSegment literal.toList)
    (huri : ∀ c ∈ uri.toList, isURIChar c = true)
    (h : Reference literal.toList uri.toList pre ds tail) :
    referencedId literal uri = if digitsValue ds ≤ maxLong then some ↑(digitsValue ds) else none := by
  unfold ChaosLoris.referencedId
  rw [h.findGroup hliteral fun c hc => not_isLineTerminator (huri c hc)]
  rfl

theorem referencedId_eq_some (hliteral : IsSegment literal.toList)
    (huri : ∀ c ∈ uri.toList, isURIChar c = true) {id : Id} :
    referencedId literal uri = some id ↔ Denotes literal uri id := by
  constructor
  · intro hid
    obtain ⟨ds, hfind, hvalue⟩ := Option.bind_eq_some_iff.mp hid
    obtain ⟨hle, hvalue⟩ := Option.ite_none_right_eq_some.mp hvalue
    obtain ⟨pre, tail, href⟩ :=
      exists_reference hliteral (fun c hc => not_isLineTerminator (huri c hc)) hfind
    exact ⟨pre, ds, tail, href, hle, (Option.some.inj hvalue).symm⟩
  · rintro ⟨pre, ds, tail, href, hle, rfl⟩
    rw [href.referencedId hliteral huri, if_pos hle]

/-- **What is accepted.** The ids looked up are those of links, unless the URI goes on behind its
last reference. -/
theorem referencedId_iff_isLink (hliteral : IsSegment literal.toList)
    (huri : ∀ c ∈ uri.toList, isURIChar c = true) :
    (∀ id, referencedId literal uri = some id ↔ IsLink literal uri id) ↔ ¬ GoesOn literal uri := by
  simp only [referencedId_eq_some hliteral huri]
  constructor
  · rintro h ⟨pre, ds, c, tail, href, hle⟩
    obtain ⟨pre', ds', hsplit, hne, hds, -, -⟩ := (h _).mp ⟨pre, ds, c :: tail, href, hle, rfl⟩
    have := (href.unique hliteral (reference_of_link hsplit hne hds)).2
    cases this
  · intro hgoes id
    constructor
    · rintro ⟨pre, ds, tail, href, hle, rfl⟩
      cases tail with
      | cons c tail => exact absurd ⟨pre, ds, c, tail, href, hle⟩ hgoes
      | nil =>
        refine ⟨pre, ds, ?_, href.nonempty, href.digits, hle, rfl⟩
        rw [href.split, List.append_nil]
    · rintro ⟨pre, ds, hsplit, hne, hds, hle, rfl⟩
      exact ⟨pre, ds, [], reference_of_link hsplit hne hds, hle, rfl⟩

/-- **Links are read back**, whatever comes before them. -/
theorem referencedId_link (hliteral : IsSegment literal.toList) {base : String}
    (hbase : ∀ c ∈ base.toList, isURIChar c = true) {id : ℕ} (hid : id ≤ maxLong) :
    referencedId literal (base ++ literal ++ toString id) = some (id : Id) := by
  have hsplit : (base ++ literal ++ toString id).toList =
      base.toList ++ literal.toList ++ Nat.toDigits 10 id := by
    simp [Nat.toString_eq_repr, Nat.toList_repr]
  have huri : ∀ c ∈ (base ++ literal ++ toString id).toList, isURIChar c = true := by
    rw [hsplit]
    intro c hc
    rcases List.mem_append.mp hc with hc | hc
    · rcases List.mem_append.mp hc with hc | hc
      · exact hbase c hc
      · exact hliteral.isURIChar c hc
    · exact isURIChar_of_isDigit (isDigit_toDigits c hc)
  rw [(reference_of_link hsplit Nat.toDigits_ne_nil isDigit_toDigits).referencedId hliteral huri,
    digitsValue_toDigits, if_pos hid]

end Ids

/-- **Only links are accepted, unless the URI goes on.** For a URI that does not go on behind the
digits of its last reference to an application, `getApplication` looks up exactly the ids that the
URI as a whole is a link to; for a URI that does, it looks up an id that the URI is no link to. The
same holds for `getSchedule`. -/
theorem only_links_accepted_iff {uri : URI} (huri : ∀ c ∈ uri.toList, isURIChar c = true) :
    ((∀ id, applicationId uri = some id ↔ IsLink "/applications/" uri id) ↔
      ¬ GoesOn "/applications/" uri) ∧
    ((∀ id, scheduleId uri = some id ↔ IsLink "/schedules/" uri id) ↔
      ¬ GoesOn "/schedules/" uri) :=
  ⟨referencedId_iff_isLink isSegment_applications huri,
    referencedId_iff_isLink isSegment_schedules huri⟩

/-- The link to an application. -/
theorem only_links_accepted_iff_seven :
    applicationId "/applications/7" = some 7 ↔ IsLink "/applications/" "/applications/7" 7 := by
  refine (only_links_accepted_iff (forall_mem_of_all (by decide))).1.mpr ?_ 7
  rintro ⟨pre, ds, c, tail, href, -⟩
  have hlink : Reference "/applications/".toList "/applications/7".toList [] ['7'] [] :=
    reference_of_link rfl (by simp) (forall_mem_of_all (by decide))
  cases (href.unique isSegment_applications hlink).2

/-- A URI below that of an application is taken for the application. -/
theorem subresource_accepted :
    ¬ ∀ uri : URI, (∀ c ∈ uri.toList, isURIChar c = true) →
      ∀ id, applicationId uri = some id ↔ IsLink "/applications/" uri id := by
  intro h
  have huri : ∀ c ∈ "/applications/7/chaoses".toList, isURIChar c = true :=
    forall_mem_of_all (by decide)
  have hgoes := (referencedId_iff_isLink isSegment_applications huri).mp (h _ huri)
  refine hgoes ⟨[], ['7'], '/', "chaoses".toList, ⟨rfl, by simp, ?_, ?_, ?_⟩, by decide⟩
  · exact forall_mem_of_all (by decide)
  · simp [isDigit]
  · rintro ⟨pre, d, post, hsplit, -⟩
    have hlength := congrArg List.length hsplit
    simp at hlength
    omega

end ChaosLoris
