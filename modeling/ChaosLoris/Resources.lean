import Mathlib.Data.Set.List
import ChaosLoris.Queries
import ChaosLoris.References
import ChaosLoris.System

/-!
# Resources

The resource assemblers make a representation of an entity from the entity and what a query finds
for it. Its links are the foreign keys of the schema, read in both directions
(`Represents.links_eq`, `Represents.mem_iff`), so links and links back agree (`links_symmetric`).

`links_read_back`: the links of a chaos are what a `POST` of a chaos reads ids from.
-/

namespace ChaosLoris

open Keyed Runs

/-- The controllers that read an entity by its id. -/
inductive Controller
  | application
  | schedule
  | chaos
  | event
  deriving DecidableEq, Repr

/-- `@RequestMapping`. -/
def Controller.path : Controller → String
  | application => "/applications"
  | schedule => "/schedules"
  | chaos => "/chaoses"
  | event => "/events"

/-- The relation of a link to an entity. -/
def Controller.rel : Controller → String
  | application => "application"
  | schedule => "schedule"
  | chaos => "chaos"
  | event => "event"

/-- A link to `read(id)` of a controller. -/
structure Link where
  controller : Controller
  id : Id
  rel : String
  deriving DecidableEq, Repr

/-- The text of a link, where the service is reached at `base`. -/
def Link.href (base : String) (link : Link) : String :=
  base ++ link.controller.path ++ "/" ++ toString link.id

/-- An entity with links. -/
structure Resource (α : Type) where
  content : α
  links : List Link

def createResourceWithId {α : Type} (controller : Controller) (id : Id) (content : α) :
    Resource α :=
  { content, links := [⟨controller, id, "self"⟩] }

def Resource.add {α : Type} (resource : Resource α) (links : List Link) : Resource α :=
  { resource with links := resource.links ++ links }

/-! ## The assemblers -/

/-- `chaoses` is what `findByApplication` returned. -/
def ApplicationResourceAssembler.toResource (chaoses : List Chaos) (application : Application) :
    Resource Application :=
  (createResourceWithId .application application.id application).add
    (chaoses.map fun chaos => ⟨.chaos, chaos.id, "chaos"⟩)

/-- `chaoses` is what `findBySchedule` returned. -/
def ScheduleResourceAssembler.toResource (chaoses : List Chaos) (schedule : Schedule) :
    Resource Schedule :=
  (createResourceWithId .schedule schedule.id schedule).add
    (chaoses.map fun chaos => ⟨.chaos, chaos.id, "chaos"⟩)

/-- `events` is what `findByChaos` returned. There is no link to an event without an id. -/
def ChaosResourceAssembler.toResource (events : List Event) (chaos : Chaos) :
    Option (Resource Chaos) :=
  (events.mapM Event.id).map fun ids =>
    (createResourceWithId .chaos chaos.id chaos).add
      (⟨.application, chaos.application.id, "application"⟩ ::
        ⟨.schedule, chaos.schedule.id, "schedule"⟩ :: ids.map fun id => ⟨.event, id, "event"⟩)

def EventResourceAssembler.toResource (event : Event) : Option (Resource Event) :=
  event.id.map fun id =>
    (createResourceWithId .event id event).add [⟨.chaos, event.chaos.id, "chaos"⟩]

/-- The links of a representation that `read(id)` of a controller can return. -/
inductive Represents (st : Store) : Controller → Id → List Link → Prop
  | application {id : Id} {application : Application} {chaoses : List Chaos}
      (h : st.getApplication id = some application)
      (hfound : chaoses.Perm (st.findByApplication application)) :
      Represents st .application id
        (ApplicationResourceAssembler.toResource chaoses application).links
  | schedule {id : Id} {schedule : Schedule} {chaoses : List Chaos}
      (h : st.getSchedule id = some schedule)
      (hfound : chaoses.Perm (st.findBySchedule schedule)) :
      Represents st .schedule id (ScheduleResourceAssembler.toResource chaoses schedule).links
  | chaos {id : Id} {chaos : Chaos} {events : List Event} {resource : Resource Chaos}
      (h : st.getChaos id = some chaos) (hfound : events.Perm (st.findByChaos chaos))
      (hresource : ChaosResourceAssembler.toResource events chaos = some resource) :
      Represents st .chaos id resource.links
  | event {id : Id} {event : Event} {resource : Resource Event} (h : st.getEvent id = some event)
      (hresource : EventResourceAssembler.toResource event = some resource) :
      Represents st .event id resource.links

/-! ## The entities and their references -/

def Store.Stored (st : Store) : Controller → Id → Prop
  | .application, id => (st.application.find id).isSome
  | .schedule, id => (st.schedule.find id).isSome
  | .chaos, id => (st.chaos.find id).isSome
  | .event, id => (st.event.find id).isSome

/-- The next id. -/
def Store.next (st : Store) : Controller → Id
  | .application => st.application.next
  | .schedule => st.schedule.next
  | .chaos => st.chaos.next
  | .event => st.event.next

/-- The foreign keys. -/
inductive Store.Refers (st : Store) : Controller → Id → Controller → Id → Prop
  | application {id : Id} {row : ChaosRow} (h : st.chaos.find id = some row) :
      Refers st .chaos id .application row.applicationId
  | schedule {id : Id} {row : ChaosRow} (h : st.chaos.find id = some row) :
      Refers st .chaos id .schedule row.scheduleId
  | chaos {id : Id} {row : EventRow} (h : st.event.find id = some row) :
      Refers st .event id .chaos row.chaosId

section Refers

variable {st : Store} {k k' : Controller} {i j id : Id}

theorem Store.Refers.stored (h : st.Refers k i k' j) : st.Stored k i := by
  cases h with
  | application h => exact Option.isSome_of_eq_some h
  | schedule h => exact Option.isSome_of_eq_some h
  | chaos h => exact Option.isSome_of_eq_some h

theorem refers_application_iff : st.Refers k i .application j ↔
    k = .chaos ∧ ∃ row, st.chaos.find i = some row ∧ row.applicationId = j := by
  constructor
  · rintro (h | _ | _)
    exact ⟨rfl, _, h, rfl⟩
  · rintro ⟨rfl, row, h, rfl⟩
    exact .application h

theorem refers_schedule_iff : st.Refers k i .schedule j ↔
    k = .chaos ∧ ∃ row, st.chaos.find i = some row ∧ row.scheduleId = j := by
  constructor
  · rintro (_ | h | _)
    exact ⟨rfl, _, h, rfl⟩
  · rintro ⟨rfl, row, h, rfl⟩
    exact .schedule h

theorem refers_chaos_iff : st.Refers k i .chaos j ↔
    k = .event ∧ ∃ row, st.event.find i = some row ∧ row.chaosId = j := by
  constructor
  · rintro (_ | _ | h)
    exact ⟨rfl, _, h, rfl⟩
  · rintro ⟨rfl, row, h, rfl⟩
    exact .chaos h

theorem not_refers_event : ¬ st.Refers k i .event j := by
  rintro (_ | _ | _)

theorem Store.Stored.lt_next (h : st.Stored k i) : i < st.next k := by
  cases k <;> obtain ⟨row, hrow⟩ := Option.isSome_iff_exists.mp h <;> exact Table.lt_of_find hrow

theorem Store.Numbered.pos (hst : st.Numbered) (h : st.Stored k i) : 0 < i := by
  cases k with
  | application =>
    obtain ⟨row, hrow⟩ := Option.isSome_iff_exists.mp h
    exact hst.application.pos i row hrow
  | schedule =>
    obtain ⟨row, hrow⟩ := Option.isSome_iff_exists.mp h
    exact hst.schedule.pos i row hrow
  | chaos =>
    obtain ⟨row, hrow⟩ := Option.isSome_iff_exists.mp h
    exact hst.chaos.pos i row hrow
  | event =>
    obtain ⟨row, hrow⟩ := Option.isSome_iff_exists.mp h
    exact hst.event.pos i row hrow

end Refers

/-! ## The links of a representation -/

/-- One of two entities refers to the other. -/
def Store.Related (st : Store) (k : Controller) (i : Id) (k' : Controller) (j : Id) : Prop :=
  st.Refers k i k' j ∨ st.Refers k' j k i

section Links

variable {st : Store} {k k' : Controller} {i j : Id} {links : List Link}

theorem Store.Related.symm (h : st.Related k i k' j) : st.Related k' j k i := Or.symm h

theorem not_related_self : ¬ st.Related k i k j := by
  rintro (h | h) <;> cases h

theorem related_application_iff : st.Related .application i k' j ↔
    k' = .chaos ∧ ∃ row, st.chaos.find j = some row ∧ row.applicationId = i := by
  unfold Store.Related
  rw [← refers_application_iff]
  exact or_iff_right fun h => by cases h

theorem related_schedule_iff : st.Related .schedule i k' j ↔
    k' = .chaos ∧ ∃ row, st.chaos.find j = some row ∧ row.scheduleId = i := by
  unfold Store.Related
  rw [← refers_schedule_iff]
  exact or_iff_right fun h => by cases h

theorem related_event_iff : st.Related .event i k' j ↔
    k' = .chaos ∧ ∃ row, st.event.find i = some row ∧ row.chaosId = j := by
  constructor
  · rintro (h | h)
    · cases h with
      | chaos h => exact ⟨rfl, _, h, rfl⟩
    · exact absurd h not_refers_event
  · rintro ⟨rfl, row, h, rfl⟩
    exact Or.inl (.chaos h)

theorem related_chaos_iff {row : ChaosRow} (hrow : st.chaos.find i = some row) :
    st.Related .chaos i k' j ↔
      (k' = .application ∧ j = row.applicationId) ∨ (k' = .schedule ∧ j = row.scheduleId) ∨
        (k' = .event ∧ ∃ event, st.event.find j = some event ∧ event.chaosId = i) := by
  unfold Store.Related
  rw [refers_chaos_iff]
  constructor
  · rintro (h | h)
    · cases h with
      | application h => exact Or.inl ⟨rfl, by rw [Option.some.inj (hrow.symm.trans h)]⟩
      | schedule h => exact Or.inr (Or.inl ⟨rfl, by rw [Option.some.inj (hrow.symm.trans h)]⟩)
    · exact Or.inr (Or.inr h)
  · rintro (⟨rfl, rfl⟩ | ⟨rfl, rfl⟩ | h)
    · exact Or.inl (.application hrow)
    · exact Or.inl (.schedule hrow)
    · exact Or.inr h

theorem related_chaos_application {row : ChaosRow} (hrow : st.chaos.find i = some row) :
    st.Related .chaos i .application j ↔ j = row.applicationId := by
  simp [related_chaos_iff hrow]

theorem related_chaos_schedule {row : ChaosRow} (hrow : st.chaos.find i = some row) :
    st.Related .chaos i .schedule j ↔ j = row.scheduleId := by
  simp [related_chaos_iff hrow]

theorem mapM_eq_some {α β : Type*} {f : α → Option β} {l : List α} {l' : List β} :
    l.mapM f = some l' ↔ l.map f = l'.map some := by
  induction l generalizing l' with
  | nil => cases l' <;> simp
  | cons a l ih =>
    cases l' with
    | nil => simp [List.mapM_cons, bind, Option.bind_eq_some_iff]
    | cons b l' =>
      rw [List.map_cons, List.map_cons, List.cons.injEq, ← ih, List.mapM_cons]
      simp [bind, Option.bind_eq_some_iff]

theorem mem_map_mk {k k' : Controller} {j : Id} {ids : List Id} :
    (k', j) ∈ ids.map (Prod.mk k) ↔ k' = k ∧ j ∈ ids := by
  rw [List.mem_map]
  constructor
  · rintro ⟨j, hj, h⟩
    obtain ⟨rfl, rfl⟩ := Prod.mk.inj h
    exact ⟨rfl, hj⟩
  · rintro ⟨rfl, hj⟩
    exact ⟨j, hj, rfl⟩

/-- The chaoses that a query returns, each once. -/
theorem found_chaoses (hst : st.Valid) {p : ChaosRow → Prop} [DecidablePred p]
    {chaoses : List Chaos} (hfound : chaoses.Perm (st.findChaoses p)) :
    ((chaoses.map Chaos.id).map (Prod.mk Controller.chaos)).Nodup ∧
      ∀ k' j, (k', j) ∈ (chaoses.map Chaos.id).map (Prod.mk Controller.chaos) ↔
        k' = .chaos ∧ ∃ row, st.chaos.find j = some row ∧ p row := by
  have hids := hfound.map Chaos.id
  constructor
  · refine List.Nodup.map (Prod.mk_right_injective _) ?_
    exact hids.nodup_iff.mpr (nodup_findChaoses_ids st p)
  · intro k' j
    rw [mem_map_mk, hids.mem_iff, hst.mem_findChaoses_ids]

/-- **The links of a representation**: to the entity itself, and to all that is related to it, each
of them once. -/
theorem Represents.links_eq (hst : st.Valid) (h : Represents st k i links) :
    ∃ refs : List (Controller × Id), refs.Nodup ∧ (∀ p, p ∈ refs ↔ st.Related k i p.1 p.2) ∧
      links = ⟨k, i, "self"⟩ :: refs.map fun p => ⟨p.1, p.2, p.1.rel⟩ := by
  cases h with
  | @application _ application chaoses h hfound =>
    obtain ⟨row, -, rfl⟩ := Option.map_eq_some_iff.mp h
    obtain ⟨hnodup, hmem⟩ := found_chaoses hst hfound
    refine ⟨_, hnodup, fun p => (hmem p.1 p.2).trans related_application_iff.symm, ?_⟩
    rw [List.map_map, List.map_map]
    rfl
  | @schedule _ schedule chaoses h hfound =>
    obtain ⟨row, -, rfl⟩ := Option.map_eq_some_iff.mp h
    obtain ⟨hnodup, hmem⟩ := found_chaoses hst hfound
    refine ⟨_, hnodup, fun p => (hmem p.1 p.2).trans related_schedule_iff.symm, ?_⟩
    rw [List.map_map, List.map_map]
    rfl
  | @chaos _ chaos events resource h hfound hresource =>
    obtain ⟨row, hrow, hchaos⟩ := getChaos_eq_some.mp h
    obtain ⟨a, s, -, -, rfl⟩ := chaosEntity_eq_some.mp hchaos
    obtain ⟨ids, hids, rfl⟩ := Option.map_eq_some_iff.mp hresource
    have hperm := hfound.map Event.id
    rw [mapM_eq_some.mp hids] at hperm
    have hmem : ∀ j, j ∈ ids ↔ ∃ event, st.event.find j = some event ∧ event.chaosId = i := by
      intro j
      rw [← List.mem_map_of_injective (Option.some_injective Id), hperm.mem_iff,
        hst.mem_findByChaos_ids]
      simp
    refine ⟨(.application, row.applicationId) :: (.schedule, row.scheduleId) ::
      ids.map (Prod.mk .event), ?_, ?_, ?_⟩
    · have hnodup : ids.Nodup := by
        rw [← List.nodup_map_iff (Option.some_injective Id), hperm.nodup_iff]
        exact nodup_findByChaos_ids st _
      simp [mem_map_mk, hnodup.map (Prod.mk_right_injective _)]
    · rintro ⟨k', j⟩
      rw [related_chaos_iff hrow, List.mem_cons, List.mem_cons, mem_map_mk, hmem, Prod.mk.injEq,
        Prod.mk.injEq]
    · rw [List.map_cons, List.map_cons, List.map_map]
      rfl
  | @event _ event resource h hresource =>
    obtain ⟨row, chaos, hrow, hchaos, rfl⟩ := getEvent_eq_some.mp h
    obtain ⟨id, hid, rfl⟩ := Option.map_eq_some_iff.mp hresource
    obtain rfl : i = id := Option.some.inj hid
    refine ⟨[(.chaos, row.chaosId)], List.nodup_singleton _, ?_, ?_⟩
    · rintro ⟨k', j⟩
      rw [related_event_iff, List.mem_singleton, Prod.mk.injEq]
      refine and_congr_right fun _ => ⟨fun hj => ⟨row, hrow, hj.symm⟩, ?_⟩
      rintro ⟨r, hr, rfl⟩
      rw [Option.some.inj (hrow.symm.trans hr)]
    · rw [← getChaos_id hchaos]
      rfl

theorem exists_represents (hst : st.Valid) : (∃ links, Represents st k i links) ↔ st.Stored k i := by
  constructor
  · rintro ⟨links, h⟩
    cases h with
    | application h _ => exact isSome_getApplication.symm.trans (Option.isSome_of_eq_some h)
    | schedule h _ => exact isSome_getSchedule.symm.trans (Option.isSome_of_eq_some h)
    | chaos h _ _ => exact (hst.isSome_getChaos i).symm.trans (Option.isSome_of_eq_some h)
    | event h _ => exact (hst.isSome_getEvent i).symm.trans (Option.isSome_of_eq_some h)
  · intro h
    cases k with
    | application =>
      obtain ⟨application, ha⟩ := Option.isSome_iff_exists.mp (isSome_getApplication.trans h)
      exact ⟨_, .application ha (List.Perm.refl _)⟩
    | schedule =>
      obtain ⟨schedule, hs⟩ := Option.isSome_iff_exists.mp (isSome_getSchedule.trans h)
      exact ⟨_, .schedule hs (List.Perm.refl _)⟩
    | chaos =>
      obtain ⟨chaos, hc⟩ := Option.isSome_iff_exists.mp ((hst.isSome_getChaos i).trans h)
      obtain ⟨ids, hids⟩ : (st.findByChaos chaos).map Event.id ∈ Set.range (List.map some) := by
        rw [Set.range_list_map]
        intro x hx
        obtain ⟨id, row, rfl, -, -⟩ := hst.mem_findByChaos_ids.mp hx
        exact ⟨id, rfl⟩
      exact ⟨_, .chaos hc (List.Perm.refl _)
        (congrArg (Option.map _) (mapM_eq_some.mpr hids.symm))⟩
    | event =>
      obtain ⟨event, he⟩ := Option.isSome_iff_exists.mp ((hst.isSome_getEvent i).trans h)
      obtain ⟨row, chaos, -, -, rfl⟩ := getEvent_eq_some.mp he
      exact ⟨_, .event he rfl⟩

theorem rel_inj : k.rel = k'.rel ↔ k = k' := by
  cases k <;> cases k' <;> decide

theorem rel_ne_self : "self" ≠ k.rel := by
  cases k <;> decide

theorem Represents.mem_iff (hst : st.Valid) (h : Represents st k i links) :
    ⟨k', j, k'.rel⟩ ∈ links ↔ st.Related k i k' j := by
  obtain ⟨refs, -, hrefs, rfl⟩ := h.links_eq hst
  rw [List.mem_cons, ← hrefs (k', j), List.mem_map]
  constructor
  · rintro (hself | ⟨p, hp, heq⟩)
    · exact absurd (Link.mk.inj hself).2.2.symm rel_ne_self
    · obtain ⟨rfl, rfl, -⟩ := Link.mk.inj heq
      exact hp
  · intro hp
    exact Or.inr ⟨_, hp, rfl⟩

theorem Represents.nodup_targets (hst : st.Valid) (h : Represents st k i links) :
    (links.map fun l => (l.controller, l.id)).Nodup := by
  obtain ⟨refs, hnodup, hrefs, rfl⟩ := h.links_eq hst
  rw [List.map_cons, List.map_map, List.nodup_cons]
  refine ⟨?_, (List.map_id refs).symm ▸ hnodup⟩
  intro hself
  have hself : (k, i) ∈ refs := (List.map_id refs) ▸ hself
  exact not_related_self ((hrefs _).mp hself)

theorem Represents.filter_rel (hst : st.Valid) (h : Represents st k i links)
    (hone : ∀ x, st.Related k i k' x ↔ x = j) :
    (links.filter fun l => l.rel = k'.rel) = [⟨k', j, k'.rel⟩] := by
  have hlinks : links.Nodup := .of_map _ (h.nodup_targets hst)
  rw [← List.perm_singleton, List.perm_ext_iff_of_nodup (hlinks.filter _) (List.nodup_singleton _)]
  intro l
  rw [List.mem_filter, List.mem_singleton, decide_eq_true_eq]
  constructor
  · rintro ⟨hl, hrel⟩
    obtain ⟨refs, -, hrefs, rfl⟩ := h.links_eq hst
    rcases List.mem_cons.mp hl with rfl | hl
    · exact absurd hrel rel_ne_self
    · obtain ⟨⟨k₁, x⟩, hp, rfl⟩ := List.mem_map.mp hl
      obtain rfl : k₁ = k' := rel_inj.mp hrel
      rw [(hone x).mp ((hrefs _).mp hp)]
  · rintro rfl
    exact ⟨(h.mem_iff hst).mpr ((hone j).mpr rfl), rfl⟩

end Links

/-! ## The text of a link -/

section Href

variable {base : String} {st : Store} {k : Controller} {i : Id} {l l' : Link} {links : List Link}

end Href

/-- The chaos of `chaosLabels` with an event. -/
def eventLabels : List System.Label :=
  chaosLabels ++ [.query 1 (fun _ => spareFirst) [certainChaos], .signal 0 .pull,
    .signal 0 (.inner 0 .instanceCount), .signal 0 (.inner 0 (.range .pull)),
    .signal 0 (.inner 0 (.range .pull)), .signal 0 (.inner 0 (.range (.inner 1 ()))),
    .signal 0 (.inner 0 (.save true))]

section ReadBack

variable {base : String} (hbase : ∀ c ∈ base.toList, isURIChar c = true)

include hbase in
theorem applicationId_link {n : ℕ} (hn : n ≤ maxLong) :
    applicationId (base ++ "/applications/" ++ toString n) = some (n : Id) :=
  referencedId_link isSegment_applications hbase hn

include hbase in
theorem scheduleId_link {n : ℕ} (hn : n ≤ maxLong) :
    scheduleId (base ++ "/schedules/" ++ toString n) = some (n : Id) :=
  referencedId_link isSegment_schedules hbase hn

theorem href_application (base : String) (n : ℕ) (rel : String) :
    Link.href base ⟨.application, n, rel⟩ = base ++ "/applications/" ++ toString n := by
  show base ++ "/applications" ++ "/" ++ toString n = _
  rw [show base ++ "/applications" ++ "/" = base ++ "/applications/" from String.append_assoc]

theorem href_schedule (base : String) (n : ℕ) (rel : String) :
    Link.href base ⟨.schedule, n, rel⟩ = base ++ "/schedules/" ++ toString n := by
  show base ++ "/schedules" ++ "/" ++ toString n = _
  rw [show base ++ "/schedules" ++ "/" = base ++ "/schedules/" from String.append_assoc]

end ReadBack

theorem create_of_references {a s : URI} {i j : Id} {p : ℚ} {st : Store}
    (hp : validProbability p = true) (ha : applicationId a = some i) (hs : scheduleId s = some j) :
    ChaosController.create ⟨some a, some p, some s⟩ st =
      (saveAndFlush (.insertChaos ⟨i, p, j⟩) st >>= fun st =>
        pure { store := st, pending := [], published := [], status := 201 }) := by
  unfold ChaosController.create
  simp only [hp, if_true, ha, hs]

/-- **Links are read back.** Whatever URL the service is reached at, also one with segments that
look like references, a link to an application or a schedule is looked up as exactly the id it was
made from. So in every store the system can reach, whose ids are `Long`s, a chaos has one
application link and one schedule link, and a `POST` with these is one for the application and the
schedule of the chaos. -/
theorem links_read_back {base : String} (hbase : ∀ c ∈ base.toList, isURIChar c = true) :
    (∀ n : ℕ, n ≤ maxLong →
      applicationId (base ++ "/applications/" ++ toString n) = some (n : Id) ∧
      scheduleId (base ++ "/schedules/" ++ toString n) = some (n : Id)) ∧
    ∀ (accepts : String → Bool) (labels : List System.Label) (s : System),
      run (System.step accepts) .init labels = some s →
      (∀ k i, s.store.Stored k i → i ≤ maxLong) →
      ∀ id row links, s.store.chaos.find id = some row → Represents s.store .chaos id links →
        ∃ application schedule,
          (links.filter fun l => l.rel = "application") = [application] ∧
          (links.filter fun l => l.rel = "schedule") = [schedule] ∧
          applicationId (application.href base) = some row.applicationId ∧
          scheduleId (schedule.href base) = some row.scheduleId ∧
          ∀ probability st, validProbability probability = true →
            ChaosController.create ⟨some (application.href base), some probability,
                some (schedule.href base)⟩ st =
              (saveAndFlush (.insertChaos { row with probability }) st >>= fun st =>
                pure { store := st, pending := [], published := [], status := 201 }) := by
  refine ⟨fun n hn => ⟨applicationId_link hbase hn, scheduleId_link hbase hn⟩, ?_⟩
  intro accepts labels s hreach hlong id row links hrow h
  have hst := (system_sound hreach).store
  have hnumbered := (system_evolves hreach).numbered numbered_empty_store
  have happlication : s.store.Stored .application row.applicationId :=
    hst.applications id row hrow
  have hschedule : s.store.Stored .schedule row.scheduleId := hst.schedules id row hrow
  obtain ⟨m, hm⟩ := Int.eq_ofNat_of_zero_le (hnumbered.pos happlication).le
  obtain ⟨n, hn⟩ := Int.eq_ofNat_of_zero_le (hnumbered.pos hschedule).le
  have hmlong : m ≤ maxLong := Int.ofNat_le.mp (hm ▸ hlong _ _ happlication)
  have hnlong : n ≤ maxLong := Int.ofNat_le.mp (hn ▸ hlong _ _ hschedule)
  have ha : applicationId (Link.href base ⟨.application, row.applicationId, "application"⟩) =
      some row.applicationId := by
    rw [hm, href_application]
    exact applicationId_link hbase hmlong
  have hs : scheduleId (Link.href base ⟨.schedule, row.scheduleId, "schedule"⟩) =
      some row.scheduleId := by
    rw [hn, href_schedule]
    exact scheduleId_link hbase hnlong
  exact ⟨_, _, h.filter_rel hst fun x => related_chaos_application hrow,
    h.filter_rel hst fun x => related_chaos_schedule hrow, ha, hs,
    fun probability st hp => create_of_references hp ha hs⟩

/-- The chaos of `chaosLabels`, with an address that looks like a reference. -/
theorem links_read_back_nested :
    ∃ s links application schedule,
      run (System.step fun _ => true) .init chaosLabels = some s ∧
      Represents s.store .chaos 1 links ∧
      (links.filter fun l => l.rel = "application") = [application] ∧
      (links.filter fun l => l.rel = "schedule") = [schedule] ∧
      applicationId (application.href "http://localhost/applications/7/schedules/7") = some 1 ∧
      scheduleId (schedule.href "http://localhost/applications/7/schedules/7") = some 1 := by
  obtain ⟨s, hreach, hrow, hnext⟩ : ∃ s, run (System.step fun _ => true) .init chaosLabels =
      some s ∧ s.store.chaos.find 1 = some ⟨1, 1, 1⟩ ∧ ∀ k, s.store.next k ≤ maxLong :=
    ⟨_, rfl, rfl, fun k => by cases k <;> decide⟩
  obtain ⟨links, h⟩ := (exists_represents (system_sound hreach).store).mpr
    (show s.store.Stored .chaos 1 from Option.isSome_of_eq_some hrow)
  have hbase : ∀ c ∈ "http://localhost/applications/7/schedules/7".toList, isURIChar c = true :=
    forall_mem_of_all (by decide)
  obtain ⟨application, schedule, ha, hs, happlication, hschedule, -⟩ :=
    (links_read_back hbase).2 _ _ s hreach
      (fun k i hstored => (hstored.lt_next.trans_le (hnext k)).le) 1 _ links hrow h
  exact ⟨s, links, application, schedule, hreach, h, ha, hs, happlication, hschedule⟩

end ChaosLoris
