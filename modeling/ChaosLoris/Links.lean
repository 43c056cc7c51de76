import ChaosLoris.Data

/-!
# References by URI

`ChaosController` reads an id out of a URI with the patterns `.*/applications/([\d]+)` and
`.*/schedules/([\d]+)`, searched with `Matcher.find()`. The search is modelled as
`java.util.regex` performs it: start positions from the left, `.*` from its longest match down,
`[\d]+` greedy.
-/

namespace ChaosLoris

/-- The ASCII form of a URI, `toASCIIString()`. -/
abbrev URI := String

/-- `\d`. -/
def isDigit (c : Char) : Bool := '0'.toNat ≤ c.toNat && c.toNat ≤ '9'.toNat

/-- The characters that `.` does not match. -/
def isLineTerminator (c : Char) : Bool :=
  c.toNat = 0x0A || c.toNat = 0x0D || c.toNat = 0x85 || c.toNat = 0x2028 || c.toNat = 0x2029

/-- The literal followed by `([\d]+)`, at the head of the text; the group's text. -/
def matchLiteral (literal text : List Char) : Option (List Char) :=
  match literal.isPrefixOf text, (text.drop literal.length).takeWhile isDigit with
  | true, d :: ds => some (d :: ds)
  | _, _ => none

/-- `.*` before the literal, the longest first. -/
def matchGreedy (literal : List Char) : List Char → Option (List Char)
  | [] => matchLiteral literal []
  | c :: text =>
    if isLineTerminator c then matchLiteral literal (c :: text)
    else (matchGreedy literal text).orElse fun _ => matchLiteral literal (c :: text)

/-- `Matcher.find()` and `group(1)`. -/
def findGroup (literal : List Char) : List Char → Option (List Char)
  | [] => matchGreedy literal []
  | c :: text => (matchGreedy literal (c :: text)).orElse fun _ => findGroup literal text

/-- The number a run of decimal digits denotes. -/
def digitsValue (ds : List Char) : ℕ := ds.foldl (fun n d => 10 * n + (d.toNat - '0'.toNat)) 0

/-- `Long.MAX_VALUE`. -/
def maxLong : ℕ := 2 ^ 63 - 1

/-- `Long.valueOf` on a run of decimal digits; `none` is a `NumberFormatException`. -/
def valueOf (ds : List Char) : Option Id :=
  if digitsValue ds ≤ maxLong then some (digitsValue ds) else none

/-- The id that is looked up for a URI; `none` is an `IllegalArgumentException`. -/
def referencedId (literal : String) (uri : URI) : Option Id :=
  (findGroup literal.toList uri.toList).bind valueOf

def applicationId (uri : URI) : Option Id := referencedId "/applications/" uri

def scheduleId (uri : URI) : Option Id := referencedId "/schedules/" uri

end ChaosLoris
