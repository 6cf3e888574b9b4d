import StagedCodegen.Json
import StagedCodegen.Text.Lowercase

/-!
# Paths of keys

A setting goes by a path such as `project.resources[0].name`. Names are kept in small letters; a
tree of settings grows as paths are set in it, and a table is merged into one that is there.

Main statement: `merge_scalar`, by which anything but a table replaces what was there.
-/

namespace StagedCodegen

/-- A path of keys. -/
inductive KeyPath where
  /-- A name at the top. -/
  | name (s : String)
  /-- A name in what a path leads to. -/
  | child (parent : KeyPath) (s : String)
  /-- An item of what a path leads to, counted from the end if negative. -/
  | item (parent : KeyPath) (index : Int)
deriving DecidableEq, Repr

namespace KeyPath

/-! ## Reading -/

/-- A character of a name. -/
def isNameChar (c : Char) : Bool := c.isAlphanum || c == '_' || c == '-' || c == ' '

/-- A name, and what follows it. -/
def readName? (cs : List Char) : Option (String × List Char) :=
  match cs.takeWhile isNameChar with
  | [] => none
  | s => some (String.ofList s, cs.dropWhile isNameChar)

/-- Drop blanks. -/
def skipBlanks (cs : List Char) : List Char := cs.dropWhile fun c => c == ' ' || c == '\t'

/-- An index up to its closing bracket, and what follows it. -/
def readIndex? (cs : List Char) : Option (Int × List Char) :=
  let cs := skipBlanks cs
  let (negative, cs) := if cs.head? == some '-' then (true, cs.drop 1) else (false, cs)
  match cs.takeWhile Char.isDigit with
  | [] => none
  | ds =>
    let n : Nat := ds.foldl (fun (n : Nat) c => 10 * n + (c.toNat - 48)) 0
    let rest := skipBlanks (cs.dropWhile Char.isDigit)
    if rest.head? == some ']' ∧ n < Nat.pow 2 63 then some (if negative then -n else n, rest.drop 1)
    else none

/-- What follows the path `p`, up to the end of the text. -/
def readRest? : (fuel : Nat) → (p : KeyPath) → List Char → Option KeyPath
  | 0, _, _ => none
  | _, p, [] => some p
  | fuel + 1, p, c :: cs =>
    if c == '.' then (readName? cs).bind fun (s, cs) => readRest? fuel (.child p s) cs
    else if c == '[' then (readIndex? cs).bind fun (i, cs) => readRest? fuel (.item p i) cs
    else none

/-- The path that a text is; a text that is no path is a name. -/
def ofString (s : String) : KeyPath :=
  match (readName? s.toList).bind fun (n, cs) => readRest? (cs.length + 1) (.name n) cs with
  | some p => p
  | none => .name s

/-! ## Tables -/

/-- The members of a table; what is no table has none. -/
def membersOf : Json → List (String × Json)
  | .object ms => ms
  | _ => []

/-- The items of a list; what is no list has none. -/
def itemsOf : Json → List Json
  | .array xs => xs
  | _ => []

/-- Set a name of a table to a value. -/
def put (name : String) (v : Json) : List (String × Json) → List (String × Json)
  | [] => [(name, v)]
  | (k, w) :: ms => if k = name then (k, v) :: ms else (k, w) :: put name v ms

mutual
/-- A value put in place of what is there, except that a table is merged into it. -/
def merge : (v : Json) → (there : Option Json) → Json
  | .object ms, there => mergeMembers ms (there.getD (.object []))
  | .null, _ => .null
  | .bool b, _ => .bool b
  | .number n, _ => .number n
  | .string s, _ => .string s
  | .array xs, _ => .array xs
termination_by structural v => v
/-- Members merged into what is there. -/
def mergeMembers : (ms : List (String × Json)) → (there : Json) → Json
  | [], there => there
  | m :: ms, there => mergeMembers ms (mergeMember m there)
termination_by structural ms => ms
/-- A member merged into what is there, which becomes a table. -/
def mergeMember : (m : String × Json) → (there : Json) → Json
  | (k, v), there =>
    let name := Text.lowercase k
    .object (put name (merge v ((membersOf there).lookup name)) (membersOf there))
termination_by structural m => m
end

theorem merge_scalar {v : Json} (h : ∀ ms, v ≠ .object ms) (there : Option Json) :
    merge v there = v := by
  cases v <;> simp_all [merge]

/-! ## Setting -/

/-- The place of an index in a list of some length. -/
def position (index : Int) (length : Nat) : Nat :=
  if 0 ≤ index then index.toNat else (length + index).toNat

/-- The list, made longer until it has an item at the place. -/
def extend (xs : List Json) (i : Nat) : List Json :=
  xs ++ List.replicate (i + 1 - xs.length) .null

/-- Change what a path leads to, making whatever is missing on the way. -/
def alter : KeyPath → (Json → Json) → Json → Json
  | name s, f, root => .object (put s (f (((membersOf root).lookup s).getD .null)) (membersOf root))
  | child p s, f, root =>
    p.alter (fun parent =>
      .object (put s (f (((membersOf parent).lookup s).getD .null)) (membersOf parent))) root
  | item p index, f, root =>
    p.alter (fun parent =>
      let i := position index (itemsOf parent).length
      .array ((extend (itemsOf parent) i).modify i f)) root

/-- Set what a path leads to. -/
def set (v : Json) : KeyPath → Json → Json
  | name s, root => mergeMember (s, v) root
  | child p s, root => p.alter (mergeMember (s, v)) root
  | item p index, root => (item p index).alter (fun _ => v) root

end KeyPath

end StagedCodegen
