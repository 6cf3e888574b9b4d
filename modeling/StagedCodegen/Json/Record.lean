import StagedCodegen.Json
import StagedCodegen.SortedMap

/-!
# Records in JSON

How a value with named fields is read: an object gives the fields by name, in any order, and
members of other names are passed over; an array gives them by place. A field that occurs twice is
refused.
-/

namespace StagedCodegen.Json

/-- The fields of a record that an array gives, by place. -/
def byPlace : List String → List Json → List (Option Json)
  | [], _ => []
  | _ :: ns, [] => none :: byPlace ns []
  | _ :: ns, x :: xs => some x :: byPlace ns xs

/-- The fields of a record in the order of `names`. With `exact`, an array must not be longer. -/
def fields? (exact : Bool) (names : List String) : Json → Option (List (Option Json))
  | .object ms =>
    if names.any fun n => 1 < (ms.map (·.1)).count n then none
    else some (names.map fun n => (ms.find? (·.1 == n)).map (·.2))
  | .array xs => if exact && names.length < xs.length then none else some (byPlace names xs)
  | _ => none

/-- A field that must be there. -/
def required {α : Type} (read : Json → Option α) (field : Option Json) : Option α :=
  field.bind read

/-- A field with a value of its own when it is not there. -/
def defaulted {α : Type} (read : Json → Option α) (a : α) : Option Json → Option α
  | none => some a
  | some v => read v

/-- A field that may be left out or empty. -/
def optional {α : Type} (read : Json → Option α) : Option Json → Option (Option α)
  | none => some none
  | some .null => some none
  | some v => (read v).map some

/-- A list of values of one kind. -/
def list? {α : Type} (read : Json → Option α) (v : Json) : Option (List α) :=
  v.array?.bind fun xs => xs.mapM read

/-- A map of values of one kind, the last of several equal keys winning. -/
def map? {α : Type} (read : Json → Option α) (v : Json) : Option (SortedMap α) :=
  v.members?.bind fun ms =>
    (ms.mapM fun m => (read m.2).map (m.1, ·)).map SortedMap.ofList

/-- One of several named choices: its name, or an object that holds nothing under its name. -/
def choice? {α : Type} (choices : List (String × α)) : Json → Option α
  | .string s => choices.lookup s
  | .object [(s, .null)] => choices.lookup s
  | _ => none

/-- A whole number from zero to below the bound. -/
def natBelow? (bound : Nat) (v : Json) : Option Nat :=
  v.int?.bind fun n => if 0 ≤ n ∧ n < bound then some n.toNat else none

/-- The object of a map's bindings, in the order of their keys. -/
def ofMap {α : Type} (write : α → Json) (m : SortedMap α) : Json :=
  .object (m.entries.map fun e => (e.1, write e.2))

end StagedCodegen.Json
