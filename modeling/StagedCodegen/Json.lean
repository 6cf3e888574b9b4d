import StagedCodegen.Decimal.Shortest

/-!
# JSON values

Values as they are read: a number keeps its kind, and an object keeps its members in the order of
the text, repeated names included. `Json.canonical` gives the form in which values are kept: the
members of every object in ascending order of their names, the last of several equal names winning.
-/

namespace StagedCodegen

/-- A number of a JSON text. -/
inductive Json.Number where
  /-- A whole number of at most 64 bits, signed or unsigned. -/
  | int (n : Int)
  /-- Any other number, as the bits of a double. -/
  | float (bits : UInt64)
deriving DecidableEq, Repr

/-- A JSON value. -/
inductive Json where
  /-- Nothing. -/
  | null
  /-- A truth value. -/
  | bool (b : Bool)
  /-- A number. -/
  | number (n : Json.Number)
  /-- A text. -/
  | string (s : String)
  /-- A list of values. -/
  | array (items : List Json)
  /-- Named values. -/
  | object (members : List (String × Json))
deriving Repr, BEq, Inhabited

namespace Json

/-- A whole number. -/
abbrev int (n : Int) : Json := .number (.int n)

/-- A list of texts. -/
def strings (xs : List String) : Json := .array (xs.map .string)

/-- A text, or nothing. -/
def ofString? (s : Option String) : Json := (s.map Json.string).getD .null

/-! ## Canonical form -/

/-- Put a member at its place among sorted ones, replacing one of the same name. -/
def insertMember (k : String) (v : Json) : List (String × Json) → List (String × Json)
  | [] => [(k, v)]
  | (k', v') :: rest =>
    if k < k' then (k, v) :: (k', v') :: rest
    else if k = k' then (k, v) :: rest
    else (k', v') :: insertMember k v rest

/-- Members in ascending order of their names, later ones replacing earlier ones. -/
def sortMembers (ms : List (String × Json)) : List (String × Json) :=
  ms.foldl (fun acc m => insertMember m.1 m.2 acc) []

mutual
/-- The value with the members of every object sorted. -/
def canonical : (v : Json) → Json
  | .array xs => .array (canonicalItems xs)
  | .object ms => .object (sortMembers (canonicalMembers ms))
  | v => v
termination_by structural v => v
/-- `canonical` of each item. -/
def canonicalItems : (xs : List Json) → List Json
  | [] => []
  | x :: xs => canonical x :: canonicalItems xs
termination_by structural xs => xs
/-- `canonical` of each member's value. -/
def canonicalMembers : (ms : List (String × Json)) → List (String × Json)
  | [] => []
  | m :: ms => canonicalMember m :: canonicalMembers ms
termination_by structural ms => ms
/-- `canonical` of one member's value. -/
def canonicalMember : (m : String × Json) → String × Json
  | (k, v) => (k, canonical v)
termination_by structural m => m
end

/-- An object of the given members, sorted. -/
def obj (ms : List (String × Json)) : Json := .object (sortMembers ms)

/-! ## Looking inside -/

/-- The last member of an object with the given name. -/
def member? (v : Json) (name : String) : Option Json :=
  match v with
  | .object ms => (ms.reverse.find? (·.1 == name)).map (·.2)
  | _ => none

/-- The text that a value is. -/
def string? : Json → Option String
  | .string s => some s
  | _ => none

/-- The truth value that a value is. -/
def bool? : Json → Option Bool
  | .bool b => some b
  | _ => none

/-- The whole number that a value is. -/
def int? : Json → Option Int
  | .number (.int n) => some n
  | _ => none

/-- The list that a value is. -/
def array? : Json → Option (List Json)
  | .array xs => some xs
  | _ => none

/-- The members of the object that a value is. -/
def members? : Json → Option (List (String × Json))
  | .object ms => some ms
  | _ => none

end Json

end StagedCodegen
