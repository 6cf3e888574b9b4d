import StagedCodegen.Json

/-!
# Tables of TOML

A document grows by headers and keys, each of which may add to tables that are there already, but
only in some ways: a table that a header has opened is not opened again, and one that came about
through the points of a key is added to only through such keys.
-/

namespace StagedCodegen.Toml

/-- How a table came about. -/
inductive Standing where
  /-- A header, or braces, opened it. -/
  | opened
  /-- A header named a table inside it. -/
  | implied
  /-- The points of a key named something inside it. -/
  | dotted
deriving DecidableEq, Repr

/-- What a name in a table stands for. -/
inductive Node where
  /-- A finished value. -/
  | value (v : Json)
  /-- A table that may grow. -/
  | table (standing : Standing) (members : List (String × Node))
  /-- A list of tables, the last one first, of which the last may grow. -/
  | tables (last : List (List (String × Node)))

/-- The members of a table. -/
abbrev Members := List (String × Node)

/-! ## Values -/

mutual
/-- The value of a node. -/
def Node.toJson : (n : Node) → Json
  | .value v => v
  | .table _ ms => .object (membersToJson ms)
  | .tables ts => .array (tablesToJson ts).reverse
termination_by structural n => n
/-- The values of members. -/
def membersToJson : (ms : List (String × Node)) → List (String × Json)
  | [] => []
  | m :: ms => memberToJson m :: membersToJson ms
termination_by structural ms => ms
/-- The value of a member. -/
def memberToJson : (m : String × Node) → String × Json
  | (k, n) => (k, n.toJson)
termination_by structural m => m
/-- The values of tables. -/
def tablesToJson : (ts : List (List (String × Node))) → List Json
  | [] => []
  | ms :: ts => .object (membersToJson ms) :: tablesToJson ts
termination_by structural ts => ts
end

/-! ## Growth -/

/-- Put a node under a name, in place of the one there. -/
def putNode (name : String) (n : Node) : Members → Members
  | [] => [(name, n)]
  | (k, m) :: rest => if k = name then (k, n) :: rest else (k, m) :: putNode name n rest

/-- Change the table that a path leads to, making the tables on the way that are missing. The last
table of a list stands for the list. With `dotted`, the path is one of a key, which does not lead
through tables that were opened. -/
def descend (dotted : Bool) (change : Standing → Members → Option Members) :
    (path : List String) → Standing → Members → Option Members
  | [], standing, ms => change standing ms
  | k :: ks, _, ms =>
    match ms.lookup k with
    | none =>
      let standing : Standing := if dotted then .dotted else .implied
      (descend dotted change ks standing []).map fun inner => putNode k (.table standing inner) ms
    | some (.value _) => none
    | some (.tables []) => none
    | some (.tables (t :: ts)) =>
      (descend dotted change ks .opened t).map fun t => putNode k (.tables (t :: ts)) ms
    | some (.table standing inner) =>
      if dotted && standing == .opened then none
      else
        (descend dotted change ks standing inner).map fun inner =>
          putNode k (.table standing inner) ms

/-- Set a name of the table that a key's path leads to. -/
def setName (name : String) (n : Node) (path : List String) (standing : Standing) (ms : Members) :
    Option Members :=
  if (standing == .dotted) == path.isEmpty then none
  else if (ms.lookup name).isSome then none
  else some (ms ++ [(name, n)])

/-- Set a key of a table: all but its last part lead to the table whose name it sets. -/
def setKey (key : List String) (n : Node) (standing : Standing) (ms : Members) : Option Members :=
  match key.getLast? with
  | none => none
  | some name => descend true (setName name n key.dropLast) key.dropLast standing ms

/-- Set a key of the table that the last header has opened. -/
def setUnder (header key : List String) (n : Node) (root : Members) : Option Members :=
  descend false (setKey key n) header .opened root

/-- Open a table. -/
def openTable (name : String) (ms : Members) : Option Members :=
  match ms.lookup name with
  | none => some (ms ++ [(name, .table .opened [])])
  | some (.table .implied inner) => some (putNode name (.table .opened inner) ms)
  | some _ => none

/-- Open one more table of a list. -/
def openNext (name : String) (ms : Members) : Option Members :=
  match ms.lookup name with
  | none => some (ms ++ [(name, .tables [[]])])
  | some (.tables ts) => some (putNode name (.tables ([] :: ts)) ms)
  | some _ => none

/-- Open the table of a header, or with `list` one more table of its list. -/
def openHeader (list : Bool) (header : List String) (root : Members) : Option Members :=
  match header.getLast? with
  | none => none
  | some name =>
    descend false (fun _ ms => if list then openNext name ms else openTable name ms)
      header.dropLast .opened root

end StagedCodegen.Toml
