import StagedCodegen.Helper

/-!
# Schedules

The order in which helpers run. A fragment runs after everything it depends on; where that leaves
a choice, the one registered first goes first. A fragment whose key somebody overrides is
superseded and does not run. Builders run by priority, then by key, then as they were registered.

A key may be registered several times, so dependencies are between keys and the order is one of
registrations, which go by their index.
-/

namespace StagedCodegen

/-- The order of fragments, by their index. -/
structure FragmentSchedule where
  /-- The fragments that run, in order. -/
  order : List Nat
  /-- The fragments that do not run because others stand in their place. -/
  superseded : List Nat
deriving DecidableEq, Repr

namespace Schedule

/-! ## Who runs -/

/-- Somebody overrides the key. -/
def isOverridden (fs : List FragmentEntry) (key : String) : Bool :=
  fs.any fun f => f.mode == .override && f.key == key

/-- The fragment gives way to an override of its key. -/
def isSuperseded (fs : List FragmentEntry) (f : FragmentEntry) : Bool :=
  f.mode == .extend && isOverridden fs f.key

/-- The fragments that run, each with its index. -/
def active (fs : List FragmentEntry) : List (FragmentEntry × Nat) :=
  fs.zipIdx.filter fun e => !isSuperseded fs e.1

/-- The indices of the fragments that do not run. -/
def superseded (fs : List FragmentEntry) : List Nat :=
  (fs.zipIdx.filter fun e => isSuperseded fs e.1).map (·.2)

/-- The keys of the fragments that run, each once, in the order of registration. -/
def keys (fs : List (FragmentEntry × Nat)) : List String := (fs.map (·.1.key)).eraseDups

/-- The keys on which fragments of a key depend, each once. -/
def dependencies (fs : List (FragmentEntry × Nat)) (key : String) : List String :=
  ((fs.filter (·.1.key = key)).flatMap (·.1.dependsOn)).eraseDups

/-! ## Dependencies on nobody -/

/-- The first dependency on a key that no fragment has, after the key of who depends on it. -/
def unknownDependency? (fs : List (FragmentEntry × Nat)) : Option (String × String) :=
  fs.findSome? fun e =>
    (e.1.dependsOn.find? fun d => !fs.any (·.1.key == d)).map (e.1.key, ·)

/-! ## Circles -/

/-- The walk from one key back to itself that a search has found: the keys on its stack, last one
first, up to `child`, which the search has met again. -/
def circle (stack : List String) (child : String) : List String :=
  child :: ((stack.takeWhile (· ≠ child)).reverse ++ [child])

/-- The keys other than `key`. -/
def without (key : String) (keys : List String) : List String := keys.filter (· ≠ key)

theorem length_without_le (key : String) (keys : List String) :
    (without key keys).length ≤ keys.length := List.length_filter_le _ _

theorem length_without_lt {key : String} {keys : List String} (h : key ∈ keys) :
    (without key keys).length < keys.length :=
  List.length_filter_lt_length_iff_exists.2 ⟨key, h, by simp⟩

/-- How many visits a search still owes its stack: one to each key on it, to see that nothing is
left there, and one to each key that is to be visited from there. -/
def owed : List (String × List String) → Nat
  | [] => 0
  | e :: stack => e.2.length + 1 + owed stack

/-- Search for a circle, depth first. `white` are the keys not met yet; the stack holds the keys on
the way to here, the last one first, each with the keys still to be visited from it. -/
def explore (next : String → List String) :
    (white : List String) → (stack : List (String × List String)) → Option (List String)
  | [], [] => none
  | root :: white, [] => explore next (without root white) [(root, next root)]
  | white, (_, []) :: stack => explore next white stack
  | white, (node, child :: rest) :: stack =>
    if child ∈ white then
      explore next (without child white) ((child, next child) :: (node, rest) :: stack)
    else if child = node ∨ child ∈ stack.map (·.1) then
      some (circle (node :: stack.map (·.1)) child)
    else explore next white ((node, rest) :: stack)
termination_by white stack => (white.length, owed stack)
decreasing_by
  · exact Prod.Lex.left _ _ (Nat.lt_succ_of_le (length_without_le _ _))
  · exact Prod.Lex.right _ (by simp [owed])
  · next h => exact Prod.Lex.left _ _ (length_without_lt h)
  · exact Prod.Lex.right _ (by simp [owed])

/-- A circle among the given keys. -/
def circle? (next : String → List String) (keys : List String) : Option (List String) :=
  explore next keys []

/-! ## The order -/

/-- Who waits for whom: the index of a fragment, and that of one that depends on its key. -/
def links (fs : List (FragmentEntry × Nat)) : List (Nat × Nat) :=
  fs.flatMap fun e => e.1.dependsOn.eraseDups.flatMap fun d =>
    (fs.filter (·.1.key = d)).map fun u => (u.2, e.2)

/-- Put an index into an ascending list. -/
def insertAscending (i : Nat) : List Nat → List Nat
  | [] => [i]
  | j :: js => if i < j then i :: j :: js else if i = j then j :: js else j :: insertAscending i js

/-- How far the ordering has come. -/
structure Progress where
  /-- For each index, the number of fragments that it still waits for. -/
  degrees : List Nat
  /-- Those that wait for nobody, in ascending order. -/
  ready : List Nat
  /-- Those that have their place, in order. -/
  order : List Nat
deriving DecidableEq, Repr

namespace Progress

/-- One fragment less to wait for. -/
def release (p : Progress) (i : Nat) : Progress :=
  let degrees := p.degrees.modify i (· - 1)
  if degrees[i]? = some 0 then
    { p with degrees := degrees, ready := insertAscending i p.ready }
  else { p with degrees := degrees }

/-- Give the next place to `i`, which leaves `rest` ready, and release all that waited for it. -/
def emit (links : List (Nat × Nat)) (p : Progress) (i : Nat) (rest : List Nat) : Progress :=
  ((links.filter (·.1 = i)).map (·.2)).foldl release
    { p with ready := rest, order := p.order ++ [i] }

/-- Give out places, at most `n` of them, as long as anybody is ready. -/
def run (links : List (Nat × Nat)) : (n : Nat) → Progress → Progress
  | 0, p => p
  | n + 1, p =>
    match p.ready with
    | [] => p
    | i :: rest => run links n (p.emit links i rest)

end Progress

/-- The start of the ordering of `n` registrations, of which those in `fs` run. -/
def start (n : Nat) (fs : List (FragmentEntry × Nat)) (links : List (Nat × Nat)) : Progress :=
  let degrees := (List.range n).map fun i => links.countP (·.2 = i)
  ⟨degrees, (fs.map (·.2)).filter fun i => degrees[i]? = some 0, []⟩

/-- The order of the fragments that run. -/
def order (n : Nat) (fs : List (FragmentEntry × Nat)) : List Nat :=
  ((start n fs (links fs)).run (links fs) fs.length).order

/-- The schedule of all registered fragments. -/
def fragments (fs : List FragmentEntry) : Except Failure FragmentSchedule :=
  let running := active fs
  match unknownDependency? running with
  | some (key, dependency) => .error (.unknownDependency key dependency)
  | none =>
    match circle? (dependencies running) (keys running) with
    | some ks => .error (.dependencyCycle ks)
    | none => .ok ⟨order fs.length running, superseded fs⟩

/-! ## Builders -/

/-- The first builder, of those with their index, runs before the second or is the second. -/
def precedes (a b : BuilderEntry × Nat) : Bool :=
  b.1.priority < a.1.priority ||
    (a.1.priority == b.1.priority &&
      (a.1.key < b.1.key || (a.1.key == b.1.key && a.2 ≤ b.2)))

/-- The order of all registered builders, by their index. -/
def builders (bs : List BuilderEntry) : List Nat :=
  (bs.zipIdx.mergeSort precedes).map (·.2)

end Schedule

end StagedCodegen
