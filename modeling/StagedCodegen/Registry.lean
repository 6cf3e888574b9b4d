import StagedCodegen.Schedule
import StagedCodegen.World
import StagedCodegen.SortedMap
import StagedCodegen.Text.Blank

/-!
# The registry of helpers

Helpers register on the surface of their kind, under keys that are not blank. A key may be
registered any number of times, but overridden only once.

Main statement: `registerFragment_error` and `registerBuilder_error`: who is refused leaves no
trace.
-/

namespace StagedCodegen

/-- The helpers that have registered, each with what it does. -/
structure Registry (φ β : Type) where
  /-- Those that fill the draft, the oldest first. -/
  fragments : List (FragmentEntry × φ)
  /-- Those that queue writes, the oldest first. -/
  builders : List (BuilderEntry × β)
  /-- For each overridden key, where the override comes from. -/
  overrides : SortedMap String

namespace Registry

variable {φ β : Type}

/-- Nobody yet. -/
def empty : Registry φ β := ⟨[], [], .empty⟩

/-- Somebody overrides the key. -/
def hasOverride (r : Registry φ β) (key : String) : Bool := r.overrides.contains key

/-- What is said of the origin of a helper that does not name it. -/
def unspecifiedOrigin : String := "<unspecified>"

/-- Add a fragment, which may override only keys that nobody overrides yet. -/
def addFragment (r : Registry φ β) (e : FragmentEntry) (act : φ) :
    Except Failure Unit × Registry φ β :=
  let added := { r with fragments := r.fragments ++ [(e, act)] }
  match e.mode with
  | .extend => (.ok (), added)
  | .override =>
    let origin := e.origin.getD unspecifiedOrigin
    match r.overrides.get? e.key with
    | some existing => (.error (.overrideConflict e.key existing origin), r)
    | none => (.ok (), { added with overrides := r.overrides.insert e.key origin })

/-- Register a helper on the surface for fragments. -/
def registerFragment (h : Helper φ β) : Act (Registry φ β) Unit := fun r =>
  match h with
  | .builder e _ => (.error (.kindMismatch e.key .fragment .builder), r)
  | .fragment e act =>
    if Text.isBlankText e.key then (.error (.emptyKey .fragment), r) else r.addFragment e act

/-- Register a helper on the surface for builders. -/
def registerBuilder (h : Helper φ β) : Act (Registry φ β) Unit := fun r =>
  match h with
  | .fragment e _ => (.error (.kindMismatch e.key .builder .fragment), r)
  | .builder e act =>
    if Text.isBlankText e.key then (.error (.emptyKey .builder), r)
    else (.ok (), { r with builders := r.builders ++ [(e, act)] })

theorem registerFragment_error {h : Helper φ β} {r r' : Registry φ β} {f : Failure}
    (he : registerFragment h r = (.error f, r')) : r' = r := by
  unfold registerFragment at he
  split at he
  · simp_all
  · split at he
    · simp_all
    · unfold addFragment at he
      split at he
      · simp_all
      · dsimp only at he
        split at he <;> simp_all

theorem registerBuilder_error {h : Helper φ β} {r r' : Registry φ β} {f : Failure}
    (he : registerBuilder h r = (.error f, r')) : r' = r := by
  unfold registerBuilder at he
  split at he
  · simp_all
  · split at he <;> simp_all

/-- What is known of the registered fragments. -/
def fragmentEntries (r : Registry φ β) : List FragmentEntry := r.fragments.map (·.1)

/-- What is known of the registered builders. -/
def builderEntries (r : Registry φ β) : List BuilderEntry := r.builders.map (·.1)

end Registry

end StagedCodegen
