import StagedCodegen.Failure

/-!
# Helpers

What the library knows of a helper before it runs: its key, where it comes from, and how it stands
to other helpers. Keys are names joined by points; a family is the helpers whose keys begin with
the same names.

Main statement: `keyInFamily_trans`, by which a member of an inner family is a member of every
outer one.
-/

namespace StagedCodegen

/-- How a helper stands to others of its key. -/
inductive HelperMode where
  /-- Beside them. -/
  | extend
  /-- In place of them. -/
  | override
deriving DecidableEq, Repr

/-- The word for how a helper stands to others. -/
def HelperMode.text : HelperMode → String
  | .extend => "extend"
  | .override => "override"

/-- What is known of a helper that fills the draft. -/
structure FragmentEntry where
  /-- Its key. -/
  key : String
  /-- The keys of the helpers that must run before it. -/
  dependsOn : List String
  /-- How it stands to others of its key. -/
  mode : HelperMode
  /-- Where it comes from. -/
  origin : Option String
deriving DecidableEq, Repr

/-- What is known of a fragment, in JSON. -/
def FragmentEntry.toJson (e : FragmentEntry) : Json :=
  .object [("key", .string e.key), ("depends_on", Json.strings e.dependsOn),
    ("mode", .string e.mode.text), ("origin", Json.ofString? e.origin)]

/-- What is known of a helper that queues writes. -/
structure BuilderEntry where
  /-- Its key. -/
  key : String
  /-- Helpers of higher priority run first. -/
  priority : Int
  /-- Where it comes from. -/
  origin : Option String
deriving DecidableEq, Repr

/-- What is known of a builder, in JSON. -/
def BuilderEntry.toJson (e : BuilderEntry) : Json :=
  .object [("key", .string e.key), ("priority", .int e.priority),
    ("origin", Json.ofString? e.origin)]

/-- A helper of either kind, with what it does. -/
inductive Helper (φ β : Type) where
  /-- A helper that fills the draft. -/
  | fragment (entry : FragmentEntry) (behaviour : φ)
  /-- A helper that queues writes. -/
  | builder (entry : BuilderEntry) (behaviour : β)

namespace Helper

variable {φ β : Type}

/-- The kind of a helper. -/
def kind : Helper φ β → HelperKind
  | fragment _ _ => .fragment
  | builder _ _ => .builder

/-- The key of a helper. -/
def key : Helper φ β → String
  | fragment e _ => e.key
  | builder e _ => e.key

/-- Where a helper comes from. -/
def origin : Helper φ β → Option String
  | fragment e _ => e.origin
  | builder e _ => e.origin

end Helper

/-! ## Families -/

/-- The key is the family's name, or goes on after it with a point. -/
def keyInFamily (key family : String) : Bool :=
  key == family || (family.toList ++ ['.']).isPrefixOf key.toList

theorem keyInFamily_iff {key family : String} :
    keyInFamily key family = true ↔
      key = family ∨ ∃ rest, key.toList = family.toList ++ '.' :: rest := by
  simp only [keyInFamily, Bool.or_eq_true, beq_iff_eq, List.isPrefixOf_iff_prefix, List.IsPrefix,
    List.append_assoc, List.singleton_append]
  exact or_congr_right (exists_congr fun _ => eq_comm)

theorem keyInFamily_trans {a b c : String} (hab : keyInFamily a b = true)
    (hbc : keyInFamily b c = true) : keyInFamily a c = true := by
  rw [keyInFamily_iff] at *
  rcases hab with rfl | ⟨r, hr⟩
  · exact hbc
  · rcases hbc with rfl | ⟨q, hq⟩
    · exact .inr ⟨r, hr⟩
    · exact .inr ⟨q ++ '.' :: r, by simp [hr, hq]⟩

end StagedCodegen
