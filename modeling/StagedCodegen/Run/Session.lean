import StagedCodegen.World

/-!
# The session of a run

The state of the world together with two accounts of the run: the steps that it completed, which
belong to its result, and every call that it made to a client, whether that call succeeded or not.
-/

namespace StagedCodegen

/-- The phases that steps belong to. -/
inductive Phase where
  /-- Filling the draft. -/
  | fragment
  /-- Hooks of extensions. -/
  | extension
  /-- Settling what hooks have begun. -/
  | commit
  /-- Queueing writes. -/
  | builder
deriving DecidableEq, Repr

/-- The word for a phase. -/
def Phase.text : Phase → String
  | .fragment => "fragment"
  | .extension => "extension"
  | .commit => "extension-commit"
  | .builder => "builder"

/-- A completed step of a run. -/
structure Step where
  /-- The phase it belongs to. -/
  phase : Phase
  /-- The key of the client. -/
  key : String
deriving DecidableEq, Repr

/-- A step in JSON. -/
def Step.toJson (s : Step) : Json :=
  .object [("phase", .string s.phase.text), ("key", .string s.key)]

/-- A call to a client, who goes by an index: that of a helper in its registry, of an extension or
a hook in order of registration, of a transaction in the ledger. -/
inductive Call where
  /-- An extension was asked for its hook. -/
  | register (index : Nat)
  /-- A fragment ran. -/
  | fragment (index : Nat)
  /-- A hook ran. -/
  | hook (index : Nat)
  /-- A builder ran. -/
  | builder (index : Nat)
  /-- A transaction was to be made final. -/
  | commit (index : Nat)
  /-- A transaction was to be undone. -/
  | rollback (index : Nat)
deriving DecidableEq, Repr

/-- The state of a run. -/
structure Session (κ : Type) where
  /-- The world. -/
  world : World κ
  /-- The completed steps. -/
  steps : List Step
  /-- The calls that were made. -/
  calls : List Call

namespace Session

variable {κ α : Type}

/-- The session of a run that begins. -/
def start (w : World κ) : Session κ := ⟨w, [], []⟩

/-- An action on the world. -/
def act (x : Act (World κ) α) : Act (Session κ) α :=
  x.onPart Session.world fun w s => { s with world := w }

/-- Change the world. -/
def change (f : World κ → World κ) : Act (Session κ) Unit :=
  Attempt.modify fun s => { s with world := f s.world }

/-- Complete a step. -/
def complete (phase : Phase) (key : String) : Act (Session κ) Unit :=
  Attempt.modify fun s => { s with steps := s.steps ++ [⟨phase, key⟩] }

/-- Make a call to a client. -/
def call (c : Call) (x : Act (World κ) α) : Act (Session κ) α := do
  Attempt.modify fun s => { s with calls := s.calls ++ [c] }
  act x

end Session

end StagedCodegen
