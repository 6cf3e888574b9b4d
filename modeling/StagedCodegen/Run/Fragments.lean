import StagedCodegen.Program
import StagedCodegen.Registry
import StagedCodegen.Representation.Draft
import StagedCodegen.Run.Options
import StagedCodegen.Run.Session

/-!
# The fragment phase

Fragments run in the order of their schedule, each with the draft that those before it left. A
fragment that stops the phase is the last to run. At the end every required family that anybody
belongs to must have had a member run, and the draft must be complete.
-/

namespace StagedCodegen

open StagedCodegen.Representation

/-! ## What a fragment can do -/

/-- What a fragment can ask for. -/
inductive FragmentRequest (κ : Type) where
  /-- Change the world, and see it. -/
  | outside (change : World κ → World κ)
  /-- See the draft. -/
  | look
  /-- Write a field of the draft. -/
  | assign (write : DraftWrite)
  /-- Stop the phase once this fragment has finished. -/
  | stop (reason : String)

/-- What a fragment gets to its requests. -/
def FragmentRequest.Answer {κ : Type} : FragmentRequest κ → Type
  | .outside _ => World κ
  | .look => Draft
  | .assign _ => Except Failure Unit
  | .stop _ => Unit

/-- The requests of fragments with their answers. -/
def fragmentInterface (κ : Type) : Interface := ⟨FragmentRequest κ, FragmentRequest.Answer⟩

/-- What a fragment knows. -/
structure FragmentView where
  /-- The options of the run. -/
  options : RunOptions
  /-- The key of the fragment. -/
  key : String
  /-- The scope of what it says. -/
  scope : Scope

/-- A program of a fragment. -/
abbrev FragmentProgram (κ α : Type) := ExceptT Failure (Program (fragmentInterface κ)) α

/-- What a fragment does. -/
abbrev FragmentBehaviour (κ : Type) := FragmentView → FragmentProgram κ Unit

namespace FragmentProgram

variable {κ : Type}

/-- Change the world, and see it. -/
def outside (change : World κ → World κ) : FragmentProgram κ (World κ) :=
  ExceptT.lift (Program.request (I := fragmentInterface κ) (.outside change))

/-- See the draft. -/
def look : FragmentProgram κ Draft :=
  ExceptT.lift (Program.request (I := fragmentInterface κ) .look)

/-- Write a field of the draft. -/
def assign (write : DraftWrite) : FragmentProgram κ Unit :=
  ExceptT.mk (Program.request (I := fragmentInterface κ) (.assign write))

/-- Stop the phase once this fragment has finished. -/
def stop (reason : String) : FragmentProgram κ Unit :=
  ExceptT.lift (Program.request (I := fragmentInterface κ) (.stop reason))

/-- Warn the user. -/
def warn (scope : Scope) (message : String) (context : Json) : FragmentProgram κ Unit := do
  let _ ← outside fun w => w.warn scope message context

end FragmentProgram

/-! ## Running one fragment -/

/-- The state that a fragment works on. -/
structure FragmentState (κ : Type) where
  /-- The world. -/
  world : World κ
  /-- The draft. -/
  draft : Draft
  /-- Why the phase is to stop. -/
  stopped : Option String

/-- What a request of a fragment that writes as `w` does. -/
def FragmentState.serve {κ : Type} (w : Writer) :
    (r : FragmentRequest κ) → FragmentState κ → r.Answer × FragmentState κ
  | .outside change, s => (change s.world, { s with world := change s.world })
  | .look, s => (s.draft, s)
  | .assign write, s =>
    let (result, draft) := s.draft.put w write
    (result, { s with draft := draft })
  | .stop reason, s => ((), { s with stopped := some reason })

/-- What a fragment leaves: the draft, and why the phase is to stop. -/
def runFragment {κ : Type} (o : RunOptions) (e : FragmentEntry) (behaviour : FragmentBehaviour κ)
    (d : Draft) : Act (World κ) (Draft × Option String) := fun w =>
  let view : FragmentView := ⟨o, e.key, Scope.child o.scope e.key⟩
  let program : Program (fragmentInterface κ) (Except Failure Unit) := (behaviour view).run
  match program.run (FragmentState.serve ⟨e.key, e.mode⟩) ⟨w, d, none⟩ with
  | (.ok (), s) => (.ok (s.draft, s.stopped), s.world)
  | (.error f, s) => (.error f, s.world)

/-! ## The phase -/

/-- Run fragments one after another, until one stops the phase. The result is the draft and the
keys of those that ran. -/
def runInOrder {κ : Type} (o : RunOptions) (fs : List (FragmentEntry × FragmentBehaviour κ)) :
    (order : List Nat) → Draft → Act (Session κ) (Draft × List String)
  | [], d => pure (d, [])
  | i :: rest, d =>
    match fs[i]? with
    | none => runInOrder o fs rest d
    | some (e, behaviour) => do
      let (d, stopped) ← Session.call (.fragment i) (runFragment o e behaviour d)
      Session.complete .fragment e.key
      match stopped with
      | some reason =>
        Session.change fun w => w.warn o.scope "Fragment phase short-circuited"
          (Json.obj [("key", .string e.key), ("reason", .string reason)])
        return (d, [e.key])
      | none =>
        let (d, ran) ← runInOrder o fs rest d
        return (d, e.key :: ran)

/-- The first required family that somebody belongs to and nobody ran for. -/
def idleFamily? (registered ran families : List String) : Option Failure :=
  families.findSome? fun family =>
    let members := registered.filter (keyInFamily · family)
    if members.isEmpty || ran.any (keyInFamily · family) then none
    else some (.familyNotExecuted family members)

/-- Tell the user of each fragment that gave way to another. -/
def warnOfSuperseded {κ : Type} (o : RunOptions) (es : List FragmentEntry) (indices : List Nat)
    (w : World κ) : World κ :=
  (indices.filterMap (es[·]?)).foldl (fun w e =>
    w.warn o.scope "Fragment registration superseded by override"
      (Json.obj [("key", .string e.key), ("origin", Json.ofString? e.origin)])) w

/-- Run all fragments and finish the draft. -/
def runFragments {κ β : Type} (r : Registry (FragmentBehaviour κ) β) (families : List String)
    (o : RunOptions) : Act (Session κ) Artifact := do
  let schedule ← Attempt.ofExcept (Schedule.fragments r.fragmentEntries)
  Session.change (warnOfSuperseded o r.fragmentEntries schedule.superseded)
  let (d, ran) ← runInOrder o r.fragments schedule.order Draft.empty
  match idleFamily? (r.fragmentEntries.map (·.key)) ran families with
  | some f => Attempt.fail f
  | none => Attempt.ofExcept d.finalize

end StagedCodegen
