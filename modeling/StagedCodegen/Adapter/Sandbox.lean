import StagedCodegen.Run.Ledger
import StagedCodegen.Writes

/-!
# Sandboxes

Adapters do not write files; they queue them in a sandbox. Each queued file has a place inside the
output directory, checked when it is queued and once more when it is written. A sandbox is settled
once: it is committed, which writes the files, or rolled back, which drops them, and whatever is
asked of it after that does nothing.

Main statements: `commit_of_settled` and `rollback_of_settled`.
-/

namespace StagedCodegen

/-- A file that waits to be written. -/
structure StagedFile where
  /-- Where it goes. -/
  target : Path
  /-- What is to be written. -/
  contents : ByteArray
  /-- How many files were accepted before it. -/
  stagedAt : Nat
  /-- The name of the adapter that queued it. -/
  adapter : String

/-- How far a sandbox has come. -/
inductive SandboxState where
  /-- It takes files. -/
  | pending
  /-- Its files were to be written. -/
  | committed
  /-- Its files were dropped. -/
  | rolledBack
deriving DecidableEq, Repr

/-- The word for how far a sandbox has come. -/
def SandboxState.text : SandboxState → String
  | .pending => "Pending"
  | .committed => "Committed"
  | .rolledBack => "RolledBack"

/-- The files that adapters have queued. -/
structure Sandbox where
  /-- The directory inside which all files go. -/
  outputDir : Path
  /-- There is a directory for temporary files. -/
  hasScratch : Bool
  /-- How far the sandbox has come. -/
  state : SandboxState
  /-- The files, the oldest first. -/
  queue : List StagedFile
  /-- How many files were accepted. -/
  accepted : Nat
  /-- What became of the files that were written. -/
  records : List WriteRecord

namespace Sandbox

variable {κ : Type}

/-- A sandbox for an output directory. -/
def new (d : Disk) (outputDir : Path) (hasScratch : Bool) : Except Failure Sandbox :=
  (d.canonicalBoundary outputDir).map fun dir => ⟨dir, hasScratch, .pending, [], 0, []⟩

/-- Queue a file. The result is where it will go. -/
def stage (d : Disk) (adapter : String) (p : Path) (contents : ByteArray) :
    Act Sandbox Path := fun s =>
  match d.resolveWithin s.outputDir p with
  | .error f => (.error f, s)
  | .ok target =>
    if s.state = .pending then
      (.ok target, { s with
        queue := s.queue ++ [⟨target, contents, s.accepted, adapter⟩]
        accepted := s.accepted + 1 })
    else
      (.error (.rejected adapter
        ("sandbox already " ++ s.state.text ++ ", cannot queue files")), s)

/-- Drop all files, unless the sandbox is settled. -/
def rollback (s : Sandbox) : Sandbox :=
  if s.state = .pending then { s with state := .rolledBack, queue := [] } else s

/-- Where a file goes at the time it is written. -/
def recheck (d : Disk) (outputDir target : Path) : Except Failure Path :=
  match d.resolveWithin outputDir target with
  | .error f => .error f
  | .ok resolved =>
    if resolved.startsWith outputDir then .ok resolved else .error (.pathEscape target outputDir)

/-- Write files, up to the first that fails. The records are of those that were written. -/
def writeQueue (writer : FileWriter (World κ)) (outputDir : Path) :
    List StagedFile → World κ → Except Failure Unit × List WriteRecord × World κ
  | [], w => (.ok (), [], w)
  | file :: rest, w =>
    match recheck w.disk outputDir file.target with
    | .error f => (.error f, [], w)
    | .ok target =>
      match writer.write target file.contents w with
      | (.error f, w) => (.error f, [], w)
      | (.ok r, w) =>
        match writeQueue writer outputDir rest w with
        | (result, rs, w) => (result, r :: rs, w)

/-- Write all files, unless the sandbox is settled. It counts as committed also if that fails. -/
def commit (writer : FileWriter (World κ)) (s : Sandbox) (w : World κ) :
    Except Failure Unit × Sandbox × World κ :=
  if s.state = .pending then
    match writeQueue writer s.outputDir s.queue w with
    | (result, rs, w) =>
      (result, { s with state := .committed, queue := [], records := s.records ++ rs }, w)
  else (.ok (), s, w)

/-- What became of the files. -/
def summary (s : Sandbox) : WriteSummary := .ofRecords s.records

/-- The sandbox as something begun that is to be committed or rolled back. -/
def transaction (writer : FileWriter (World κ)) (s : Sandbox) : Transaction κ where
  commit := fun w =>
    match s.commit writer w with
    | (result, _, w) => (result, w)
  rollback := pure ()

/-- A new sandbox is empty. -/
theorem eq_of_new {d : Disk} {dir : Path} {hasScratch : Bool} {s : Sandbox}
    (h : new d dir hasScratch = .ok s) : s = ⟨s.outputDir, hasScratch, .pending, [], 0, []⟩ := by
  rcases hdir : d.canonicalBoundary dir with f | p
  · rw [new, hdir] at h
    cases h
  · rw [new, hdir] at h
    cases h
    rfl

theorem recheck_eq_ok_iff {d : Disk} {outputDir target p : Path} :
    recheck d outputDir target = .ok p ↔
      d.resolveWithin outputDir target = .ok p ∧ p.startsWith outputDir = true := by
  unfold recheck
  rcases d.resolveWithin outputDir target with f | r
  · simp
  · simp only
    split
    · next h =>
      refine ⟨fun hr => ?_, And.left⟩
      cases hr
      exact ⟨rfl, h⟩
    · next h =>
      refine iff_of_false nofun ?_
      rintro ⟨hr, hp⟩
      cases hr
      exact h hp

section

-- a check that is matched on must not be computed
attribute [local irreducible] recheck

theorem writeQueue_cons (writer : FileWriter (World κ)) (outputDir : Path)
    (file : StagedFile) (rest : List StagedFile) (w : World κ) :
    writeQueue writer outputDir (file :: rest) w =
      match recheck w.disk outputDir file.target with
      | .error f => (.error f, [], w)
      | .ok target =>
        match writer.write target file.contents w with
        | (.error f, w) => (.error f, [], w)
        | (.ok r, w) =>
          match writeQueue writer outputDir rest w with
          | (result, rs, w) => (result, r :: rs, w) := rfl

end

theorem commit_of_settled {writer : FileWriter (World κ)} {s : Sandbox} {w : World κ}
    (h : s.state ≠ .pending) : s.commit writer w = (.ok (), s, w) := by
  simp [commit, h]

theorem rollback_of_settled {s : Sandbox} (h : s.state ≠ .pending) : s.rollback = s := by
  simp [rollback, h]

end Sandbox

end StagedCodegen
