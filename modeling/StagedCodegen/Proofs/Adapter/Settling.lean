import StagedCodegen.Proofs.Adapter.Commit

/-!
# Sandboxes are settled once

A sandbox takes files, in order, until it is committed or rolled back for the first time; whatever
is asked of it after that has no effect, whether a commit has gone well or not
(`Sandbox.Settling.each_run_of_settled`). So its writer is called for the files that the first call
hands to it, each once, and for no file if that call is a rollback.

Main statement: `Sandbox.settles_once`.
-/

namespace StagedCodegen

variable {κ : Type}

/-- The writer succeeds with the file. -/
def Handing.Succeeds (writer : FileWriter (World κ)) (x : Handing κ) : Prop :=
  ∃ r, (x.written writer).1 = .ok r

/-- The world has an account of all that the writer is called for. -/
def FileWriter.Logs (writer : FileWriter (World κ)) (log : World κ → List (Path × ByteArray)) :
    Prop :=
  ∀ p contents w, log (writer.write p contents w).2 = log w ++ [(p, contents)]

namespace Sandbox

variable {writer : FileWriter (World κ)} {outputDir : Path} {queue : List StagedFile}
  {w v : World κ} {hs : List (Handing κ)} {result : Except Failure Unit} {s : Sandbox}

/-! ## Files are queued -/

/-- A file that an adapter is to queue. -/
structure Staging where
  /-- The files that there are by then. -/
  disk : Disk
  /-- The name of the adapter. -/
  adapter : String
  /-- Where the file is to go. -/
  path : Path
  /-- What is to be written. -/
  contents : ByteArray

namespace Staging

/-- Queue the file. -/
def run (g : Staging) : Act Sandbox Path := stage g.disk g.adapter g.path g.contents

/-- Where the file will go, if that is inside the output directory. -/
def target (outputDir : Path) (g : Staging) : Except Failure Path :=
  g.disk.resolveWithin outputDir g.path

/-- The files that will go inside the output directory, and where. -/
def accepted (outputDir : Path) (gs : List Staging) : List (Staging × Path) :=
  gs.filterMap fun g => (g.target outputDir).toOption.map (g, ·)

/-- The files in a queue, with their numbers. -/
def numbered (n : Nat) (files : List (Staging × Path)) : List StagedFile :=
  (files.zipIdx n).map fun ((g, target), i) => ⟨target, g.contents, i, g.adapter⟩

variable {g : Staging}

section

-- what is matched on must not be computed
attribute [local irreducible] Disk.resolveWithin

/-- A pending sandbox accepts what will go inside the output directory. -/
theorem run_eq (hs : s.state = .pending) :
    g.run s = (g.target s.outputDir, { s with
      queue := s.queue ++ numbered s.accepted (accepted s.outputDir [g])
      accepted := s.accepted + (accepted s.outputDir [g]).length }) := by
  rcases htarget : g.target s.outputDir with f | target
  · have hrun : g.run s = (.error f, s) := by
      unfold run stage
      rw [show g.disk.resolveWithin s.outputDir g.path = _ from htarget]
    simp [hrun, accepted, htarget, Except.toOption, numbered]
  · have hrun : g.run s = _ := stage_of_resolveWithin hs htarget
    simp [hrun, accepted, htarget, Except.toOption, numbered]

/-- What is not accepted leaves the sandbox alone. -/
theorem run_of_error {f : Failure} (h : (g.run s).1 = .error f) : (g.run s).2 = s := by
  rcases stage_cases g.disk g.adapter g.path g.contents s with hsame | ⟨target, -, -, hstage⟩
  · exact hsame
  · rw [run, hstage] at h
    cases h

end

theorem each_run (hs : s.state = .pending) (gs : List Staging) :
    Attempt.each (gs.map run) s = (gs.map (target s.outputDir), { s with
      queue := s.queue ++ numbered s.accepted (accepted s.outputDir gs)
      accepted := s.accepted + (accepted s.outputDir gs).length }) := by
  induction gs generalizing s with
  | nil => simp [accepted, numbered]
  | cons g gs ih =>
    have hcons : accepted s.outputDir (g :: gs) =
        accepted s.outputDir [g] ++ accepted s.outputDir gs := by
      rw [accepted, accepted, accepted, ← List.filterMap_append, List.singleton_append]
    rw [List.map_cons, Attempt.each_cons, run_eq hs]
    dsimp only
    rw [ih, hcons]
    · simp [numbered, List.zipIdx_append, Nat.add_comm, Nat.add_left_comm]
    · exact hs

end Staging

/-! ## Where a commit stops -/

/-- Where a commit stops that hands some files of a queue to the writer. -/
inductive Stops (writer : FileWriter (World κ)) (outputDir : Path) (queue : List StagedFile)
    (hs : List (Handing κ)) (v : World κ) : Except Failure Unit → Prop where
  /-- All files are written. -/
  | done (files : hs.map (·.file) = queue) (succeed : ∀ x ∈ hs, x.Succeeds writer) :
      Stops writer outputDir queue hs v (.ok ())
  /-- The target of the next does not pass the check. -/
  | refused {file : StagedFile} {rest : List StagedFile} {f : Failure}
      (files : hs.map (·.file) ++ file :: rest = queue) (succeed : ∀ x ∈ hs, x.Succeeds writer)
      (fails : recheck v.disk outputDir file.target = .error f) :
      Stops writer outputDir queue hs v (.error f)
  /-- The writer fails on the last. -/
  | failed {before : List (Handing κ)} {x : Handing κ} {rest : List StagedFile} {f : Failure}
      (files : hs.map (·.file) ++ rest = queue) (last : hs = before ++ [x])
      (succeed : ∀ y ∈ before, y.Succeeds writer) (fails : x.written writer = (.error f, v)) :
      Stops writer outputDir queue hs v (.error f)

theorem Hands.stops (h : Hands writer outputDir queue w hs result v) :
    Stops writer outputDir queue hs v result := by
  induction h with
  | done => exact .done rfl (fun _ hx => absurd hx List.not_mem_nil)
  | refused fails => exact .refused rfl (fun _ hx => absurd hx List.not_mem_nil) fails
  | failed checked fails =>
    exact .failed rfl (List.nil_append _).symm (fun _ hx => absurd hx List.not_mem_nil) fails
  | @written file rest target w v u r hs result checked writes others ih =>
    have hfirst : Handing.Succeeds writer ⟨file, target, w⟩ := ⟨r, congrArg Prod.fst writes⟩
    cases ih with
    | done files succeed =>
      exact .done (congrArg (file :: ·) files) (List.forall_mem_cons.2 ⟨hfirst, succeed⟩)
    | refused files succeed fails =>
      exact .refused (congrArg (file :: ·) files) (List.forall_mem_cons.2 ⟨hfirst, succeed⟩) fails
    | failed files last succeed fails =>
      exact .failed (congrArg (file :: ·) files) (congrArg (_ :: ·) last)
        (List.forall_mem_cons.2 ⟨hfirst, succeed⟩) fails

/-- The writer is called for the files that are handed to it. -/
theorem Hands.log_eq {log : World κ → List (Path × ByteArray)} (hlog : writer.Logs log)
    (h : Hands writer outputDir queue w hs result v) :
    log v = log w ++ hs.map fun x => (x.target, x.file.contents) := by
  induction h with
  | done | refused fails => rw [List.map_nil, List.append_nil]
  | @failed file rest target w v f checked fails =>
    have hcall := hlog target file.contents w
    rwa [fails] at hcall
  | @written file rest target w v u r hs result checked writes others ih =>
    have hcall := hlog target file.contents w
    rw [writes] at hcall
    rw [ih, hcall, List.append_assoc, List.map_cons, List.singleton_append]

/-! ## Commits and rollbacks -/

/-- How a sandbox can be settled. -/
inductive Settlement where
  /-- Its files are to be written. -/
  | commit
  /-- Its files are to be dropped. -/
  | rollback

/-- What a sandbox comes to when it is settled. -/
def Settlement.state : Settlement → SandboxState
  | .commit => .committed
  | .rollback => .rolledBack

/-- A call that settles a sandbox, unless that is settled. -/
structure Settling (κ : Type) where
  /-- What happens to the world before the call. -/
  meanwhile : World κ → World κ
  /-- How the sandbox is settled. -/
  how : Settlement

namespace Settling

variable {c : Settling κ}

/-- Settle the sandbox. -/
def run (writer : FileWriter (World κ)) (c : Settling κ) : Act (Sandbox × World κ) Unit :=
  fun (s, w) =>
    match c.how with
    | .commit =>
      match s.commit writer (c.meanwhile w) with
      | (result, s, w) => (result, s, w)
    | .rollback => (.ok (), s.rollback, c.meanwhile w)

theorem run_of_settled (h : s.state ≠ .pending) :
    c.run writer (s, w) = (.ok (), s, c.meanwhile w) := by
  rcases c with ⟨meanwhile, _ | _⟩
  · simp only [run, commit_of_settled h]
  · simp only [run, rollback_of_settled h]

/-- Calls after the first have no effect. -/
theorem each_run_of_settled (h : s.state ≠ .pending) (later : List (Settling κ)) (w : World κ) :
    Attempt.each (later.map (run writer)) (s, w) =
      (later.map fun _ => .ok (), s, later.foldl (fun w c => c.meanwhile w) w) := by
  induction later generalizing w with
  | nil => rfl
  | cons c later ih => rw [List.map_cons, Attempt.each_cons, run_of_settled h, ih]; rfl

/-- What the first call hands to the writer, what comes of it, and the world that is left. -/
inductive Settles (writer : FileWriter (World κ)) (s : Sandbox) (w : World κ) :
    Settling κ → List (Handing κ) → Except Failure Unit → World κ → Prop where
  /-- The queue is handed to the writer, up to the first file that is refused or fails. -/
  | commit {meanwhile : World κ → World κ} {hs : List (Handing κ)} {result : Except Failure Unit}
      {v : World κ} (hands : Hands writer s.outputDir s.queue (meanwhile w) hs result v) :
      Settles writer s w ⟨meanwhile, .commit⟩ hs result v
  /-- Nothing is. -/
  | rollback {meanwhile : World κ → World κ} :
      Settles writer s w ⟨meanwhile, .rollback⟩ [] (.ok ()) (meanwhile w)

theorem exists_settles (writer : FileWriter (World κ)) (s : Sandbox) (w : World κ)
    (c : Settling κ) : ∃ hs result v, Settles writer s w c hs result v := by
  rcases c with ⟨meanwhile, _ | _⟩
  · obtain ⟨hs, result, v, hands⟩ := exists_hands writer s.outputDir s.queue (meanwhile w)
    exact ⟨hs, result, v, .commit hands⟩
  · exact ⟨_, _, _, .rollback⟩

theorem Settles.run_eq (hs : s.state = .pending) {handed : List (Handing κ)}
    (h : Settles writer s w c handed result v) :
    c.run writer (s, w) = (result, { s with
      state := c.how.state
      queue := []
      records := s.records ++ handed.filterMap fun x => (x.written writer).1.toOption }, v) := by
  cases h with
  | commit hands => simp only [run, Sandbox.commit, if_pos hs, hands.writeQueue_eq,
    Settlement.state]
  | rollback => simp only [run, Sandbox.rollback, if_pos hs, Settlement.state, List.filterMap_nil,
      List.append_nil]

theorem Settles.each_run (hs : s.state = .pending) {handed : List (Handing κ)}
    (h : Settles writer s w c handed result v) (later : List (Settling κ)) :
    Attempt.each ((c :: later).map (run writer)) (s, w) =
      (result :: later.map fun _ => .ok (), { s with
        state := c.how.state
        queue := []
        records := s.records ++ handed.filterMap fun x => (x.written writer).1.toOption },
        later.foldl (fun w c => c.meanwhile w) v) := by
  have hsettled : c.how.state ≠ .pending := by cases c.how <;> nofun
  rw [List.map_cons, Attempt.each_cons, h.run_eq hs]
  dsimp only
  rw [each_run_of_settled hsettled]

theorem Settles.log_eq {log : World κ → List (Path × ByteArray)} (hlog : writer.Logs log)
    (hc : ∀ w, log (c.meanwhile w) = log w) (h : Settles writer s w c hs result v) :
    log v = log w ++ hs.map fun x => (x.target, x.file.contents) := by
  cases h with
  | commit hands => rw [hands.log_eq hlog, ← hc w]
  | rollback => rw [List.map_nil, List.append_nil, ← hc w]

theorem log_foldl {log : World κ → List (Path × ByteArray)} {later : List (Settling κ)}
    (h : ∀ c ∈ later, ∀ w, log (c.meanwhile w) = log w) (w : World κ) :
    log (later.foldl (fun w c => c.meanwhile w) w) = log w := by
  induction later generalizing w with
  | nil => rfl
  | cons c later ih =>
    rw [List.foldl_cons, ih (fun x hx => h x (List.mem_cons_of_mem c hx)), h c List.mem_cons_self]

end Settling

/-- **A sandbox is settled once.** What a new sandbox accepts is queued in order, with the numbers
from 0 on, and what it does not accept changes nothing. Of the calls that settle it, the first alone
has an effect, and the others succeed. A commit hands the queue to the writer, up to the first file
that is refused or fails, and the records are of the files that were written; a rollback hands
nothing to it. The writer is called for nothing else. -/
theorem settles_once {d : Disk} {dir : Path} {hasScratch : Bool} {fresh : Sandbox}
    (hnew : Sandbox.new d dir hasScratch = .ok fresh) (gs : List Staging)
    (writer : FileWriter (World κ)) (first : Settling κ) (later : List (Settling κ))
    (w : World κ) :
    let staged := Attempt.each (gs.map Staging.run) fresh
    let s := staged.2
    let settled := Attempt.each ((first :: later).map (Settling.run writer)) (s, w)
    let accepted := Staging.accepted fresh.outputDir gs
    (staged.1 = gs.map (Staging.target fresh.outputDir) ∧
      s = ⟨fresh.outputDir, hasScratch, .pending, Staging.numbered 0 accepted, accepted.length,
        []⟩ ∧
      ∀ (g : Staging) (t : Sandbox) (f : Failure), (g.run t).1 = .error f → (g.run t).2 = t) ∧
    ∃ hs result v, first.Settles writer s w hs result v ∧
      settled = (result :: later.map fun _ => .ok (), { s with
        state := first.how.state
        queue := []
        records := hs.filterMap fun x => (x.written writer).1.toOption },
        later.foldl (fun w c => c.meanwhile w) v) ∧
      (first.how = .commit → Stops writer s.outputDir s.queue hs v result) ∧
      (first.how = .rollback → hs = []) ∧
      ∀ log, writer.Logs log → (∀ c ∈ first :: later, ∀ w, log (c.meanwhile w) = log w) →
        log settled.2.2 = log w ++ hs.map fun x => (x.target, x.file.contents) := by
  intro staged s settled accepted
  have hfresh := eq_of_new hnew
  have hpending : fresh.state = .pending := by rw [hfresh]
  have hstaged : staged = _ := Staging.each_run hpending gs
  have hs : s = ⟨fresh.outputDir, hasScratch, .pending, Staging.numbered 0 accepted,
      accepted.length, []⟩ := by
    have hs := congrArg Prod.snd hstaged
    rw [hfresh] at hs
    simpa using hs
  refine ⟨⟨congrArg Prod.fst hstaged, hs, fun g t f => Staging.run_of_error⟩, ?_⟩
  obtain ⟨handed, result, v, hsettles⟩ := Settling.exists_settles writer s w first
  have hstate : s.state = .pending := by rw [hs]
  have hrecords : s.records = [] := by rw [hs]
  have hsettled := hsettles.each_run hstate later
  rw [hrecords, List.nil_append] at hsettled
  refine ⟨handed, result, v, hsettles, hsettled, ?_, ?_, fun log hlog hkeep => ?_⟩
  · intro hhow
    cases hsettles with
    | commit hands => exact hands.stops
    | rollback => cases hhow
  · intro hhow
    cases hsettles with
    | commit hands => cases hhow
    | rollback => rfl
  · have hleft : settled.2.2 = _ := congrArg (fun r => r.2.2) hsettled
    rw [hleft, Settling.log_foldl fun c hc => hkeep c (List.mem_cons_of_mem first hc),
      hsettles.log_eq hlog (hkeep first List.mem_cons_self)]

/-- A file is queued and committed, and then neither dropped nor written again. -/
theorem settles_once_nested :
    let w : World (List Path) := ⟨Disk.bare, [], [], []⟩
    let gs : List Staging := [⟨Disk.bare, "a", (nested 1).path, ⟨#[1]⟩⟩]
    let calls : List (Settling (List Path)) := [⟨id, .commit⟩, ⟨id, .rollback⟩, ⟨id, .commit⟩]
    Sandbox.new Disk.bare (Place.path ["out"]) false = .ok (bare false) ∧
      Attempt.each (gs.map Staging.run) (bare false) = ([.ok (nested 1).path], nestedFile 1) ∧
      Attempt.each (calls.map (Settling.run keeper)) (nestedFile 1, w) =
        ([.ok (), .ok (), .ok ()],
          { nestedFile 1 with
            state := .committed
            queue := []
            records := [⟨(nested 1).path, .skipped, "", none⟩] },
          { w with client := [(nested 1).path] }) := by
  intro w gs calls
  have hstaged : Attempt.each (gs.map Staging.run) (bare false) =
      ([.ok (nested 1).path], nestedFile 1) := by
    have hrun : Staging.run ⟨Disk.bare, "a", (nested 1).path, ⟨#[1]⟩⟩ (bare false) = _ :=
      stage_nested (n := 1) (by decide)
    rw [List.map_singleton, Attempt.each_cons, Attempt.each_nil, hrun]
  have hrecheck : recheck w.disk (Place.path ["out"]) (nested 1).path = .ok (nested 1).path :=
    recheck_path (named_nested 1) (straight_nested 1).clear
      (Place.compose_path (composed_nested 1)) (Place.compose_path (composed_nested 0))
      (isPrefix_nested 1) (by decide)
  obtain ⟨x, -, htarget, -, hsingle⟩ := hands_nestedFile hrecheck
  obtain ⟨-, hs, result, v, hsettles, hsettled, -⟩ :=
    settles_once (new_bare false) gs keeper ⟨id, .commit⟩ [⟨id, .rollback⟩, ⟨id, .commit⟩] w
  rw [hstaged] at hsettles hsettled
  refine ⟨new_bare false, hstaged, hsettled.trans ?_⟩
  cases hsettles with
  | commit hands =>
    obtain ⟨rfl, rfl, rfl⟩ := hands.unique hsingle
    rw [← htarget]
    rfl

end Sandbox

end StagedCodegen
