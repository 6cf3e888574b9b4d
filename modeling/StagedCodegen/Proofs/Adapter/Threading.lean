import StagedCodegen.Adapter
import StagedCodegen.Proofs.Adapter.Settling
import StagedCodegen.Proofs.Run.Exchanges

/-!
# What adapters see of each other

Adapters take turns (`Turn`). Each gets a snapshot of the artifact that those before it have left
and leaves that artifact with the data that it has submitted last. What it changes in its snapshot,
and what it submits in a form that cannot be read, changes neither the world nor the sandbox nor the
artifact (`Turn.Happens`), so nobody else can see it. If an adapter fails, its turn is the last, and
what all of them have queued is dropped.

Main statement: `adapters_thread`.
-/

namespace StagedCodegen

open StagedCodegen.Representation

variable {κ : Type}

/-! ## What requests do -/

namespace AdapterRequest

/-- What a request makes of the snapshot of its adapter. -/
def edited : AdapterRequest κ → Snapshot → Snapshot
  | .edit change, s => change s
  | _, s => s

/-- The snapshot that a request submits, if it has a form that can be read. -/
def submission? : AdapterRequest κ → Option Snapshot
  | .submit s => if s.version = snapshotVersion then some s else none
  | _ => none

/-- What a request of the adapter of this name makes of what it shares with the others. -/
def effect (name : String) : AdapterRequest κ → World κ × Sandbox → World κ × Sandbox
  | .outside change, (w, sb) => (change w, sb)
  | .queue path contents, (w, sb) => (w, (sb.stage w.disk name path contents).2)
  | _, x => x

/-- Nobody else can tell whether the request was made: it changes nothing but the snapshot of its
adapter, or it submits what cannot be read. -/
def isPrivate : AdapterRequest κ → Bool
  | .look | .edit _ => true
  | .submit s => s.version != snapshotVersion
  | .outside _ | .queue _ _ => false

/-- What the adapter of this name gets to a request: it sees its snapshot and the world, and hears
whether what it has submitted can be read and what it has queued is accepted. -/
def Gets (name : String) (s : Snapshot) (y : World κ × Sandbox) :
    (r : AdapterRequest κ) → r.Answer → Prop
  | .outside change, w => w = change y.1
  | .look, seen => seen = s
  | .edit _, _ => True
  | .submit next, result => result =
      if next.version = snapshotVersion then .ok ()
      else .error (.snapshotVersion snapshotVersion next.version)
  | .queue path contents, result => result = (y.2.stage y.1.disk name path contents).1

/-- Adapters queue files and do not settle the sandbox. -/
theorem state_effect (name : String) (r : AdapterRequest κ) (y : World κ × Sandbox) :
    (r.effect name y).2.state = y.2.state := by
  obtain ⟨w, sb⟩ := y
  cases r with
  | outside | look | edit | submit => rfl
  | queue path contents =>
    rw [effect]
    rcases sb.stage_cases w.disk name path contents with hsame | ⟨target, -, -, hstage⟩
    · rw [hsame]
    · rw [hstage]

theorem submission?_of_isPrivate {r : AdapterRequest κ} (h : r.isPrivate = true) :
    r.submission? = none := by
  cases r with
  | submit s =>
    rw [submission?, if_neg]
    exact bne_iff_ne.1 h
  | outside | look | edit | queue => rfl

theorem effect_of_isPrivate {r : AdapterRequest κ} (h : r.isPrivate = true) (name : String)
    (y : World κ × Sandbox) : r.effect name y = y := by
  cases r with
  | look | edit | submit => rfl
  | outside | queue => cases h

theorem version_of_submission? {r : AdapterRequest κ} {s : Snapshot}
    (h : r.submission? = some s) : s.version = snapshotVersion := by
  cases r with
  | submit next =>
    rw [submission?] at h
    split at h
    · next hversion =>
      cases h
      exact hversion
    · cases h
  | outside | look | edit | queue => cases h

end AdapterRequest

/-- What an adapter has asked for, with the answers that it has got. -/
abbrev AdapterExchanges (κ : Type) := List (Exchange (adapterInterface κ))

namespace AdapterExchanges

/-- What the requests make of the snapshot of their adapter. -/
def edited (xs : AdapterExchanges κ) (s : Snapshot) : Snapshot :=
  xs.foldl (fun s x => AdapterRequest.edited x.request s) s

/-- The snapshot that was submitted last, of those that can be read. -/
def submission? (xs : AdapterExchanges κ) : Option Snapshot :=
  (xs.filterMap fun x => AdapterRequest.submission? x.request).getLast?

/-- What the requests of the adapter of this name make of what it shares with the others. -/
def effect (name : String) (xs : AdapterExchanges κ) (y : World κ × Sandbox) : World κ × Sandbox :=
  xs.foldl (fun y x => AdapterRequest.effect name x.request y) y

/-- The requests that others can tell of. -/
def shared (xs : AdapterExchanges κ) : AdapterExchanges κ :=
  xs.filter fun x => !AdapterRequest.isPrivate x.request

/-- What was submitted last is among the requests that others can tell of. -/
theorem submission?_shared (xs : AdapterExchanges κ) :
    submission? (shared xs) = submission? xs := by
  rw [submission?, submission?, shared, List.filterMap_filter]
  congr 2
  funext x
  cases hprivate : AdapterRequest.isPrivate x.request with
  | false => rfl
  | true => exact (AdapterRequest.submission?_of_isPrivate hprivate).symm

/-- The others change nothing but what their adapter sees itself. -/
theorem effect_shared (name : String) (xs : AdapterExchanges κ) (y : World κ × Sandbox) :
    effect name (shared xs) y = effect name xs y := by
  induction xs generalizing y with
  | nil => rfl
  | cons x xs ih =>
    rw [shared, List.filter_cons]
    cases hprivate : AdapterRequest.isPrivate x.request with
    | false => exact ih _
    | true =>
      have hx := AdapterRequest.effect_of_isPrivate hprivate name y
      exact (ih y).trans (congrArg (effect name xs) hx.symm)

theorem state_effect (name : String) (xs : AdapterExchanges κ) (y : World κ × Sandbox) :
    (effect name xs y).2.state = y.2.state := by
  induction xs generalizing y with
  | nil => rfl
  | cons x xs ih => exact (ih _).trans (AdapterRequest.state_effect name x.request y)

theorem submission?_cons (x : Exchange (adapterInterface κ)) (xs : AdapterExchanges κ) :
    submission? (x :: xs) = (submission? xs).or (AdapterRequest.submission? x.request) := by
  rw [submission?, List.filterMap_cons]
  cases AdapterRequest.submission? x.request with
  | none => rw [Option.or_none]; rfl
  | some s =>
    rw [List.getLast?_cons]
    change some ((submission? xs).getD s) = _
    cases submission? xs <;> rfl

theorem version_of_submission? {xs : AdapterExchanges κ} {s : Snapshot}
    (h : xs.submission? = some s) : s.version = snapshotVersion := by
  obtain ⟨x, -, hx⟩ := List.mem_filterMap.1 (List.mem_of_getLast? h)
  exact AdapterRequest.version_of_submission? hx

end AdapterExchanges

/-! ## The state of an adapter -/

section Serve

-- staging resolves paths, which must not be computed
attribute [local irreducible] Sandbox.stage

theorem AdapterState.serve_snd (name : String) (r : AdapterRequest κ) (t : AdapterState κ) :
    (serve name r t).2 = {
      world := (r.effect name (t.world, t.sandbox)).1
      snapshot := r.edited t.snapshot
      submitted := r.submission?.or t.submitted
      sandbox := (r.effect name (t.world, t.sandbox)).2 } := by
  cases r with
  | outside | look | edit | queue => rfl
  | submit next =>
    rw [serve, AdapterRequest.submission?]
    split <;> rfl

theorem AdapterState.gets_serve (name : String) (r : AdapterRequest κ) (t : AdapterState κ) :
    r.Gets name t.snapshot (t.world, t.sandbox) (serve name r t).1 := by
  cases r with
  | outside | look | queue => rfl
  | edit => trivial
  | submit next =>
    rw [serve, AdapterRequest.Gets]
    split
    · next hversion => exact (if_pos hversion).symm
    · next hversion => exact (if_neg hversion).symm

theorem AdapterState.eq_of_served {name : String} {xs : AdapterExchanges κ} {t u : AdapterState κ}
    (h : InTurn (Exchange.Served (serve name)) xs t u) : u = {
      world := (xs.effect name (t.world, t.sandbox)).1
      snapshot := xs.edited t.snapshot
      submitted := xs.submission?.or t.submitted
      sandbox := (xs.effect name (t.world, t.sandbox)).2 } := by
  induction h with
  | nil => rfl
  | @cons x rest t v u first others ih =>
    have hv : v = _ := (congrArg Prod.snd first).symm.trans (serve_snd name x.request t)
    rw [ih, hv, AdapterExchanges.submission?_cons, Option.or_assoc]
    rfl

end Serve

/-! ## One turn -/

/-- What an adapter of this name knows. -/
def AdapterOptions.view (o : AdapterOptions) (name : String) (sb : Sandbox) : AdapterView where
  name := name
  outputDir := sb.outputDir
  configDirectory := o.configDirectory
  hasScratch := sb.hasScratch
  formatters := o.formatters
  scope := Scope.child o.scope name

/-- What an adapter does when its turn has come. -/
structure Turn (κ : Type) where
  /-- The adapter. -/
  adapter : Adapter κ
  /-- The artifact that those before it have left. -/
  given : Artifact
  /-- What it asks for, with the answers that it gets. -/
  exchanges : AdapterExchanges κ
  /-- How it ends. -/
  outcome : Except Report Unit

namespace Turn

/-- The artifact that the adapter leaves: the one that it was given, with the data of the snapshot
that it has submitted last. -/
def left (t : Turn κ) : Artifact :=
  match t.exchanges.submission? with
  | none => t.given
  | some s => t.given.withData s.data

/-- The turn leads from one world and sandbox to others. -/
structure Happens (o : AdapterOptions) (t : Turn κ) (x y : World κ × Sandbox) : Prop where
  /-- With these answers, the adapter asks for this and ends like this. -/
  answered : Program.Answered (I := adapterInterface κ)
    (t.adapter.behaviour (o.view t.adapter.name x.2)).run t.exchanges t.outcome
  /-- It gets these answers: of the artifact it sees the data and the names of the attachments, with
  its own changes. -/
  gets : ∀ before e after, t.exchanges = before ++ e :: after →
    AdapterRequest.Gets t.adapter.name
      (AdapterExchanges.edited before ⟨snapshotVersion, t.given.data, t.given.attachments.keys⟩)
      (AdapterExchanges.effect t.adapter.name before x) e.request e.answer
  /-- This is what it leaves. -/
  leaves : y = t.exchanges.effect t.adapter.name x

end Turn

/-- To run an adapter is to let it have its turn. -/
theorem exists_turn (o : AdapterOptions) (adapter : Adapter κ) (a : Artifact) (sb : Sandbox)
    (w : World κ) : ∃ (t : Turn κ) (y : World κ × Sandbox), t.adapter = adapter ∧ t.given = a ∧
      t.Happens o (w, sb) y ∧
      runAdapter o adapter a sb w =
        (match t.outcome with
          | .ok () => .ok t.left
          | .error r => .error r.normalize, y.2, y.1) := by
  rcases hrun : Program.run (I := adapterInterface κ) (AdapterState.serve adapter.name)
    (adapter.behaviour (o.view adapter.name sb)).run ⟨w, a.snapshot, none, sb⟩ with ⟨outcome, u⟩
  obtain ⟨xs, hanswered, hserved⟩ := Program.run_eq_iff.1 hrun
  have hu := AdapterState.eq_of_served hserved
  rw [Option.or_none] at hu
  refine ⟨⟨adapter, a, xs, outcome⟩, _, rfl, rfl,
    ⟨hanswered, fun before e after hxs => ?_, rfl⟩, ?_⟩
  · obtain ⟨v, hbefore, hanswer⟩ := exists_answer_of_served hserved hxs
    rw [hanswer, AdapterState.eq_of_served hbefore]
    exact AdapterState.gets_serve _ _ _
  · unfold runAdapter
    extract_lets v program
    have hprogram : program.run (AdapterState.serve adapter.name) ⟨w, a.snapshot, none, sb⟩ =
      (outcome, u) := hrun
    rw [hprogram, hu]
    rcases outcome with r | ⟨⟩
    · rfl
    · simp only [Turn.left]
      cases hsubmitted : AdapterExchanges.submission? xs with
      | none => rfl
      | some s =>
        have hversion := AdapterExchanges.version_of_submission? hsubmitted
        simp only [Artifact.applySnapshot, if_pos hversion]

/-! ## Turns one after another -/

namespace Turn

variable {o : AdapterOptions} {t : Turn κ} {turns : List (Turn κ)} {r : Report}
  {x y : Artifact × World κ × Sandbox}

/-- The adapter succeeds. The next gets the artifact that it leaves. -/
structure Succeeds (o : AdapterOptions) (t : Turn κ) (x y : Artifact × World κ × Sandbox) :
    Prop where
  given : t.given = x.1
  happens : t.Happens o x.2 y.2
  outcome : t.outcome = .ok ()
  left : y.1 = t.left

/-- The adapter fails with a report. -/
structure Fails (o : AdapterOptions) (t : Turn κ) (x : Artifact × World κ × Sandbox) (r : Report)
    (y : World κ × Sandbox) : Prop where
  given : t.given = x.1
  happens : t.Happens o x.2 y
  outcome : t.outcome = .error r

theorem attachments_left (t : Turn κ) : t.left.attachments = t.given.attachments := by
  unfold left
  split <;> rfl

/-- All adapters have the attachments of the first. -/
theorem attachments_eq (h : InTurn (Succeeds o) turns x y) :
    y.1.attachments = x.1.attachments ∧
      ∀ t ∈ turns, t.given.attachments = x.1.attachments := by
  induction h with
  | nil => exact ⟨rfl, fun _ ht => absurd ht List.not_mem_nil⟩
  | @cons t rest x y z first others ih =>
    have hgiven : t.given.attachments = x.1.attachments := by rw [first.given]
    have hleft : y.1.attachments = x.1.attachments := by
      rw [first.left, t.attachments_left, hgiven]
    rw [hleft] at ih
    exact ⟨ih.1, List.forall_mem_cons.2 ⟨hgiven, ih.2⟩⟩

/-- Adapters that succeed leave a sandbox that takes files, if they get one. -/
theorem state_eq (h : InTurn (Succeeds o) turns x y) : y.2.2.state = x.2.2.state := by
  induction h with
  | nil => rfl
  | cons first others ih =>
    rw [ih, first.happens.leaves, AdapterExchanges.state_effect]

end Turn

/-- Either all adapters succeed in turn or there is a first that fails, and then those after it do
not count. -/
theorem runInSandbox_cases (o : AdapterOptions) (adapters : List (Adapter κ)) (a : Artifact)
    (sb : Sandbox) (w : World κ) :
    (∃ (turns : List (Turn κ)) (b : Artifact) (v : World κ) (u : Sandbox),
      turns.map (·.adapter) = adapters ∧
      InTurn (Turn.Succeeds o) turns (a, w, sb) (b, v, u) ∧
      runInSandbox o adapters a sb w = (.ok b, u, v)) ∨
    ∃ (turns : List (Turn κ)) (t : Turn κ) (later : List (Adapter κ))
      (x : Artifact × World κ × Sandbox) (r : Report) (y : World κ × Sandbox),
      turns.map (·.adapter) ++ t.adapter :: later = adapters ∧
      InTurn (Turn.Succeeds o) turns (a, w, sb) x ∧ t.Fails o x r y ∧
      ∀ others, runInSandbox o (turns.map (·.adapter) ++ t.adapter :: others) a sb w =
        (.error r.normalize, y.2.rollback,
          y.1.report (Scope.child o.scope t.adapter.name) r.normalize) := by
  induction adapters generalizing a sb w with
  | nil => exact .inl ⟨[], a, w, sb, rfl, .nil, rfl⟩
  | cons adapter rest ih =>
    obtain ⟨t, ⟨v, u⟩, rfl, rfl, hhappens, hrun⟩ := exists_turn o adapter a sb w
    rcases houtcome : t.outcome with r | ⟨⟩
    · refine .inr ⟨[], t, rest, _, r, (v, u), rfl, .nil, ⟨rfl, hhappens, houtcome⟩,
        fun others => ?_⟩
      rw [List.map_nil, List.nil_append, runInSandbox, hrun, houtcome]
    · have hsucceeds : t.Succeeds o (t.given, w, sb) (t.left, v, u) :=
        ⟨rfl, hhappens, houtcome, rfl⟩
      have hnext : ∀ others, runInSandbox o (t.adapter :: others) t.given sb w =
          runInSandbox o others t.left u v := fun others => by
        rw [runInSandbox, hrun, houtcome]
      rcases ih t.left u v with ⟨turns, b, v', u', rfl, hturns, hresult⟩ |
        ⟨turns, t', later, x, r, y, rfl, hturns, hfails, hresult⟩
      · exact .inl ⟨t :: turns, b, v', u', rfl, .cons hsucceeds hturns,
          (hnext _).trans hresult⟩
      · exact .inr ⟨t :: turns, t', later, x, r, y, rfl, .cons hsucceeds hturns, hfails,
          fun others => (hnext _).trans (hresult others)⟩

/-! ## Adapters that factories make -/

/-- The adapter, without blanks around its name. -/
def Adapter.trimmed (x : Adapter κ) : Adapter κ := { x with name := Text.trim x.name }

/-- The factory makes these adapters. -/
def AdapterFactory.Makes (a : Artifact) (s : Settings)
    (made : AdapterFactory κ × List (Adapter κ)) (v w : World κ) : Prop :=
  made.1 a s v = (.ok made.2, w)

theorem eq_of_acceptAdapters {i : Nat} {seen : List String} {produced accepted : List (Adapter κ)}
    (h : acceptAdapters i seen produced = .ok accepted) :
    accepted = produced.map Adapter.trimmed := by
  induction produced generalizing seen accepted with
  | nil =>
    cases h
    rfl
  | cons x rest ih =>
    rw [acceptAdapters] at h
    split at h
    · cases h
    split at h
    · cases h
    split at h
    · cases h
    · next others hrest =>
      cases h
      rw [ih hrest]
      rfl

theorem made_of_collectAdaptersFrom {a : Artifact} {s : Settings} {i : Nat}
    {before adapters : List (Adapter κ)} {factories : List (AdapterFactory κ)} {v w : World κ}
    (h : collectAdaptersFrom a s i before factories v = (.ok adapters, w)) :
    ∃ made, made.map (·.1) = factories ∧ InTurn (AdapterFactory.Makes a s) made v w ∧
      adapters = before ++ (made.flatMap (·.2)).map Adapter.trimmed := by
  induction factories generalizing i before v with
  | nil =>
    cases h
    exact ⟨[], rfl, .nil, (List.append_nil _).symm⟩
  | cons factory rest ih =>
    rcases hmake : factory a s v with ⟨r | produced, x⟩
    · simp only [collectAdaptersFrom, hmake] at h
      cases h
    · rcases haccept : acceptAdapters i (before.map (·.name)) produced with f | accepted
      · simp only [collectAdaptersFrom, hmake, haccept] at h
        cases h
      · simp only [collectAdaptersFrom, hmake, haccept] at h
        obtain ⟨made, rfl, hmade, rfl⟩ := ih h
        refine ⟨(factory, produced) :: made, rfl, .cons hmake hmade, ?_⟩
        rw [eq_of_acceptAdapters haccept, List.flatMap_cons, List.map_append, List.append_assoc]

/-! ## All adapters of a run -/

-- a sandbox is made by resolving a path, which must not be computed
attribute [local irreducible] Sandbox.new

/-- **What adapters see of each other.** Adapters take turns. Each is given the artifact that those
before it have left and sees a snapshot of it; it leaves that artifact with the data that it has
submitted last, in a form that can be read, and with all its attachments. Its other changes of the
snapshot, and what it submits in another form, lead nowhere. The last artifact is that of the run.
If an adapter fails, so does the run, with one diagnostic in the scope of that adapter; the adapters
after it do not run, and what was queued is dropped, whatever is asked of the sandbox later. -/
theorem adapters_thread {o : AdapterOptions} {factories : List (AdapterFactory κ)} {a : Artifact}
    {s : Settings} {w w₀ : World κ} {adapters : List (Adapter κ)} {sb₀ : Sandbox}
    (hcollect : collectAdapters a s factories w = (.ok adapters, w₀))
    (hnew : Sandbox.new w₀.disk o.outputDir (!adapters.isEmpty) = .ok sb₀) :
    (∃ made, made.map (·.1) = factories ∧ InTurn (AdapterFactory.Makes a s) made w w₀ ∧
      adapters = (made.flatMap (·.2)).map Adapter.trimmed) ∧
    (∀ (name : String) (xs : AdapterExchanges κ) (y : World κ × Sandbox),
      xs.shared.submission? = xs.submission? ∧ xs.shared.effect name y = xs.effect name y) ∧
    ((∃ (turns : List (Turn κ)) (b : Artifact) (v : World κ) (sb : Sandbox),
      turns.map (·.adapter) = adapters ∧
      InTurn (Turn.Succeeds o) turns (a, w₀, sb₀) (b, v, sb) ∧
      (b.attachments = a.attachments ∧ ∀ t ∈ turns, t.given.attachments = a.attachments) ∧
      runAdapters o factories a s w = (.ok (b, sb), v)) ∨
    ∃ (turns : List (Turn κ)) (t : Turn κ) (later : List (Adapter κ))
      (x : Artifact × World κ × Sandbox) (r : Report) (y : World κ × Sandbox),
      turns.map (·.adapter) ++ t.adapter :: later = adapters ∧
      InTurn (Turn.Succeeds o) turns (a, w₀, sb₀) x ∧ t.Fails o x r y ∧
      (∀ u ∈ turns ++ [t], u.given.attachments = a.attachments) ∧
      let said : World κ := { y.1 with
        diagnostics := y.1.diagnostics ++
          [.ofFailure (Scope.child o.scope t.adapter.name) r.normalize] }
      let left := y.2.rollback
      runAdapters o factories a s w = (.error r.normalize, said) ∧
      (∀ others, runInSandbox o (turns.map (·.adapter) ++ t.adapter :: others) a sb₀ w₀ =
        (.error r.normalize, left, said)) ∧
      left.state = .rolledBack ∧ left.queue = [] ∧
      ∀ (writer : FileWriter (World κ)) (calls : List (Sandbox.Settling κ)) (v : World κ),
        Attempt.each (calls.map (Sandbox.Settling.run writer)) (left, v) =
          (calls.map fun _ => .ok (), left, calls.foldl (fun v c => c.meanwhile v) v)) := by
  refine ⟨made_of_collectAdaptersFrom hcollect, fun name xs y =>
    ⟨xs.submission?_shared, xs.effect_shared name y⟩, ?_⟩
  rcases runInSandbox_cases o adapters a sb₀ w₀ with
    ⟨turns, b, v, sb, rfl, hturns, hrun⟩ |
    ⟨turns, t, later, x, r, y, rfl, hturns, hfails, hrun⟩
  · refine .inl ⟨turns, b, v, sb, rfl, hturns, Turn.attachments_eq hturns, ?_⟩
    simp only [runAdapters, hcollect, hnew, hrun]
  · obtain ⟨hx, hall⟩ := Turn.attachments_eq hturns
    have hpending : y.2.state = .pending := by
      rw [hfails.happens.leaves, AdapterExchanges.state_effect, Turn.state_eq hturns]
      rw [Sandbox.eq_of_new hnew]
    have hleft : y.2.rollback = { y.2 with state := .rolledBack, queue := [] } := by
      rw [Sandbox.rollback, if_pos hpending]
    refine .inr ⟨turns, t, later, x, r, y, rfl, hturns, hfails, ?_, ?_, hrun, ?_, ?_, ?_⟩
    · refine List.forall_mem_append.2 ⟨hall, List.forall_mem_singleton.2 ?_⟩
      rw [hfails.given, hx]
    · simp only [runAdapters, hcollect, hnew, hrun]
      rfl
    · rw [hleft]
    · rw [hleft]
    · refine fun writer calls v => Sandbox.Settling.each_run_of_settled ?_ calls v
      rw [hleft]
      rintro ⟨⟩

/-- Data with a title. -/
def titled (title : String) : Data :=
  ⟨⟨title, "", "", "", ""⟩, ⟨.empty, []⟩, ⟨"", "", ""⟩, ⟨[]⟩, [], .empty⟩

/-- An adapter that submits a snapshot, changes it, and submits another that cannot be read. -/
def submitter : Adapter Unit where
  name := " a "
  behaviour _ := do
    let _ ← AdapterProgram.submit ⟨snapshotVersion, titled "b", []⟩
    AdapterProgram.edit fun s => { s with data := titled "c" }
    let _ ← AdapterProgram.submit ⟨snapshotVersion + 1, titled "d", []⟩

/-- The run leaves the artifact with the data that was submitted first. -/
theorem adapters_thread_submitter :
    let w : World Unit := ⟨Disk.bare, [], [], ()⟩
    let o : AdapterOptions := ⟨Place.path ["out"], Place.path [], .usual, "run"⟩
    let a : Artifact := ⟨titled "a", 0, .ofList [("key", .number 1)]⟩
    collectAdapters a .usual [fun _ _ => pure [submitter]] w = (.ok [submitter.trimmed], w) ∧
      Sandbox.new w.disk o.outputDir true = .ok (.bare true) ∧
      ∃ sb v, runAdapters o [fun _ _ => pure [submitter]] a .usual w =
        (.ok (a.withData (titled "b"), sb), v) := by
  intro w o a
  have hcollect : collectAdapters a .usual [fun _ _ => pure [submitter]] w =
      (.ok [submitter.trimmed], w) := by
    rfl
  refine ⟨hcollect, Sandbox.new_bare true, ?_⟩
  have hanswered : ∀ {v xs outcome}, Program.Answered (I := adapterInterface Unit)
      (submitter.trimmed.behaviour v).run xs outcome →
      AdapterExchanges.submission? xs = some ⟨snapshotVersion, titled "b", []⟩ ∧
        outcome = .ok () := by
    rintro v xs outcome h
    cases h with
    | ask h => cases h with
      | ask h => cases h with
        | ask h =>
          cases h
          exact ⟨rfl, rfl⟩
  obtain ⟨-, -, ⟨turns, b, v, sb, hadapters, hturns, -, hrun⟩ |
    ⟨turns, t, later, x, r, y, hadapters, hturns, hfails, -⟩⟩ :=
    adapters_thread (o := o) hcollect (Sandbox.new_bare true)
  · obtain ⟨t, rfl, ht⟩ := List.map_eq_singleton_iff.1 hadapters
    cases hturns with
    | cons first others =>
      cases others
      obtain ⟨hsubmitted, -⟩ := hanswered (ht ▸ first.happens.answered)
      have hleft : b = a.withData (titled "b") := by
        rw [show b = t.left from first.left, Turn.left, hsubmitted, first.given]
      exact ⟨sb, v, hleft ▸ hrun⟩
  · have ht : t.adapter = submitter.trimmed :=
      List.mem_singleton.1 (hadapters ▸ List.mem_append_right _ List.mem_cons_self)
    obtain ⟨-, houtcome⟩ := hanswered (ht ▸ hfails.happens.answered)
    cases houtcome.symm.trans hfails.outcome

end StagedCodegen
