import StagedCodegen.Proofs.Run.Course
import StagedCodegen.Proofs.Run.Exchanges
import StagedCodegen.Proofs.Run.FragmentPhase

/-!
# What a successful run tells

A `Chronicle` has what happens in a successful run: what each extension registers, which fragments
run, what each hook receives and leaves, and what each builder receives and asks for. The steps and
the writes of the result are read off it, and so is the artifact: it is the last that a hook has
left, or the finished one if none has left another, and every builder has received it.

Main statement: `Pipeline.run_chronicle`.
-/

namespace StagedCodegen

open StagedCodegen.Representation (Artifact Draft)

variable {κ : Type}

/-! ## Extensions -/

/-- An extension, and what it gives when it registers. -/
structure Registered (κ : Type) where
  /-- The extension. -/
  extension : Extension κ
  /-- Its hook, if it has one for the run. -/
  hook? : Option (Hook κ)

namespace Registered

/-- The extension gives this. -/
def Happens (o : RunOptions) (e : Registered κ) (v w : World κ) : Prop :=
  e.extension.register o v = (.ok e.hook?, w)

/-- The hook, with the key of the extension. -/
def keyed? (e : Registered κ) : Option (String × Hook κ) := e.hook?.map (e.extension.key, ·)

end Registered

theorem exists_registered {o : RunOptions} {i : Nat} {es : List (Extension κ)}
    {hooks : List (String × Hook κ)} {s t : Session κ}
    (h : collectHooksFrom o i es s = (.ok hooks, t)) :
    ∃ registered : List (Registered κ), registered.map (·.extension) = es ∧
      hooks = registered.filterMap Registered.keyed? ∧
      InTurn (Registered.Happens o) registered s.world t.world ∧ t.steps = s.steps := by
  induction es generalizing i hooks s with
  | nil =>
    cases h
    exact ⟨[], rfl, rfl, .nil, rfl⟩
  | cons e es ih =>
    obtain ⟨hook, u, hregister, h⟩ := Attempt.bind_eq_ok.1 h
    obtain ⟨others, v, hothers, h⟩ := Attempt.bind_eq_ok.1 h
    have hlast : v = t ∧ hooks = (hook.map (e.key, ·)).toList ++ others := by
      cases hook <;> cases h <;> exact ⟨rfl, rfl⟩
    obtain ⟨rfl, rfl⟩ := hlast
    obtain ⟨registered, rfl, rfl, hturn, hsteps⟩ := ih hothers
    refine ⟨⟨e, hook⟩ :: registered, rfl, ?_, .cons (Session.world_of_call hregister) hturn,
      hsteps.trans (Session.steps_of_call hregister)⟩
    cases hook <;> rfl

/-! ## Fragments -/

theorem steps_of_passed {o : RunOptions} {fs : List (FragmentEntry × FragmentBehaviour κ)}
    {is : List Nat} {x y : Draft × Session κ} (h : InTurn (FragmentPasses o fs) is x y) :
    y.2.steps = x.2.steps ++ (keysAt (fs.map (·.1)) is).map (⟨.fragment, ·⟩) := by
  induction h with
  | nil => exact (List.append_nil _).symm
  | @cons i rest x y z first others ih =>
    obtain ⟨e, w, d, he, -, rfl⟩ := first
    rw [ih, keysAt_cons (entry_of_fragment he)]
    simp [Session.completed]

theorem FragmentPhase.steps_eq {β : Type} {r : Registry (FragmentBehaviour κ) β}
    {families : List String} {o : RunOptions} {s t : Session κ} {ran : List Nat} {a : Artifact}
    (h : FragmentPhase r families o s ran (.ok a) t) :
    t.steps = s.steps ++ (keysAt r.fragmentEntries ran).map (⟨.fragment, ·⟩) := by
  generalize hresult : (.ok a : Except Failure Artifact) = result at h
  cases h with
  | unscheduled fails => cases hresult
  | failed scheduled order passed entry fails => cases hresult
  | @stopped _ before _ i e _ _ _ _ t _ scheduled order passed entry stops judged =>
    have hlast : keysAt r.fragmentEntries [i] = [e.1.key] :=
      keysAt_cons (entry_of_fragment entry) []
    have ht : t.steps = s.steps ++ (keysAt r.fragmentEntries before).map (⟨.fragment, ·⟩) :=
      steps_of_passed passed
    rw [keysAt_append, hlast]
    simp [Session.stopped, Session.completed, ht]
  | completed scheduled passed => exact steps_of_passed passed

/-! ## Hooks -/

/-- A hook that has run. -/
structure Hooked (κ : Type) where
  /-- The key of its extension. -/
  key : String
  /-- The hook. -/
  hook : Hook κ
  /-- The artifact that it receives. -/
  received : Artifact
  /-- What it leaves. -/
  outcome : HookOutcome κ

namespace Hooked

/-- The hook receives this and leaves that. -/
def Happens (o : RunOptions) (h : Hooked κ) (v w : World κ) : Prop :=
  h.hook ⟨o, h.key, Scope.child o.scope h.key⟩ h.received v = (.ok h.outcome, w)

/-- The artifact that was replaced last, or the given one if none was. -/
def last (a : Artifact) (hs : List (Hooked κ)) : Artifact :=
  (hs.filterMap (·.outcome.artifact)).getLast?.getD a

/-- What hooks have begun, each under the key of its extension. -/
def begun (hs : List (Hooked κ)) : Ledger κ :=
  hs.filterMap fun h => h.outcome.transaction.map (h.key, ·)

theorem last_cons (a : Artifact) (h : Hooked κ) (hs : List (Hooked κ)) :
    last a (h :: hs) = last (h.outcome.artifact.getD a) hs := by
  rw [last, last, List.filterMap_cons]
  cases h.outcome.artifact with
  | none => rfl
  | some b => rw [List.getLast?_cons]; rfl

theorem begun_cons (h : Hooked κ) (hs : List (Hooked κ)) :
    begun (h :: hs) = (h.outcome.transaction.map (h.key, ·)).toList ++ begun hs := by
  rw [begun, begun, List.filterMap_cons]
  cases h.outcome.transaction <;> rfl

end Hooked

theorem exists_hooked {o : RunOptions} {i : Nat} {hooks : List (String × Hook κ)} {a b : Artifact}
    {l m : Ledger κ} {s t : Session κ}
    (h : InTurn (HookSucceeds o) (hooks.zipIdx i) ((a, l), s) ((b, m), t)) :
    ∃ hooked : List (Hooked κ), hooked.map (fun h => (h.key, h.hook)) = hooks ∧
      InTurn (Hooked.Happens o) hooked s.world t.world ∧
      (∀ before h after, hooked = before ++ h :: after → h.received = Hooked.last a before) ∧
      b = Hooked.last a hooked ∧ m = l ++ Hooked.begun hooked ∧
      t.steps = s.steps ++ hooked.map (⟨.extension, ·.key⟩) := by
  induction hooks generalizing i a l s with
  | nil =>
    cases h
    exact ⟨[], rfl, .nil, by simp, rfl, (List.append_nil _).symm, (List.append_nil _).symm⟩
  | cons hook hooks ih =>
    obtain ⟨key, hook⟩ := hook
    cases h with
    | cons first others =>
      obtain ⟨outcome, u, hcall, rfl⟩ := first
      obtain ⟨hooked, rfl, hturn, hreceived, rfl, rfl, hsteps⟩ := ih others
      have hu : u.steps = s.steps := Session.steps_of_call hcall
      let x : Hooked κ := ⟨key, hook, a, outcome⟩
      refine ⟨x :: hooked, rfl, .cons (Session.world_of_call hcall) hturn, ?_,
        (Hooked.last_cons a x hooked).symm, ?_, ?_⟩
      · intro before h after hsplit
        rcases List.cons_eq_append_iff.1 hsplit with ⟨rfl, hcons⟩ | ⟨before, rfl, hrest⟩
        · cases hcons
          rfl
        · rw [Hooked.last_cons]
          exact hreceived before h after hrest
      · rw [Hooked.begun_cons, List.append_assoc]
      · rw [hsteps, Session.completed, hu]
        exact List.append_assoc ..

/-! ## Builders -/

namespace BuilderRequest

/-- What a request makes of the world. -/
def effect : BuilderRequest κ → World κ → World κ
  | .outside change, w => change w
  | .queue _ _, w => w

/-- The write that a request of the builder with this key queues. -/
def write? (key : String) : BuilderRequest κ → Option QueuedWrite
  | .outside _ => none
  | .queue path contents => some ⟨path, contents, key⟩

/-- What a builder gets to a request in this world. -/
def Gets (w : World κ) : (r : BuilderRequest κ) → r.Answer → Prop
  | .outside change, v => v = change w
  | .queue _ _, _ => True

end BuilderRequest

/-- What a builder has asked for, with the answers that it has got. -/
abbrev BuilderExchanges (κ : Type) := List (Exchange (builderInterface κ))

namespace BuilderExchanges

/-- What the requests make of the world. -/
def effect (xs : BuilderExchanges κ) (w : World κ) : World κ :=
  xs.foldl (fun w x => BuilderRequest.effect x.request w) w

/-- The writes that the requests of the builder with this key queue. -/
def writes (key : String) (xs : BuilderExchanges κ) : List QueuedWrite :=
  xs.filterMap fun x => BuilderRequest.write? key x.request

theorem eq_of_served {key : String} {xs : BuilderExchanges κ} {x y : World κ × List QueuedWrite}
    (h : InTurn (Exchange.Served (serveBuilder key)) xs x y) :
    y = (xs.effect x.1, x.2 ++ xs.writes key) := by
  induction h with
  | @nil x => rw [writes, List.filterMap_nil, List.append_nil]; rfl
  | @cons e rest x y z first others ih =>
    obtain ⟨r, answer⟩ := e
    have hy : y = (serveBuilder key r x).2 := (congrArg Prod.snd first).symm
    rw [ih, hy]
    cases r with
    | outside change => rfl
    | queue path contents => exact Prod.ext rfl (List.append_assoc ..)

end BuilderExchanges

/-- A builder that has run. -/
structure Built (κ : Type) where
  /-- The builder. -/
  builder : BuilderEntry × BuilderBehaviour κ
  /-- The artifact that it receives. -/
  received : Artifact
  /-- What it asks for, with the answers that it gets. -/
  exchanges : BuilderExchanges κ

namespace Built

/-- The writes that the builder queues, under its key. -/
def writes (b : Built κ) : List QueuedWrite := b.exchanges.writes b.builder.1.key

/-- The builder runs in one world and leaves another. -/
structure Happens (o : RunOptions) (b : Built κ) (v w : World κ) : Prop where
  /-- With these answers, the builder asks for this and succeeds. -/
  answered : Program.Answered (I := builderInterface κ)
    (b.builder.2 ⟨o, b.received, b.builder.1.key, Scope.child o.scope b.builder.1.key⟩).run
    b.exchanges (.ok ())
  /-- These are the answers that it gets. -/
  gets : ∀ before e after, b.exchanges = before ++ e :: after →
    BuilderRequest.Gets (BuilderExchanges.effect before v) e.request e.answer
  /-- This is what it leaves. -/
  leaves : w = b.exchanges.effect v

end Built

theorem exists_built_of_ends {o : RunOptions} {a : Artifact}
    {b : BuilderEntry × BuilderBehaviour κ} {queue queue' : List QueuedWrite} {v w : World κ}
    (h : BuilderEnds o a b (v, queue) (.ok ()) (w, queue')) :
    ∃ x : Built κ, x.builder = b ∧ x.received = a ∧ x.Happens o v w ∧
      queue' = queue ++ x.writes := by
  obtain ⟨xs, hanswered, hserved⟩ := h
  obtain ⟨rfl, rfl⟩ := Prod.mk.inj (BuilderExchanges.eq_of_served hserved)
  refine ⟨⟨b, a, xs⟩, rfl, rfl, ⟨hanswered, fun before e after hxs => ?_, rfl⟩, rfl⟩
  obtain ⟨u, hbefore, hanswer⟩ := exists_answer_of_served hserved hxs
  obtain rfl := BuilderExchanges.eq_of_served hbefore
  obtain ⟨r, answer⟩ := e
  cases r with
  | outside change => exact hanswer
  | queue path contents => trivial

theorem exists_built {o : RunOptions} {a : Artifact}
    {bs : List (BuilderEntry × BuilderBehaviour κ)} {is : List Nat}
    {x y : List QueuedWrite × Session κ} (h : InTurn (BuilderSucceeds o a bs) is x y) :
    ∃ built : List (Built κ), built.map (fun b => some b.builder) = is.map (bs[·]?) ∧
      (∀ b ∈ built, b.received = a) ∧ InTurn (Built.Happens o) built x.2.world y.2.world ∧
      y.1 = x.1 ++ built.flatMap Built.writes ∧
      y.2.steps = x.2.steps ++ built.map (⟨.builder, ·.builder.1.key⟩) := by
  induction h with
  | nil =>
    exact ⟨[], rfl, fun _ hb => absurd hb List.not_mem_nil, .nil, (List.append_nil _).symm,
      (List.append_nil _).symm⟩
  | @cons i rest x y z first others ih =>
    obtain ⟨b, w, queue, hb, hends, rfl⟩ := first
    obtain ⟨built, hbuilders, hreceived, hturn, hwrites, hsteps⟩ := ih
    obtain ⟨c, rfl, rfl, hhappens, rfl⟩ := exists_built_of_ends hends
    refine ⟨c :: built, ?_, List.forall_mem_cons.2 ⟨rfl, hreceived⟩, .cons hhappens hturn, ?_, ?_⟩
    · rw [List.map_cons, hbuilders, List.map_cons, hb]
    · rw [hwrites, List.flatMap_cons, List.append_assoc]
    · rw [hsteps, Session.completed]
      exact List.append_assoc ..

/-! ## Making final -/

/-- The transaction is made final. -/
def Transaction.Commits (entry : String × Transaction κ) (v w : World κ) : Prop :=
  entry.2.commit v = (.ok (), w)

theorem committed_of_succeeds {l : Ledger κ} {i : Nat} {s t : Session κ}
    (h : InTurn CommitSucceeds (l.zipIdx i) s t) :
    InTurn Transaction.Commits l s.world t.world ∧
      t.steps = s.steps ++ l.keys.map (⟨.commit, ·⟩) := by
  induction l generalizing i s with
  | nil =>
    cases h
    exact ⟨.nil, (List.append_nil _).symm⟩
  | cons entry l ih =>
    cases h with
    | cons first others =>
      obtain ⟨u, hcall, rfl⟩ := first
      obtain ⟨hturn, hsteps⟩ := ih others
      have hu : u.steps = s.steps := Session.steps_of_call hcall
      refine ⟨.cons (Session.world_of_call hcall) hturn, ?_⟩
      rw [hsteps, Session.completed, hu]
      exact List.append_assoc ..

/-! ## The whole run -/

/-- What happens in a successful run. -/
structure Chronicle (κ : Type) where
  /-- The extensions. -/
  registered : List (Registered κ)
  /-- The fragments, by their indices. -/
  ran : List Nat
  /-- The artifact that they make. -/
  finished : Artifact
  /-- The hooks. -/
  hooked : List (Hooked κ)
  /-- The builders. -/
  built : List (Built κ)

namespace Chronicle

/-- What the hooks have begun. -/
def ledger (c : Chronicle κ) : Ledger κ := Hooked.begun c.hooked

/-- The steps: those of the fragments, of the hooks, of the builders, and of what the hooks have
begun. -/
def steps (es : List FragmentEntry) (c : Chronicle κ) : List Step :=
  (keysAt es c.ran).map (⟨.fragment, ·⟩) ++ c.hooked.map (⟨.extension, ·.key⟩) ++
    c.built.map (⟨.builder, ·.builder.1.key⟩) ++ c.ledger.keys.map (⟨.commit, ·⟩)

end Chronicle

namespace Pipeline

variable {p : Pipeline κ} {o : RunOptions} {w : World κ} {r : RunResult} {s : Session κ}

/-- The chronicle is that of a run with this result, which begins in one world and ends in
another. -/
structure Chronicled (p : Pipeline κ) (o : RunOptions) (w : World κ) (c : Chronicle κ)
    (r : RunResult) (v : World κ) : Prop where
  /-- The extensions register in their order. -/
  extensions : c.registered.map (·.extension) = p.extensions
  /-- The fragments run in the order of their schedule, unless one of them stops the phase. -/
  fragments : ∃ schedule, Schedule.fragments p.registry.fragmentEntries = .ok schedule ∧
    c.ran <+: schedule.order
  /-- The hooks that the extensions have given run in the same order. -/
  hooks : c.hooked.map (fun h => (h.key, h.hook)) = c.registered.filterMap Registered.keyed?
  /-- The builders run in the order of their schedule. -/
  builders : c.built.map (fun b => some b.builder) =
    (Schedule.builders p.registry.builderEntries).map (p.registry.builders[·]?)
  /-- Each in turn, they leave the world to the next, and then what the hooks have begun is made
  final. -/
  happens : ∃ (s t : Session κ) (x y : World κ),
    InTurn (Registered.Happens o) c.registered w s.world ∧
    FragmentPhase p.registry p.requiredFamilies o s c.ran (.ok c.finished) t ∧
    InTurn (Hooked.Happens o) c.hooked t.world x ∧
    InTurn (Built.Happens o) c.built x y ∧
    InTurn Transaction.Commits c.ledger y v
  /-- Each hook receives the artifact that was replaced last before it. -/
  received : ∀ before h after, c.hooked = before ++ h :: after →
    h.received = Hooked.last c.finished before
  /-- The result is the artifact that was replaced last of all. -/
  artifact : r.artifact = Hooked.last c.finished c.hooked
  /-- All builders receive it. -/
  shared : ∀ b ∈ c.built, b.received = r.artifact
  /-- The steps are those of the chronicle. -/
  steps : r.steps = c.steps p.registry.fragmentEntries
  /-- The writes are those that the builders queue. -/
  writes : r.writes = c.built.flatMap Built.writes

/-- If a run succeeds, nothing fails in it. -/
theorem completed_of_run (h : p.run o w = (.ok r, s)) :
    ∃ hooks a b l queue t u v, p.Begins o w hooks a t ∧
      InTurn (HookSucceeds o) hooks.zipIdx ((a, []), t) ((b, l), u) ∧
      InTurn (BuilderSucceeds o b p.registry.builders)
        (Schedule.builders p.registry.builderEntries) ([], u) (queue, v) ∧
      InTurn CommitSucceeds l.zipIdx v s ∧ r = ⟨b, s.world.diagnostics, s.steps, queue⟩ := by
  obtain ⟨c, r', s', hcourse⟩ := exists_course p o w
  obtain ⟨rfl, rfl⟩ := Prod.mk.inj (hcourse.run_eq.symm.trans h)
  cases hcourse with
  | completed begins hooked built committed =>
    exact ⟨_, _, _, _, _, _, _, _, begins, hooked, built, committed, rfl⟩

/-- **What a successful run tells.** Every successful run has a chronicle. Its steps are the keys of
the fragments that ran, of the extensions that gave hooks, of the builders, and of what was made
final, all in order. Each hook has received the artifact that was replaced last before it, all
builders have received the last, which is that of the result, and the writes are those of the
builders, each under the key of its builder. -/
theorem run_chronicle (h : p.run o w = (.ok r, s)) : ∃ c, p.Chronicled o w c r s.world := by
  obtain ⟨hooks, a, b, l, queue, t, u, v, ⟨t₀, ran, hcollect, hphase⟩, hhooks, hbuilders, hcommits,
    rfl⟩ := completed_of_run h
  obtain ⟨registered, hextensions, rfl, hregister, hsteps₀⟩ := exists_registered hcollect
  obtain ⟨hooked, hkeyed, hhooked, hreceived, rfl, rfl, hsteps₂⟩ := exists_hooked hhooks
  obtain ⟨built, hentries, hshared, hbuilt, hwrites, hsteps₃⟩ := exists_built hbuilders
  obtain ⟨hcommitted, hsteps₄⟩ := committed_of_succeeds hcommits
  refine ⟨⟨registered, ran, a, hooked, built⟩, hextensions, ?_, hkeyed, hentries,
    ⟨t₀, t, u.world, v.world, hregister, hphase, hhooked, hbuilt, hcommitted⟩, hreceived, rfl,
    hshared, ?_, hwrites⟩
  · rcases hphase.begins_order with ⟨f, -, -, hfails⟩ | horder
    · cases hfails
    · exact horder
  · have hsteps : s.steps = _ := hsteps₄
    rw [hsteps, hsteps₃, hsteps₂, hphase.steps_eq, hsteps₀]
    simp [Chronicle.steps, Chronicle.ledger, Session.start]

/-- A fragment that fills the draft. -/
def filler : FragmentBehaviour Unit := fun _ => do
  FragmentProgram.assign (.identity ⟨"old", "", "", "", ""⟩)
  FragmentProgram.assign (.capabilityMap ⟨.empty, []⟩)
  FragmentProgram.assign (.layout ⟨"", "", ""⟩)
  FragmentProgram.assign (.plan ⟨[]⟩)

/-- A hook that changes the title and begins something. -/
def retitler : Hook Unit := fun _ a =>
  pure ⟨some (a.withData { a.data with identity := ⟨"new", "", "", "", ""⟩ }), some .idle⟩

/-- A builder that queues a file with the title as its name. -/
def namer : BuilderBehaviour Unit := fun v =>
  BuilderProgram.queue ⟨v.artifact.data.identity.title⟩ ⟨#[]⟩

/-- One fragment and one builder, and of three extensions one that changes the title, one without a
hook and one whose hook does nothing. -/
def retitling : Pipeline Unit where
  registry := ⟨[(⟨"fill", [], .extend, none⟩, filler)], [(⟨"name", 0, none⟩, namer)], .empty⟩
  extensions := [⟨"retitle", fun _ => pure (some retitler)⟩, ⟨"none", fun _ => pure none⟩,
    ⟨"look", fun _ => pure (some fun _ _ => pure .unchanged)⟩]
  requiredFamilies := []

/-- Usual options. -/
def usualOptions : RunOptions := ⟨"generate", .usual, "", "", ⟨""⟩, ⟨"/"⟩, "run", .none⟩

theorem schedule_retitling :
    Schedule.fragments retitling.registry.fragmentEntries = .ok ⟨[0], []⟩ := by
  let es : List FragmentEntry := [⟨"fill", [], .extend, none⟩]
  have hknown : Schedule.AllKnown es :=
    Schedule.unknownDependency?_eq_none_iff.1 (by decide +kernel)
  have hacyclic : Schedule.Acyclic es := by
    intro k hk
    obtain ⟨c, ⟨i, f, hruns, -, hc⟩, -⟩ := Relation.TransGen.head'_iff.1 hk
    obtain rfl := List.mem_singleton.1 (List.mem_of_getElem? hruns.1)
    cases hc
  have horder : Schedule.order 1 (Schedule.active es) = [0] := by decide +kernel
  have hsuperseded : Schedule.superseded es = [] := by decide +kernel
  exact (Schedule.fragments_of_acyclic hknown hacyclic).trans
    (congrArg Except.ok (congrArg₂ FragmentSchedule.mk horder hsuperseded))

theorem builders_retitling : Schedule.builders retitling.registry.builderEntries = [0] := by
  rw [Schedule.builders, Registry.builderEntries, retitling, List.map_singleton,
    List.zipIdx_singleton, List.mergeSort_singleton]
  rfl

/-- The hook that does nothing leaves the title that the first has given. -/
theorem run_chronicle_retitling :
    let w : World Unit := ⟨⟨[], []⟩, [], [], ()⟩
    ∃ c r s, retitling.run usualOptions w = (.ok r, s) ∧
      retitling.Chronicled usualOptions w c r s.world ∧
      r.steps = [⟨.fragment, "fill"⟩, ⟨.extension, "retitle"⟩, ⟨.extension, "look"⟩,
        ⟨.builder, "name"⟩, ⟨.commit, "retitle"⟩] ∧
      r.writes.map (·.path) = [⟨"new"⟩] := by
  intro w
  have hresult : ((retitling.run usualOptions w).1.toOption.map fun r =>
      (r.steps, r.writes.map (·.path))) = some
        ([⟨.fragment, "fill"⟩, ⟨.extension, "retitle"⟩, ⟨.extension, "look"⟩,
          ⟨.builder, "name"⟩, ⟨.commit, "retitle"⟩], [⟨"new"⟩]) := by
    simp only [Pipeline.run, Pipeline.stages, Attempt.bind_apply,
      runFragments_of_schedule schedule_retitling, Pipeline.finish, runBuilders,
      builders_retitling]
    decide +kernel
  rcases hrun : retitling.run usualOptions w with ⟨f | r, s⟩
  · rw [hrun] at hresult
    cases hresult
  · rw [hrun] at hresult
    obtain ⟨hsteps, hwrites⟩ := Prod.mk.inj (Option.some.inj hresult)
    obtain ⟨c, hc⟩ := run_chronicle hrun
    exact ⟨c, r, s, rfl, hc, hsteps, hwrites⟩

end Pipeline

end StagedCodegen
