import StagedCodegen.Proofs.Run.FragmentPhase

/-!
# Options under which a run is the same

Two runs of the same helpers can differ only where their options do. If every fragment does the same
under both options, on every draft that it can be given, so does the phase
(`runFragments_congr`); the drafts are narrowed down by a property that the fragments keep. If the
builders do the same as well, the runs are the same (`Pipeline.run_congr`).
-/

namespace StagedCodegen

open StagedCodegen.Representation (Artifact Draft)

variable {κ β : Type} {o o' : RunOptions}

/-! ## Fragments -/

section Fragments

variable {fs : List (FragmentEntry × FragmentBehaviour κ)} {P : Draft → Prop} {d : Draft}

/-- The fragment does the same under both options with every draft that has a property. -/
def FragmentAgrees (o o' : RunOptions) (P : Draft → Prop)
    (e : FragmentEntry × FragmentBehaviour κ) : Prop :=
  ∀ d, P d → runFragment o' e.1 e.2 d = runFragment o e.1 e.2 d

/-- Fragments that agree, and that keep what they need to agree, agree one after another. -/
theorem runInOrder_congr (hscope : o'.scope = o.scope) (hagree : ∀ e ∈ fs, FragmentAgrees o o' P e)
    (hkeep : ∀ e ∈ fs, FragmentKeeps o P e) (hd : P d) (order : List Nat) (s : Session κ) :
    runInOrder o' fs order d s = runInOrder o fs order d s := by
  induction order generalizing d s with
  | nil => rfl
  | cons i order ih =>
    rcases he : fs[i]? with _ | e
    · rw [runInOrder, runInOrder, he]
      exact ih hd s
    have hmem := List.mem_of_getElem? he
    obtain ⟨f | ⟨⟩, y, hends⟩ := exists_fragmentEnds o e (s.world, d)
    · obtain ⟨y', hends', hworld⟩ := runFragment_eq_error_iff.1
        ((congrFun (hagree e hmem d hd) _).trans (runFragment_eq_error_iff.2 ⟨y, hends, rfl⟩))
      rw [runInOrder_failed he hends, runInOrder_failed he hends', hworld]
    obtain ⟨w, d', stop⟩ := y
    have hends' : FragmentEnds o' e (s.world, d) (.ok ()) ⟨w, d', stop⟩ := runFragment_eq_ok_iff.1
      ((congrFun (hagree e hmem d hd) _).trans (runFragment_eq_ok_iff.2 hends))
    rcases stop with _ | reason
    · have hkept : P d' := hkeep e hmem d s.world d' none w hd hends
      rw [runInOrder_passed he hends, runInOrder_passed he hends', Attempt.bind_apply,
        Attempt.bind_apply, ih hkept]
    · rw [runInOrder_stopped he hends, runInOrder_stopped he hends', Session.stopped,
        Session.stopped, hscope]

/-- Fragments that agree, and that keep what they need to agree, make the same artifact. -/
theorem runFragments_congr {r : Registry (FragmentBehaviour κ) β} (hscope : o'.scope = o.scope)
    (hempty : P .empty) (hagree : ∀ e ∈ r.fragments, FragmentAgrees o o' P e)
    (hkeep : ∀ e ∈ r.fragments, FragmentKeeps o P e) (families : List String) :
    runFragments r families o' = runFragments (κ := κ) r families o := by
  have hwarn : ∀ is : List Nat, warnOfSuperseded (κ := κ) o' r.fragmentEntries is =
      warnOfSuperseded o r.fragmentEntries is := fun is => by
    funext w
    rw [warnOfSuperseded, warnOfSuperseded, hscope]
  have horder : ∀ order, runInOrder o' r.fragments order .empty =
      runInOrder (κ := κ) o r.fragments order .empty :=
    fun order => funext (runInOrder_congr hscope hagree hkeep hempty order)
  simp only [runFragments, hwarn, horder]

end Fragments

/-! ## Builders -/

/-- The builder does the same under both options with every artifact. -/
def BuilderAgrees (o o' : RunOptions) (e : BuilderEntry × BuilderBehaviour κ) : Prop :=
  ∀ a, runBuilder o' a e.1 e.2 = runBuilder o a e.1 e.2

/-- Builders that agree, agree one after another. -/
theorem buildInOrder_congr {bs : List (BuilderEntry × BuilderBehaviour κ)}
    (hagree : ∀ e ∈ bs, BuilderAgrees o o' e) (a : Artifact) (order : List Nat)
    (queue : List QueuedWrite) :
    buildInOrder o' a bs order queue = buildInOrder o a bs order queue := by
  induction order generalizing queue with
  | nil => rfl
  | cons i order ih =>
    rcases he : bs[i]? with _ | ⟨entry, behaviour⟩
    · rw [buildInOrder, buildInOrder, he]
      exact ih queue
    · have hsame : runBuilder o' a entry behaviour = runBuilder o a entry behaviour :=
        hagree _ (List.mem_of_getElem? he) a
      simp only [buildInOrder, he, hsame, ih]

/-! ## Runs -/

/-- Runs without extensions are the same if their helpers do the same. -/
theorem Pipeline.run_congr (o o' : RunOptions) {p : Pipeline κ} {P : Draft → Prop}
    (hp : p.extensions = []) (hscope : o'.scope = o.scope) (hempty : P .empty)
    (hagree : ∀ e ∈ p.registry.fragments, FragmentAgrees o o' P e)
    (hkeep : ∀ e ∈ p.registry.fragments, FragmentKeeps o P e)
    (hbuilders : ∀ e ∈ p.registry.builders, BuilderAgrees o o' e) (w : World κ) :
    p.run o' w = p.run o w := by
  have hfragments := runFragments_congr hscope hempty hagree hkeep p.requiredFamilies
  have hbuild : ∀ a, runBuilders p.registry o' a = runBuilders p.registry o a :=
    fun a => buildInOrder_congr hbuilders a _ []
  have hfinish : p.finish o' = p.finish o := by
    funext a l s
    rw [finish, finish, hbuild]
  have hstages : p.stages o' = p.stages o := by
    rw [stages, stages, hp, hfragments, hfinish]
    rfl
  rw [run, run, hstages, hscope]

end StagedCodegen
