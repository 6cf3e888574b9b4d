import StagedCodegen.Proofs.Run.Stages
import StagedCodegen.Proofs.Schedule.Fragments

/-!
# The course of the fragment phase

Which fragments the phase calls, and what becomes of it. A fragment fails, stops the phase or passes
as its program does (`FragmentEnds`). There are four courses: nobody can be ordered, a fragment
fails, a fragment stops the phase, or the whole order runs. Only a phase that was stopped can leave
a registered family idle, since a registration that gives way always gives way to one that runs.

Main statement: `runFragments_course`. Every phase takes one of the courses and no course is taken
by any other phase; the calls of the phase are a beginning of the order of the schedule.
-/

namespace StagedCodegen

open StagedCodegen.Representation (Artifact Draft)

variable {κ β : Type} {o : RunOptions} {fs : List (FragmentEntry × FragmentBehaviour κ)}
  {d d' : Draft} {s t : Session κ} {f : Failure} {i : Nat} {rest : List Nat}

/-! ## One fragment -/

/-- The program of a fragment, begun in a world with a draft, ends with a result and leaves another
world and draft, and maybe a reason for which the phase is to stop. -/
def FragmentEnds (o : RunOptions) (e : FragmentEntry × FragmentBehaviour κ) (x : World κ × Draft)
    (r : Except Failure Unit) (y : FragmentState κ) : Prop :=
  Program.Ends (I := fragmentInterface κ)
    (e.2 ⟨o, e.1.key, Scope.child o.scope e.1.key⟩).run (FragmentState.serve ⟨e.1.key, e.1.mode⟩)
    ⟨x.1, x.2, none⟩ r y

/-- The fragment with this index succeeds and lets the phase go on. -/
def FragmentPasses (o : RunOptions) (fs : List (FragmentEntry × FragmentBehaviour κ)) (i : Nat)
    (x y : Draft × Session κ) : Prop :=
  ∃ e w d, fs[i]? = some e ∧ FragmentEnds o e (x.2.world, x.1) (.ok ()) ⟨w, d, none⟩ ∧
    y = (d, (x.2.called (.fragment i) w).completed .fragment e.1.key)

section Fragment

variable {e : FragmentEntry × FragmentBehaviour κ} {w w' : World κ} {stop : Option String}

theorem fragmentEnds_iff {x : World κ × Draft} {r : Except Failure Unit} {y : FragmentState κ} :
    FragmentEnds o e x r y ↔
      Program.run (I := fragmentInterface κ) (FragmentState.serve ⟨e.1.key, e.1.mode⟩)
        (e.2 ⟨o, e.1.key, Scope.child o.scope e.1.key⟩).run ⟨x.1, x.2, none⟩ = (r, y) :=
  Program.run_eq_iff.symm

/-- A fragment succeeds just if its program does, and leaves what that leaves. -/
theorem runFragment_eq_ok_iff : runFragment o e.1 e.2 d w = (.ok (d', stop), w') ↔
    FragmentEnds o e (w, d) (.ok ()) ⟨w', d', stop⟩ := by
  rw [fragmentEnds_iff]
  unfold runFragment
  extract_lets view program
  rcases Program.run (I := fragmentInterface κ) (FragmentState.serve ⟨e.1.key, e.1.mode⟩) program
    ⟨w, d, none⟩ with ⟨f | ⟨⟩, ⟨w'', d'', stop'⟩⟩
  · simp
  · simp [and_comm, and_assoc]

/-- A fragment fails just if its program does, and the draft is lost. -/
theorem runFragment_eq_error_iff : runFragment o e.1 e.2 d w = (.error f, w') ↔
    ∃ y, FragmentEnds o e (w, d) (.error f) y ∧ y.world = w' := by
  simp only [fragmentEnds_iff]
  unfold runFragment
  extract_lets view program
  rcases Program.run (I := fragmentInterface κ) (FragmentState.serve ⟨e.1.key, e.1.mode⟩) program
    ⟨w, d, none⟩ with ⟨f | ⟨⟩, y⟩
  · simp [eq_comm]
  · simp

theorem exists_fragmentEnds (o : RunOptions) (e : FragmentEntry × FragmentBehaviour κ)
    (x : World κ × Draft) : ∃ r y, FragmentEnds o e x r y :=
  ⟨_, _, fragmentEnds_iff.2 rfl⟩

end Fragment

/-- The session once the user was told that a fragment has stopped the phase. -/
def Session.stopped (s : Session κ) (o : RunOptions) (key reason : String) : Session κ :=
  { s with
    world := s.world.warn o.scope "Fragment phase short-circuited"
      (Json.obj [("key", .string key), ("reason", .string reason)]) }

variable {e : FragmentEntry × FragmentBehaviour κ} {reason : String} {w : World κ}
  {y : FragmentState κ}

theorem runInOrder_passed (he : fs[i]? = some e)
    (h : FragmentEnds o e (s.world, d) (.ok ()) ⟨w, d', none⟩) :
    runInOrder o fs (i :: rest) d s =
      ((runInOrder o fs rest d') >>= fun x => pure (x.1, e.1.key :: x.2))
        ((s.called (.fragment i) w).completed .fragment e.1.key) := by
  have hcall := Session.call_of_eq (c := .fragment i) (runFragment_eq_ok_iff.2 h)
  rw [runInOrder, he]
  simp only [Attempt.bind_apply, hcall, Session.complete_apply]

theorem runInOrder_failed (he : fs[i]? = some e)
    (h : FragmentEnds o e (s.world, d) (.error f) y) :
    runInOrder o fs (i :: rest) d s = (.error f, s.called (.fragment i) y.world) := by
  have hcall := Session.call_of_eq (c := .fragment i) (runFragment_eq_error_iff.2 ⟨y, h, rfl⟩)
  rw [runInOrder, he]
  simp only [Attempt.bind_apply, hcall]

theorem runInOrder_stopped (he : fs[i]? = some e)
    (h : FragmentEnds o e (s.world, d) (.ok ()) ⟨w, d', some reason⟩) :
    runInOrder o fs (i :: rest) d s = (.ok (d', [e.1.key]),
      ((s.called (.fragment i) w).completed .fragment e.1.key).stopped o e.1.key reason) := by
  have hcall := Session.call_of_eq (c := .fragment i) (runFragment_eq_ok_iff.2 h)
  rw [runInOrder, he]
  simp only [Attempt.bind_apply, hcall, Session.complete_apply]
  rfl

/-! ## One fragment after another -/

/-- The keys of the fragments with these indices. -/
def keysAt (es : List FragmentEntry) (is : List Nat) : List String :=
  is.filterMap fun i => es[i]?.map (·.key)

theorem keysAt_append (es : List FragmentEntry) (is js : List Nat) :
    keysAt es (is ++ js) = keysAt es is ++ keysAt es js := List.filterMap_append

theorem keysAt_cons {es : List FragmentEntry} {entry : FragmentEntry} (h : es[i]? = some entry)
    (is : List Nat) : keysAt es (i :: is) = entry.key :: keysAt es is := by
  simp [keysAt, h]

theorem mem_keysAt {es : List FragmentEntry} {is : List Nat} {key : String} :
    key ∈ keysAt es is ↔ ∃ i ∈ is, ∃ e, es[i]? = some e ∧ e.key = key := by
  simp [keysAt]

theorem entry_of_fragment (he : fs[i]? = some e) : (fs.map (·.1))[i]? = some e.1 := by
  simp [he]

/-- After fragments that pass in turn, the phase goes on with the others. -/
theorem runInOrder_append {before : List Nat} {x y : Draft × Session κ}
    (h : InTurn (FragmentPasses o fs) before x y) (after : List Nat) :
    runInOrder o fs (before ++ after) x.1 x.2 =
      ((runInOrder o fs after y.1) >>= fun z =>
        pure (z.1, keysAt (fs.map (·.1)) before ++ z.2)) y.2 := by
  induction h with
  | nil =>
    rw [List.nil_append, Attempt.bind_apply]
    split <;> next hrun => simp [hrun, keysAt]
  | @cons i before x y z first others ih =>
    obtain ⟨e, w, d, he, hends, rfl⟩ := first
    rw [List.cons_append, runInOrder_passed he hends, Attempt.bind_apply, ih,
      keysAt_cons (entry_of_fragment he), Attempt.bind_apply, Attempt.bind_apply]
    rcases runInOrder o fs after z.1 z.2 with ⟨f | r, u⟩ <;> simp

/-- When a fragment does not pass, it fails or it stops the phase. -/
theorem fragmentEnds_cases (he : fs[i]? = some e)
    (h : ∀ y, ¬FragmentPasses o fs i (d, s) y) :
    (∃ f y, FragmentEnds o e (s.world, d) (.error f) y) ∨
      ∃ w d' reason, FragmentEnds o e (s.world, d) (.ok ()) ⟨w, d', some reason⟩ := by
  obtain ⟨f | ⟨⟩, ⟨w, d', _ | reason⟩, hends⟩ := exists_fragmentEnds o e (s.world, d)
  · exact .inl ⟨f, _, hends⟩
  · exact .inl ⟨f, _, hends⟩
  · exact absurd ⟨e, w, d', he, hends, rfl⟩ (h _)
  · exact .inr ⟨w, d', reason, hends⟩

/-- Every fragment that passes in turn was called once. -/
theorem calls_of_passed {is : List Nat} {x y : Draft × Session κ}
    (h : InTurn (FragmentPasses o fs) is x y) :
    y.2.calls = x.2.calls ++ is.map .fragment := by
  refine h.log_eq (fun x => x.2.calls) ?_
  rintro i x _ ⟨e, w, d, -, -, rfl⟩
  rfl

/-! ## What fragments keep -/

section Keeps

variable {P : Draft → Prop}

/-- The fragment, if it succeeds, keeps a property of the draft. -/
def FragmentKeeps (o : RunOptions) (P : Draft → Prop) (e : FragmentEntry × FragmentBehaviour κ) :
    Prop :=
  ∀ d w d' stop w', P d → FragmentEnds o e (w, d) (.ok ()) ⟨w', d', stop⟩ → P d'

theorem keeps_of_runInOrder (hkeep : ∀ e ∈ fs, FragmentKeeps o P e) {order : List Nat}
    {ran : List String} (hd : P d) (h : runInOrder o fs order d s = (.ok (d', ran), t)) : P d' := by
  induction order generalizing d s ran t with
  | nil =>
    cases h
    exact hd
  | cons i order ih =>
    rcases he : fs[i]? with _ | e
    · rw [runInOrder, he] at h
      exact ih hd h
    obtain ⟨f | ⟨⟩, ⟨w, d₁, stop⟩, hends⟩ := exists_fragmentEnds o e (s.world, d)
    · cases h.symm.trans (runInOrder_failed he hends)
    have hkept : P d₁ := hkeep e (List.mem_of_getElem? he) d s.world d₁ stop w hd hends
    rcases stop with _ | reason
    · rw [runInOrder_passed he hends] at h
      obtain ⟨⟨d₂, ran₂⟩, v, hrest, hpure⟩ := Attempt.bind_eq_ok.1 h
      cases hpure
      exact ih hkept hrest
    · cases h.symm.trans (runInOrder_stopped he hends)
      exact hkept

/-- What an empty draft has and all fragments keep, the draft has that is finished. -/
theorem exists_draft_of_runFragments {r : Registry (FragmentBehaviour κ) β}
    {families : List String} {a : Artifact} (hempty : P .empty)
    (hkeep : ∀ e ∈ r.fragments, FragmentKeeps o P e)
    (h : runFragments r families o s = (.ok a, t)) : ∃ d, P d ∧ d.finalize = .ok a := by
  obtain ⟨schedule, u, -, h⟩ := Attempt.bind_eq_ok.1 h
  obtain ⟨-, v, -, h⟩ := Attempt.bind_eq_ok.1 h
  obtain ⟨⟨d, ran⟩, w, hrun, h⟩ := Attempt.bind_eq_ok.1 h
  refine ⟨d, keeps_of_runInOrder hkeep hempty hrun, ?_⟩
  rcases hidle : idleFamily? (r.fragmentEntries.map (·.key)) ran families with _ | f
  · simp only [hidle] at h
    exact (Prod.mk.inj h).1
  · simp only [hidle] at h
    cases h

end Keeps

/-! ## Idle families -/

/-- Somebody is registered for the family, and none of those with these indices belongs to it. -/
structure IsIdle (es : List FragmentEntry) (ran : List Nat) (family : String) : Prop where
  registered : ∃ e ∈ es, keyInFamily e.key family = true
  idle : ∀ i ∈ ran, ∀ e, es[i]? = some e → keyInFamily e.key family = false

/-- The keys registered for a family, in the order of registration. -/
def members (es : List FragmentEntry) (family : String) : List String :=
  (es.map (·.key)).filter (keyInFamily · family)

/-- What becomes of a draft once the families were looked at: the first one that is idle is the
failure. -/
inductive Judged (es : List FragmentEntry) (families : List String) (ran : List Nat) (d : Draft) :
    Except Failure Artifact → Prop where
  /-- There is an idle family. -/
  | idle {before after : List String} {family : String}
      (split : families = before ++ family :: after)
      (busy : ∀ other ∈ before, ¬IsIdle es ran other) (idle : IsIdle es ran family) :
      Judged es families ran d (.error (.familyNotExecuted family (members es family)))
  /-- There is none. -/
  | busy (busy : ∀ family ∈ families, ¬IsIdle es ran family) : Judged es families ran d d.finalize

section Idle

variable {es : List FragmentEntry} {ran : List Nat} {family : String} {families : List String}

/-- What is said of one family. -/
theorem isIdle_iff : IsIdle es ran family ↔
    ((members es family).isEmpty || (keysAt es ran).any (keyInFamily · family)) = false := by
  have hmembers : (members es family).isEmpty = false ↔
      ∃ e ∈ es, keyInFamily e.key family = true := by
    simp [members]
  have hran : (keysAt es ran).any (keyInFamily · family) = false ↔
      ∀ i ∈ ran, ∀ e, es[i]? = some e → keyInFamily e.key family = false := by
    simp only [List.any_eq_false, mem_keysAt, Bool.not_eq_true]
    constructor
    · exact fun h i hi e he => h e.key ⟨i, hi, e, he, rfl⟩
    · rintro h _ ⟨i, hi, e, he, rfl⟩
      exact h i hi e he
  rw [Bool.or_eq_false_iff, hmembers, hran]
  exact ⟨fun h => ⟨h.registered, h.idle⟩, fun h => ⟨h.1, h.2⟩⟩

theorem not_isIdle_iff : ¬IsIdle es ran family ↔
    ((members es family).isEmpty || (keysAt es ran).any (keyInFamily · family)) = true := by
  rw [isIdle_iff, Bool.not_eq_false]

theorem idleFamily?_eq (es : List FragmentEntry) (keys families : List String) :
    idleFamily? (es.map (·.key)) keys families = families.findSome? fun family =>
      if ((members es family).isEmpty || keys.any (keyInFamily · family)) = true then none
      else some (.familyNotExecuted family (members es family)) := rfl

theorem idleFamily?_eq_none_iff :
    idleFamily? (es.map (·.key)) (keysAt es ran) families = none ↔
      ∀ family ∈ families, ¬IsIdle es ran family := by
  rw [idleFamily?_eq, List.findSome?_eq_none_iff]
  refine forall₂_congr fun family _ => ?_
  rw [not_isIdle_iff, ite_eq_left_iff]
  exact ⟨fun h => by_contra fun hc => Option.some_ne_none _ (h hc), fun h hc => absurd h hc⟩

theorem idleFamily?_eq_some_iff :
    idleFamily? (es.map (·.key)) (keysAt es ran) families = some f ↔
      ∃ before family after, families = before ++ family :: after ∧
        (∀ other ∈ before, ¬IsIdle es ran other) ∧ IsIdle es ran family ∧
        f = .familyNotExecuted family (members es family) := by
  have hbusy : ∀ before : List String, (∀ other ∈ before, ¬IsIdle es ran other) ↔ _ :=
    fun before => idleFamily?_eq_none_iff.symm.trans List.findSome?_eq_none_iff
  rw [idleFamily?_eq, List.findSome?_eq_some_iff]
  constructor
  · rintro ⟨before, family, after, rfl, hfamily, hbefore⟩
    rw [ite_eq_iff] at hfamily
    obtain ⟨-, hnone⟩ | ⟨hidle, hfailure⟩ := hfamily
    · exact absurd hnone (by simp)
    · refine ⟨before, family, after, rfl, (hbusy before).2 hbefore, ?_, ?_⟩
      · exact isIdle_iff.2 (Bool.not_eq_true _ ▸ hidle)
      · exact (Option.some.inj hfailure).symm
  · rintro ⟨before, family, after, rfl, hbefore, hidle, rfl⟩
    refine ⟨before, family, after, rfl, ?_, (hbusy before).1 hbefore⟩
    exact if_neg (Bool.not_eq_true _ ▸ isIdle_iff.1 hidle)

end Idle

/-! ## The courses -/

/-- The session once the user was told who gives way. -/
def Session.warned (s : Session κ) (o : RunOptions) (es : List FragmentEntry)
    (indices : List Nat) : Session κ :=
  { s with world := warnOfSuperseded o es indices s.world }

/-- The courses of the fragment phase, each with the fragments that it calls, its result and the
session that it leaves. -/
inductive FragmentPhase (r : Registry (FragmentBehaviour κ) β) (families : List String)
    (o : RunOptions) (s : Session κ) :
    List Nat → Except Failure Artifact → Session κ → Prop where
  /-- There is no order. -/
  | unscheduled {f : Failure} (fails : Schedule.fragments r.fragmentEntries = .error f) :
      FragmentPhase r families o s [] (.error f) s
  /-- A fragment fails. -/
  | failed {schedule : FragmentSchedule} {before after : List Nat} {i : Nat}
      {e : FragmentEntry × FragmentBehaviour κ} {d : Draft} {f : Failure} {t : Session κ}
      {y : FragmentState κ}
      (scheduled : Schedule.fragments r.fragmentEntries = .ok schedule)
      (order : schedule.order = before ++ i :: after)
      (passed : InTurn (FragmentPasses o r.fragments) before
        (.empty, s.warned o r.fragmentEntries schedule.superseded) (d, t))
      (entry : r.fragments[i]? = some e) (fails : FragmentEnds o e (t.world, d) (.error f) y) :
      FragmentPhase r families o s (before ++ [i]) (.error f) (t.called (.fragment i) y.world)
  /-- A fragment succeeds and stops the phase. -/
  | stopped {schedule : FragmentSchedule} {before after : List Nat} {i : Nat}
      {e : FragmentEntry × FragmentBehaviour κ} {d d' : Draft} {reason : String}
      {result : Except Failure Artifact} {t : Session κ} {w : World κ}
      (scheduled : Schedule.fragments r.fragmentEntries = .ok schedule)
      (order : schedule.order = before ++ i :: after)
      (passed : InTurn (FragmentPasses o r.fragments) before
        (.empty, s.warned o r.fragmentEntries schedule.superseded) (d, t))
      (entry : r.fragments[i]? = some e)
      (stops : FragmentEnds o e (t.world, d) (.ok ()) ⟨w, d', some reason⟩)
      (judged : Judged r.fragmentEntries families (before ++ [i]) d' result) :
      FragmentPhase r families o s (before ++ [i]) result
        (((t.called (.fragment i) w).completed .fragment e.1.key).stopped o e.1.key reason)
  /-- Everyone runs. -/
  | completed {schedule : FragmentSchedule} {d : Draft} {t : Session κ}
      (scheduled : Schedule.fragments r.fragmentEntries = .ok schedule)
      (passed : InTurn (FragmentPasses o r.fragments) schedule.order
        (.empty, s.warned o r.fragmentEntries schedule.superseded) (d, t)) :
      FragmentPhase r families o s schedule.order d.finalize t

section Course

variable {r : Registry (FragmentBehaviour κ) β} {families : List String}
  {schedule : FragmentSchedule} {ran : List Nat} {result : Except Failure Artifact}

/-- The judgment on a draft is the one that the phase ends with. -/
theorem judged_iff : Judged r.fragmentEntries families ran d result ↔
    result = match idleFamily? (r.fragmentEntries.map (·.key)) (keysAt r.fragmentEntries ran)
      families with
    | some f => .error f
    | none => d.finalize := by
  constructor
  · rintro (⟨hsplit, hbusy, hidle⟩ | hbusy)
    · rw [idleFamily?_eq_some_iff.2 ⟨_, _, _, hsplit, hbusy, hidle, rfl⟩]
    · rw [idleFamily?_eq_none_iff.2 hbusy]
  · rintro rfl
    rcases h : idleFamily? (r.fragmentEntries.map (·.key)) (keysAt r.fragmentEntries ran) families
      with _ | f <;> rw [h]
    · exact .busy (idleFamily?_eq_none_iff.1 h)
    · obtain ⟨before, family, after, hsplit, hbusy, hidle, rfl⟩ := idleFamily?_eq_some_iff.1 h
      exact .idle hsplit hbusy hidle

/-- What a registered family needs is that those who run have run. -/
theorem busy_of_order {es : List FragmentEntry} {family : String}
    (h : Schedule.fragments es = .ok schedule) : ¬IsIdle es schedule.order family := by
  rintro ⟨⟨g, hg, hfamily⟩, hidle⟩
  obtain ⟨-, hacyclic, rfl⟩ := Schedule.fragments_eq_ok_iff.1 h
  obtain ⟨i, e, hruns, hkey⟩ := Schedule.registered_iff.1 ⟨g, hg, rfl⟩
  have horder : i ∈ Schedule.order es.length (Schedule.active es) :=
    (Schedule.order_perm hacyclic).mem_iff.2 (Schedule.mem_indices.2 ⟨e, hruns⟩)
  have hnot := hidle i horder e hruns.1
  rw [hkey, hfamily] at hnot
  exact absurd hnot (by simp)

/-- No schedule has an index twice. -/
theorem nodup_order {es : List FragmentEntry} (h : Schedule.fragments es = .ok schedule) :
    schedule.order.Nodup := by
  obtain ⟨-, -, rfl⟩ := Schedule.fragments_eq_ok_iff.1 h
  exact (Schedule.sound_progress es _).nodup

/-- Every fragment of the schedule has been registered. -/
theorem exists_scheduled_fragment (h : Schedule.fragments r.fragmentEntries = .ok schedule)
    (hi : i ∈ schedule.order) : ∃ e, r.fragments[i]? = some e := by
  obtain ⟨-, hacyclic, rfl⟩ := Schedule.fragments_eq_ok_iff.1 h
  obtain ⟨f, hf, -⟩ := Schedule.mem_indices.1 ((Schedule.order_perm hacyclic).mem_iff.1 hi)
  rw [Registry.fragmentEntries, List.getElem?_map, Option.map_eq_some_iff] at hf
  obtain ⟨e, he, -⟩ := hf
  exact ⟨e, he⟩

/-- The phase once there is an order. -/
theorem runFragments_of_schedule (h : Schedule.fragments r.fragmentEntries = .ok schedule) :
    runFragments r families o s =
      (runInOrder o r.fragments schedule.order .empty >>= fun x =>
        match idleFamily? (r.fragmentEntries.map (·.key)) x.2 families with
        | some f => Attempt.fail f
        | none => Attempt.ofExcept x.1.finalize)
        (s.warned o r.fragmentEntries schedule.superseded) := by
  simp only [runFragments, h]
  rfl

namespace FragmentPhase

/-- A course is taken by the phase that it describes and by no other. -/
theorem runFragments_eq (h : FragmentPhase r families o s ran result t) :
    runFragments r families o s = (result, t) := by
  cases h with
  | unscheduled fails => simp [runFragments, fails, Attempt.bind_apply]
  | failed scheduled order passed entry fails =>
    rw [runFragments_of_schedule scheduled, order, Attempt.bind_apply, runInOrder_append passed,
      Attempt.bind_apply, runInOrder_failed entry fails]
  | @stopped _ before _ _ e _ d _ _ _ w scheduled order passed entry stops judged =>
    have hkeys : keysAt r.fragmentEntries before ++ [e.1.key] =
        keysAt r.fragmentEntries (before ++ [_]) :=
      (keysAt_append ..).trans (congrArg _ (keysAt_cons (entry_of_fragment entry) [])) |>.symm
    rw [runFragments_of_schedule scheduled, order, Attempt.bind_apply, runInOrder_append passed,
      Attempt.bind_apply, runInOrder_stopped entry stops]
    simp only [Attempt.pure_apply]
    rw [judged_iff.1 judged, ← Registry.fragmentEntries, hkeys]
    split <;> next hidle => rw [hidle]; rfl
  | completed scheduled passed =>
    have happend := runInOrder_append passed []
    rw [List.append_nil] at happend
    rw [runFragments_of_schedule scheduled, Attempt.bind_apply, happend]
    simp only [runInOrder, Attempt.bind_apply, Attempt.pure_apply, List.append_nil]
    rw [← Registry.fragmentEntries,
      idleFamily?_eq_none_iff.2 fun family _ => busy_of_order scheduled]
    rfl

end FragmentPhase

/-- Every phase takes a course. -/
theorem exists_fragmentPhase (r : Registry (FragmentBehaviour κ) β) (families : List String)
    (o : RunOptions) (s : Session κ) :
    ∃ ran result t, FragmentPhase r families o s ran result t := by
  rcases hs : Schedule.fragments r.fragmentEntries with f | schedule
  · exact ⟨[], .error f, s, .unscheduled hs⟩
  rcases InTurn.all_or_first (FragmentPasses o r.fragments) schedule.order
      (.empty, s.warned o r.fragmentEntries schedule.superseded) with
    ⟨⟨d, t⟩, hpassed⟩ | ⟨before, i, after, ⟨d, t⟩, horder, hpassed, hnot⟩
  · exact ⟨_, _, _, .completed hs hpassed⟩
  · obtain ⟨e, he⟩ := exists_scheduled_fragment hs (i := i) (by simp [horder])
    rcases fragmentEnds_cases he hnot with ⟨f, y, hends⟩ | ⟨w, d', reason, hends⟩
    · exact ⟨_, _, _, .failed hs horder hpassed he hends⟩
    · exact ⟨_, _, _, .stopped hs horder hpassed he hends (judged_iff.2 rfl)⟩

/-- A phase has the result of its course, and leaves what this leaves. -/
theorem runFragments_eq_iff : runFragments r families o s = (result, t) ↔
    ∃ ran, FragmentPhase r families o s ran result t := by
  refine ⟨fun h => ?_, fun ⟨ran, h⟩ => h.runFragments_eq⟩
  obtain ⟨ran, result', t', hphase⟩ := exists_fragmentPhase r families o s
  obtain ⟨rfl, rfl⟩ := Prod.mk.inj (h.symm.trans hphase.runFragments_eq)
  exact ⟨ran, hphase⟩

namespace FragmentPhase

/-- The calls of a phase. -/
theorem calls_eq (h : FragmentPhase r families o s ran result t) :
    t.calls = s.calls ++ ran.map .fragment := by
  cases h with
  | unscheduled => simp
  | failed scheduled order passed entry fails =>
    have hpassed := calls_of_passed passed
    simp only [Session.warned] at hpassed
    simp [hpassed]
  | stopped scheduled order passed entry stops judged =>
    have hpassed := calls_of_passed passed
    simp only [Session.warned] at hpassed
    simp [Session.stopped, Session.completed, hpassed]
  | completed scheduled passed => exact calls_of_passed passed

/-- The fragments that a phase calls are a beginning of its order, which has nobody twice. -/
theorem begins_order (h : FragmentPhase r families o s ran result t) :
    (∃ f, Schedule.fragments r.fragmentEntries = .error f ∧ ran = [] ∧ result = .error f) ∨
      ∃ schedule, Schedule.fragments r.fragmentEntries = .ok schedule ∧ ran <+: schedule.order := by
  cases h with
  | unscheduled fails => exact .inl ⟨_, fails, rfl, rfl⟩
  | failed scheduled order | stopped scheduled order => exact .inr ⟨_, scheduled, by simp [order]⟩
  | completed scheduled passed => exact .inr ⟨_, scheduled, List.prefix_rfl⟩

theorem nodup (h : FragmentPhase r families o s ran result t) : ran.Nodup := by
  rcases h.begins_order with ⟨-, -, rfl, -⟩ | ⟨schedule, hs, hran⟩
  · exact List.nodup_nil
  · exact (nodup_order hs).sublist hran.sublist

end FragmentPhase

end Course

end StagedCodegen
