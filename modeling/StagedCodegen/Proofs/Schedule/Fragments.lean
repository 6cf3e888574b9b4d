import Mathlib.Data.List.Permutation
import StagedCodegen.Proofs.Schedule.Circles
import StagedCodegen.Proofs.Schedule.Ordering
import StagedCodegen.Proofs.Schedule.Registrations

/-!
# Schedules of fragments

When there is a schedule, which failure there is otherwise, and what the schedule is. The graph on
keys, which is searched for circles, and the links between registrations, which are ordered, come
together in `links_acyclic`: a circle of registrations is one of their keys.

Main statements: `fragments_eq_ok_iff`, `fragments_eq_unknown_iff` and
`exists_fragments_eq_circle_iff` for the three answers, `schedule_respects` for the order,
`schedule_answers` for all answers together, and `circle_is_walk` for what a reported circle is.
-/

namespace StagedCodegen

namespace Schedule

open Relation (TransGen)

variable {fs : List FragmentEntry} {s : FragmentSchedule} {i j : Nat} {key d : String}

/-! ## The graph on keys -/

/-- The search steps from key to key as registrations depend on them. -/
theorem leads_iff (hknown : AllKnown fs) :
    Leads (dependencies (active fs)) (keys (active fs)) key d ↔ DependsOn fs key d := by
  rw [Leads, mem_keys, mem_keys, mem_dependencies]
  refine ⟨fun h => h.2.2, fun h => ⟨h.registered, ?_, h⟩⟩
  obtain ⟨i, f, hf, -, hd⟩ := h
  exact hknown i f hf d hd

theorem circle?_active_eq_none_iff (hknown : AllKnown fs) :
    circle? (dependencies (active fs)) (keys (active fs)) = none ↔ Acyclic fs := by
  have hleads : Leads (dependencies (active fs)) (keys (active fs)) = DependsOn fs := by
    funext k d
    exact propext (leads_iff hknown)
  rw [circle?_eq_none_iff, hleads, Acyclic]

/-! ## The three answers -/

/-- If somebody depends on a key that nobody has, there is a first one. -/
theorem exists_firstUnknown (h : ¬AllKnown fs) : ∃ key d, FirstUnknown fs key d := by
  rcases hu : unknownDependency? (active fs) with _ | ⟨key, d⟩
  · exact absurd (unknownDependency?_eq_none_iff.1 hu) h
  · exact ⟨key, d, unknownDependency?_eq_some_iff.1 hu⟩

theorem FirstUnknown.not_allKnown (h : FirstUnknown fs key d) : ¬AllKnown fs := by
  obtain ⟨i, f, before, after, hf, -, hds, hd, -⟩ := h
  exact fun hknown => hd (hknown i f hf d (by simp [hds]))

theorem fragments_of_unknown (h : FirstUnknown fs key d) :
    fragments fs = .error (.unknownDependency key d) := by
  simp [fragments, unknownDependency?_eq_some_iff.2 h]

theorem fragments_of_acyclic (hknown : AllKnown fs) (hacyclic : Acyclic fs) :
    fragments fs = .ok ⟨order fs.length (active fs), superseded fs⟩ := by
  simp [fragments, unknownDependency?_eq_none_iff.2 hknown,
    (circle?_active_eq_none_iff hknown).2 hacyclic]

/-- If no dependency is unknown and the keys depend on each other in a circle, the failure shows
one. -/
theorem fragments_of_circle (hknown : AllKnown fs) (hcircle : ¬Acyclic fs) :
    ∃ walk, fragments fs = .error (.dependencyCycle walk) ∧
      IsCircle (dependencies (active fs)) (keys (active fs)) walk := by
  rcases hc : circle? (dependencies (active fs)) (keys (active fs)) with _ | walk
  · exact absurd ((circle?_active_eq_none_iff hknown).1 hc) hcircle
  · exact ⟨walk, by simp [fragments, unknownDependency?_eq_none_iff.2 hknown, hc],
      isCircle_of_circle? hc⟩

theorem fragments_eq_ok_iff : fragments fs = .ok s ↔
    AllKnown fs ∧ Acyclic fs ∧ s = ⟨order fs.length (active fs), superseded fs⟩ := by
  by_cases hknown : AllKnown fs
  · by_cases hacyclic : Acyclic fs
    · simp [fragments_of_acyclic hknown hacyclic, hknown, hacyclic, eq_comm]
    · obtain ⟨walk, hwalk, -⟩ := fragments_of_circle hknown hacyclic
      simp [hwalk, hacyclic]
  · obtain ⟨key, d, hu⟩ := exists_firstUnknown hknown
    simp [fragments_of_unknown hu, hknown]

theorem fragments_eq_unknown_iff :
    fragments fs = .error (.unknownDependency key d) ↔ FirstUnknown fs key d := by
  refine ⟨fun h => ?_, fragments_of_unknown⟩
  by_cases hknown : AllKnown fs
  · by_cases hacyclic : Acyclic fs
    · simp [fragments_of_acyclic hknown hacyclic] at h
    · obtain ⟨walk, hwalk, -⟩ := fragments_of_circle hknown hacyclic
      simp [hwalk] at h
  · obtain ⟨key', d', hu⟩ := exists_firstUnknown hknown
    rw [fragments_of_unknown hu] at h
    simp only [Except.error.injEq, Failure.unknownDependency.injEq] at h
    exact h.1 ▸ h.2 ▸ hu

theorem exists_fragments_eq_circle_iff :
    (∃ walk, fragments fs = .error (.dependencyCycle walk)) ↔ AllKnown fs ∧ ¬Acyclic fs := by
  constructor
  · rintro ⟨walk, h⟩
    by_cases hknown : AllKnown fs
    · refine ⟨hknown, fun hacyclic => ?_⟩
      simp [fragments_of_acyclic hknown hacyclic] at h
    · obtain ⟨key, d, hu⟩ := exists_firstUnknown hknown
      simp [fragments_of_unknown hu] at h
  · rintro ⟨hknown, hcircle⟩
    obtain ⟨walk, hwalk, -⟩ := fragments_of_circle hknown hcircle
    exact ⟨walk, hwalk⟩

/-! ## The order -/

theorem mem_links : (i, j) ∈ links (active fs) ↔
    ∃ f g, Runs fs i f ∧ Runs fs j g ∧ f.key ∈ g.dependsOn := by
  simp only [links, List.mem_flatMap, List.mem_map, List.mem_filter, List.mem_eraseDups,
    decide_eq_true_eq, Prod.mk.injEq]
  constructor
  · rintro ⟨⟨g, j⟩, hg, d, hd, ⟨f, i⟩, ⟨hf, rfl⟩, rfl, rfl⟩
    exact ⟨f, g, mem_active.1 hf, mem_active.1 hg, hd⟩
  · rintro ⟨f, g, hf, hg, hd⟩
    exact ⟨(g, j), mem_active.2 hg, f.key, hd, (f, i), ⟨mem_active.2 hf, rfl⟩, rfl, rfl⟩

theorem mem_indices : i ∈ (active fs).map (·.2) ↔ ∃ f, Runs fs i f := by
  simp [← mem_active]

theorem linked : Linked fs.length ((active fs).map (·.2)) (links (active fs)) where
  sorted := List.pairwise_map.2 (active_sorted fs)
  bounded i hi := by
    obtain ⟨f, hf⟩ := mem_indices.1 hi
    exact (List.getElem?_eq_some_iff.1 hf.1).1
  source := by
    rintro ⟨i, j⟩ hl
    obtain ⟨f, -, hf, -⟩ := mem_links.1 hl
    exact mem_indices.2 ⟨f, hf⟩
  target := by
    rintro ⟨i, j⟩ hl
    obtain ⟨-, g, -, hg, -⟩ := mem_links.1 hl
    exact mem_indices.2 ⟨g, hg⟩

/-- A circle of registrations is one of their keys. -/
theorem links_acyclic (h : Acyclic fs) (i : Nat) :
    ¬TransGen (fun i j => (i, j) ∈ links (active fs)) i i := by
  intro hi
  -- registrations go to their keys, and links to dependencies the other way round
  let keyAt : Nat → String := fun i => (fs[i]?.map (·.key)).getD ""
  have hstep : ∀ a b, (a, b) ∈ links (active fs) →
      Function.swap (DependsOn fs) (keyAt a) (keyAt b) := by
    intro a b hl
    obtain ⟨f, g, hf, hg, hd⟩ := mem_links.1 hl
    refine ⟨b, g, hg, ?_, ?_⟩
    · simp [keyAt, hg.1]
    · simpa [keyAt, hf.1] using hd
  exact h _ (Relation.transGen_swap.1 (hi.lift keyAt hstep))

/-- How far the ordering of those who run has come after `k` places. -/
def progress (fs : List FragmentEntry) (k : Nat) : Progress :=
  (start fs.length (active fs) (links (active fs))).run (links (active fs)) k

/-- Before any place is given out, the account is right. -/
theorem sound_start :
    Progress.Sound fs.length ((active fs).map (·.2)) (links (active fs)) (progress fs 0) := by
  have hdegrees : ∀ i < fs.length,
      (progress fs 0).degrees[i]? = some (waiting (links (active fs)) [] i) := by
    intro i hi
    simp [progress, Progress.run, start, waiting, hi]
  have hready : (progress fs 0).ready = ((active fs).map (·.2)).filter
      fun i => (progress fs 0).degrees[i]? = some 0 := rfl
  have horder : (progress fs 0).order = [] := rfl
  refine ⟨hdegrees, linked.sorted.sublist List.filter_sublist, fun i => ?_, ?_, ?_, ?_⟩
  · rw [hready, List.mem_filter]
    refine and_congr_right fun hi => ?_
    simp [horder, hdegrees i (linked.bounded i hi)]
  all_goals simp [horder]

/-- The account is right at every point of the ordering. -/
theorem sound_progress (fs : List FragmentEntry) (k : Nat) :
    Progress.Sound fs.length ((active fs).map (·.2)) (links (active fs)) (progress fs k) :=
  sound_start.run linked k

/-- The order gives everyone who runs one place. -/
theorem order_perm (h : Acyclic fs) :
    (order fs.length (active fs)).Perm ((active fs).map (·.2)) :=
  (sound_progress fs _).complete linked (sound_start.ready_run linked (by simp)) (links_acyclic h)

/-- Who runs stands after everyone whose key it depends on. -/
theorem idxOf_lt_of_dependsOn {f g : FragmentEntry} (hf : Runs fs i f) (hg : Runs fs j g)
    (hd : f.key ∈ g.dependsOn) (hj : j ∈ order fs.length (active fs)) :
    (order fs.length (active fs)).idxOf i < (order fs.length (active fs)).idxOf j := by
  obtain ⟨before, after, hsplit⟩ := List.append_of_mem hj
  have hsound := sound_progress fs (active fs).length
  have hi : i ∈ before := hsound.respects before j after hsplit (i, j)
    (mem_links.2 ⟨f, g, hf, hg, hd⟩) rfl
  have hnot : j ∉ before := by
    have hnodup : (before ++ j :: after).Nodup := hsplit ▸ hsound.nodup
    exact fun hmem => (List.nodup_append.1 hnodup).2.2 j hmem j (List.mem_cons_self ..) rfl
  rw [hsplit, List.idxOf_append_of_mem hi, List.idxOf_append_of_notMem hnot]
  exact Nat.lt_add_right _ (List.idxOf_lt_length_of_mem hi)

/-! ## Schedules -/

/-- **What a schedule is.** It orders just the registrations that run, each once; it lists the
registrations that give way to an override, in ascending order; and whoever runs comes after
somebody who runs under each key that it depends on, and after everyone who does. -/
theorem schedule_respects (h : fragments fs = .ok s) :
    (s.order.Nodup ∧ ∀ i, i ∈ s.order ↔ ∃ f, Runs fs i f) ∧
    (s.superseded.Pairwise (· < ·) ∧
      ∀ i, i ∈ s.superseded ↔ ∃ f, fs[i]? = some f ∧ f.mode = .extend ∧ Overridden fs f.key) ∧
    ∀ i ∈ s.order, ∀ f, fs[i]? = some f → ∀ d ∈ f.dependsOn,
      (∃ j g, Runs fs j g ∧ g.key = d) ∧
      ∀ j g, Runs fs j g → g.key = d → s.order.idxOf j < s.order.idxOf i := by
  obtain ⟨hknown, hacyclic, rfl⟩ := fragments_eq_ok_iff.1 h
  have hmem : ∀ i, i ∈ order fs.length (active fs) ↔ ∃ f, Runs fs i f := fun i =>
    (order_perm hacyclic).mem_iff.trans mem_indices
  refine ⟨⟨(sound_progress fs _).nodup, hmem⟩, ⟨superseded_sorted, fun i => mem_superseded⟩, ?_⟩
  intro i hi f hf d hd
  obtain ⟨f', hf'⟩ := (hmem i).1 hi
  obtain rfl : f = f' := Option.some.inj (hf.symm.trans hf'.1)
  refine ⟨registered_iff.1 (hknown i f hf' d hd), ?_⟩
  rintro j g hg rfl
  exact idxOf_lt_of_dependsOn hg hf' hd hi

/-- Two registrations share a key, one is overridden, and the first depends on what comes last. -/
theorem schedule_respects_shared :
    let fs : List FragmentEntry :=
      [⟨"plan", ["books", "meta", "books"], .extend, none⟩, ⟨"books", [], .extend, none⟩,
        ⟨"meta", ["gone"], .extend, none⟩, ⟨"meta", ["books"], .override, none⟩,
        ⟨"books", [], .extend, none⟩]
    fragments fs = .ok ⟨[1, 4, 3, 0], [2]⟩ ∧
      ∀ j g, Runs fs j g → g.key = "books" →
        [1, 4, 3, 0].idxOf j < [1, 4, 3, 0].idxOf 0 := by
  intro fs
  have h : fragments fs = .ok ⟨[1, 4, 3, 0], [2]⟩ := by cbv
  exact ⟨h, ((schedule_respects h).2.2 0 (by simp) _ rfl "books" (by simp)).2⟩

/-- **Which answer there is.** There is a schedule exactly when every dependency of those who run is
registered and the keys depend on each other in no circle. A dependency on nobody is reported first,
and of several the first in the order of registration; a circle is reported when there is none. -/
theorem schedule_answers (fs : List FragmentEntry) :
    ((∃ s, fragments fs = .ok s) ↔ AllKnown fs ∧ Acyclic fs) ∧
    ((∃ key d, FirstUnknown fs key d) ↔ ¬AllKnown fs) ∧
    (∀ key d, fragments fs = .error (.unknownDependency key d) ↔ FirstUnknown fs key d) ∧
    ((∃ walk, fragments fs = .error (.dependencyCycle walk)) ↔ AllKnown fs ∧ ¬Acyclic fs) := by
  refine ⟨?_, ⟨fun ⟨_, _, hu⟩ => hu.not_allKnown, exists_firstUnknown⟩, fun key d => ?_, ?_⟩
  · simp [fragments_eq_ok_iff]
  · exact fragments_eq_unknown_iff
  · exact exists_fragments_eq_circle_iff

/-! ## Circles -/

theorem isCircle_of_fragments {walk : List String}
    (h : fragments fs = .error (.dependencyCycle walk)) :
    IsCircle (dependencies (active fs)) (keys (active fs)) walk := by
  obtain ⟨hknown, hcircle⟩ := exists_fragments_eq_circle_iff.1 ⟨walk, h⟩
  obtain ⟨walk', hwalk', hreport⟩ := fragments_of_circle hknown hcircle
  obtain rfl : walk = walk' := by
    rw [h] at hwalk'
    injection hwalk' with hfailure
    injection hfailure
  exact hreport

/-- **What a reported circle is.** It is a walk of two keys or more that ends with the key that it
begins with and has no other key twice, and under each of its keys somebody runs who depends on the
key after it. -/
theorem circle_is_walk {walk : List String} (h : fragments fs = .error (.dependencyCycle walk)) :
    2 ≤ walk.length ∧ walk.head? = walk.getLast? ∧ walk.dropLast.Nodup ∧
      walk.IsChain (DependsOn fs) := by
  obtain ⟨hknown, -⟩ := exists_fragments_eq_circle_iff.1 ⟨walk, h⟩
  obtain ⟨⟨k, between, rfl⟩, hsimple, hchain⟩ := isCircle_of_fragments h
  refine ⟨?_, ?_, hsimple, hchain.imp fun a b => (leads_iff hknown).1⟩
  · rw [List.length_append, List.length_cons, List.length_singleton]
    omega
  · rw [List.getLast?_concat, List.cons_append, List.head?_cons]

/-- The walk from the first registration goes down into a circle that it is no part of, past a key
that the search is done with; an extension that closes another circle is overridden. -/
theorem circle_is_walk_inner :
    let fs : List FragmentEntry :=
      [⟨"plan", ["meta", "books"], .extend, none⟩, ⟨"meta", [], .override, none⟩,
        ⟨"books", ["meta", "films"], .extend, none⟩, ⟨"meta", ["plan"], .extend, none⟩,
        ⟨"films", ["meta", "books", "plan"], .extend, none⟩]
    let walk := ["books", "films", "books"]
    fragments fs = .error (.dependencyCycle walk) ∧ 2 ≤ walk.length ∧
      walk.head? = walk.getLast? ∧ walk.dropLast.Nodup ∧ walk.IsChain (DependsOn fs) := by
  intro fs walk
  have h : fragments fs = .error (.dependencyCycle walk) := by cbv
  exact ⟨h, circle_is_walk h⟩

end Schedule

end StagedCodegen
