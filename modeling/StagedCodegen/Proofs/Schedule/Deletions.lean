import Mathlib.Data.List.Induction
import Mathlib.Data.List.Sort
import StagedCodegen.Proofs.Schedule.Earliest

/-!
# Registrations that can be left out

Extensions on which nobody who stays depends can be deleted from a list of registrations: there is a
schedule as before, the others keep their order in it, and their indices close up. The run on the
shorter list is not followed beside that on the longer one. What is left of a greedy order is greedy
again, since whoever stays waits for nobody who goes (`Dispensable.greedy`), and no two greedy
orders respect the same links (`Greedy.unique`).

Main statements: `fragments_eraseIdx` for a fragment on which nobody depends, and
`fragments_delete_superseded` for all that give way to overrides, on which nobody can depend, since
they do not run. Both are cases of `Dispensable.fragments_eq`.
-/

namespace StagedCodegen

namespace Schedule

variable {fs gs : List FragmentEntry} {s : FragmentSchedule} {f g e : FragmentEntry}
  {gone is : List Nat} {i j : Nat} {key d : String}

/-! ## Indices that close up -/

/-- The index of a registration once others are deleted: there is one less for each before it. -/
def renumbered (gone : List Nat) (i : Nat) : Nat := i - gone.countP (· < i)

/-- What is left of a list of indices. -/
def remaining (gone is : List Nat) : List Nat := (is.filter (· ∉ gone)).map (renumbered gone)

theorem countP_lt_le (h : gone.Nodup) (i : Nat) : gone.countP (· < i) ≤ i := by
  have hsub : gone.filter (· < i) ⊆ List.range i := fun k hk => by
    simpa using (List.mem_filter.1 hk).2
  rw [List.countP_eq_length_filter]
  simpa using (List.subperm_of_subset (h.filter _) hsub).length_le

theorem renumbered_succ (h : gone.Nodup) (i : Nat) :
    renumbered gone (i + 1) = renumbered gone i + if i ∈ gone then 0 else 1 := by
  have hcount : gone.countP (· < i + 1) = gone.countP (· < i) + gone.count i := by
    clear h
    induction gone with
    | nil => rfl
    | cons k gone ih =>
      rw [List.countP_cons, List.countP_cons, List.count_cons, ih]
      rcases Nat.lt_trichotomy k i with hk | rfl | hk
      · simp [hk, hk.ne, Nat.lt_succ_of_lt hk]
        omega
      · simp
        omega
      · simp [Nat.not_lt.2 hk.le, hk.ne', show ¬k < i + 1 by omega]
  have hle := countP_lt_le h i
  rw [renumbered, renumbered, hcount, h.count]
  split <;> omega

theorem renumbered_lt (h : gone.Nodup) (hi : i ∉ gone) (hij : i < j) :
    renumbered gone i < renumbered gone j := by
  have hmono : Monotone (renumbered gone) := monotone_nat_of_le_succ fun k => by
    rw [renumbered_succ h]
    exact Nat.le_add_right _ _
  have hstep := renumbered_succ h i
  rw [if_neg hi] at hstep
  have := hmono (Nat.succ_le_of_lt hij)
  rw [Nat.succ_eq_add_one] at this
  omega

theorem renumbered_inj (h : gone.Nodup) (hi : i ∉ gone) (hj : j ∉ gone) :
    renumbered gone i = renumbered gone j ↔ i = j := by
  refine ⟨fun heq => ?_, congrArg _⟩
  rcases Nat.lt_trichotomy i j with hlt | rfl | hlt
  · exact absurd heq (renumbered_lt h hi hlt).ne
  · rfl
  · exact absurd heq (renumbered_lt h hj hlt).ne'

theorem mem_remaining : j ∈ remaining gone is ↔ ∃ i ∈ is, i ∉ gone ∧ renumbered gone i = j := by
  simp [remaining, and_assoc]

theorem renumbered_mem_remaining (h : gone.Nodup) (hi : i ∉ gone) :
    renumbered gone i ∈ remaining gone is ↔ i ∈ is := by
  rw [mem_remaining]
  constructor
  · rintro ⟨k, hk, hgone, heq⟩
    rwa [← (renumbered_inj h hgone hi).1 heq]
  · exact fun hmem => ⟨i, hmem, hi, rfl⟩

theorem nodup_remaining (h : gone.Nodup) (his : is.Nodup) : (remaining gone is).Nodup := by
  refine (List.nodup_map_iff_inj_on (his.filter _)).2 fun i hi j hj heq => ?_
  have hgone : ∀ {k}, k ∈ is.filter (· ∉ gone) → k ∉ gone := fun hk => by
    simpa using (List.mem_filter.1 hk).2
  exact (renumbered_inj h (hgone hi) (hgone hj)).1 heq

theorem pairwise_remaining (h : gone.Nodup) (his : is.Pairwise (· < ·)) :
    (remaining gone is).Pairwise (· < ·) := by
  refine List.pairwise_map.2 ((his.filter _).imp_of_mem fun hi _ hlt => ?_)
  exact renumbered_lt h (by simpa using (List.mem_filter.1 hi).2) hlt

theorem remaining_eq_map (h : ∀ i ∈ is, i ∉ gone) :
    remaining gone is = is.map (renumbered gone) := by
  rw [remaining, List.filter_eq_self.2 fun i hi => decide_eq_true (h i hi)]

theorem remaining_self (gone : List Nat) : remaining gone gone = [] := by
  simp [remaining]

/-- Where what is left is divided, the whole can be divided. -/
theorem exists_split_of_remaining {before after : List Nat}
    (h : remaining gone is = before ++ j :: after) : ∃ l i r, is = l ++ i :: r ∧
      remaining gone l = before ∧ i ∉ gone ∧ renumbered gone i = j := by
  obtain ⟨l, r, hfilter, hl, hr⟩ := List.map_eq_append_iff.1 h
  obtain ⟨i, r', rfl, hi, -⟩ := List.map_eq_cons_iff.1 hr
  obtain ⟨l', r'', rfl, hl', hr'⟩ := List.filter_eq_append_iff.1 hfilter
  obtain ⟨skipped, r''', rfl, hskipped, hkept, -⟩ := List.filter_eq_cons_iff.1 hr'
  refine ⟨l' ++ skipped, i, r''', by simp, ?_, by simpa using hkept, hi⟩
  have hnone : skipped.filter (· ∉ gone) = [] := List.filter_eq_nil_iff.2 hskipped
  rw [remaining, List.filter_append, hnone, List.append_nil, hl', hl]

/-! ## Registrations that are deleted -/

/-- The registrations other than those with the given indices. -/
def delete (gone : List Nat) (fs : List FragmentEntry) : List FragmentEntry :=
  (fs.zipIdx.filter (·.2 ∉ gone)).map (·.1)

theorem delete_concat : delete gone (fs ++ [e]) =
    delete gone fs ++ if fs.length ∈ gone then [] else [e] := by
  rw [delete, delete, List.zipIdx_append, List.filter_append, List.map_append]
  by_cases h : fs.length ∈ gone <;> simp [h]

theorem length_delete (h : gone.Nodup) : (delete gone fs).length = renumbered gone fs.length := by
  induction fs using List.reverseRecOn with
  | nil => simp [delete, renumbered]
  | append_singleton fs e ih =>
    rw [delete_concat, List.length_append, ih, List.length_append, List.length_singleton,
      renumbered_succ h]
    split <;> rfl

theorem getElem?_concat_eq_some_iff :
    (fs ++ [e])[i]? = some f ↔ fs[i]? = some f ∨ i = fs.length ∧ e = f := by
  rcases Nat.lt_trichotomy i fs.length with hlt | rfl | hlt
  · simp [List.getElem?_append_left hlt, hlt.ne]
  · simp
  · rw [List.getElem?_append_right hlt.le, List.getElem?_eq_none (l := [e]) (by simp; omega)]
    simp [hlt.ne', List.getElem?_eq_none hlt.le]

/-- Who is left, and where. -/
theorem getElem?_delete_eq_some_iff (h : gone.Nodup) : (delete gone fs)[j]? = some f ↔
    ∃ i, i ∉ gone ∧ fs[i]? = some f ∧ renumbered gone i = j := by
  induction fs using List.reverseRecOn with
  | nil => simp [delete]
  | append_singleton fs e ih =>
    have hlast : (∃ i, i ∉ gone ∧ (i = fs.length ∧ e = f) ∧ renumbered gone i = j) ↔
        fs.length ∉ gone ∧ j = renumbered gone fs.length ∧ e = f := by
      constructor
      · rintro ⟨i, hi, ⟨rfl, he⟩, hj⟩
        exact ⟨hi, hj.symm, he⟩
      · rintro ⟨hi, hj, he⟩
        exact ⟨fs.length, hi, ⟨rfl, he⟩, hj.symm⟩
    simp only [getElem?_concat_eq_some_iff, or_and_right, and_or_left, exists_or, ← ih, hlast,
      delete_concat]
    by_cases hgone : fs.length ∈ gone
    · simp [hgone]
    · rw [if_neg hgone, getElem?_concat_eq_some_iff, length_delete h]
      simp [hgone]

theorem mem_delete (h : gone.Nodup) :
    f ∈ delete gone fs ↔ ∃ i, i ∉ gone ∧ fs[i]? = some f := by
  rw [List.mem_iff_getElem?]
  simp only [getElem?_delete_eq_some_iff h]
  exact ⟨fun ⟨_, i, hi, hf, _⟩ => ⟨i, hi, hf⟩, fun ⟨i, hi, hf⟩ => ⟨_, i, hi, hf, rfl⟩⟩

theorem nodup_superseded (fs : List FragmentEntry) : (superseded fs).Nodup :=
  superseded_sorted.imp fun hlt => Nat.ne_of_lt hlt

/-! ## Who can be left out -/

/-- Extensions that can be left out: nobody who runs and stays depends on one of them that runs. -/
structure Dispensable (fs : List FragmentEntry) (gone : List Nat) : Prop where
  /-- Nobody goes twice. -/
  nodup : gone.Nodup
  /-- No override goes. -/
  extend : ∀ i ∈ gone, ∀ f, fs[i]? = some f → f.mode = .extend
  /-- Whoever depends on somebody who goes does so as well. -/
  closed : ∀ i j f g, Runs fs i f → Runs fs j g → f.key ∈ g.dependsOn → i ∈ gone → j ∈ gone

namespace Dispensable

variable (h : Dispensable fs gone)
include h

theorem overridden_iff : Overridden (delete gone fs) key ↔ Overridden fs key := by
  constructor
  · rintro ⟨o, ho, hmode, hkey⟩
    obtain ⟨i, -, hi⟩ := (mem_delete h.nodup).1 ho
    exact ⟨o, List.mem_of_getElem? hi, hmode, hkey⟩
  · rintro ⟨o, ho, hmode, hkey⟩
    obtain ⟨i, hi⟩ := List.getElem?_of_mem ho
    have hstays : i ∉ gone := fun hgone =>
      HelperMode.noConfusion (hmode.symm.trans (h.extend i hgone o hi))
    exact ⟨o, (mem_delete h.nodup).2 ⟨i, hstays, hi⟩, hmode, hkey⟩

/-- Those who run afterwards are those who stay, of those who ran before. -/
theorem runs_iff : Runs (delete gone fs) j f ↔
    ∃ i, i ∉ gone ∧ Runs fs i f ∧ renumbered gone i = j := by
  rw [Runs, getElem?_delete_eq_some_iff h.nodup, h.overridden_iff]
  simp only [Runs]
  grind

theorem allKnown (hknown : AllKnown fs) : AllKnown (delete gone fs) := by
  intro j g hg d hd
  obtain ⟨i, hi, hg, -⟩ := h.runs_iff.1 hg
  obtain ⟨k, f, hf, rfl⟩ := registered_iff.1 (hknown i g hg d hd)
  have hk : k ∉ gone := fun hgone => hi (h.closed k i f g hf hg hd hgone)
  exact registered_iff.2 ⟨_, f, h.runs_iff.2 ⟨k, hk, hf, rfl⟩, rfl⟩

theorem acyclic (hacyclic : Acyclic fs) : Acyclic (delete gone fs) := by
  intro k hk
  refine hacyclic k (Relation.TransGen.mono ?_ k k hk)
  rintro a b ⟨j, f, hf, hkey, hd⟩
  obtain ⟨i, -, hf, -⟩ := h.runs_iff.1 hf
  exact ⟨i, f, hf, hkey, hd⟩

/-! ## The order that is left -/

theorem mem_indices_iff : j ∈ (active (delete gone fs)).map (·.2) ↔
    j ∈ remaining gone ((active fs).map (·.2)) := by
  rw [mem_remaining, mem_indices]
  simp only [h.runs_iff, mem_indices]
  grind

/-- Links between those who stay are links afterwards, and there are no others. -/
theorem mem_links_iff (hi : i ∉ gone) (hj : j ∉ gone) :
    (renumbered gone i, renumbered gone j) ∈ links (active (delete gone fs)) ↔
      (i, j) ∈ links (active fs) := by
  simp only [mem_links, h.runs_iff]
  constructor
  · rintro ⟨f, g, ⟨k, hk, hf, hki⟩, ⟨l, hl, hg, hlj⟩, hd⟩
    obtain rfl := (renumbered_inj h.nodup hk hi).1 hki
    obtain rfl := (renumbered_inj h.nodup hl hj).1 hlj
    exact ⟨f, g, hf, hg, hd⟩
  · rintro ⟨f, g, hf, hg, hd⟩
    exact ⟨f, g, ⟨i, hi, hf, rfl⟩, ⟨j, hj, hg, rfl⟩, hd⟩

theorem exists_of_link {l : Nat × Nat} (hl : l ∈ links (active (delete gone fs))) :
    ∃ i j, i ∉ gone ∧ j ∉ gone ∧ l = (renumbered gone i, renumbered gone j) := by
  obtain ⟨f, g, hf, hg, -⟩ := mem_links.1 hl
  obtain ⟨i, hi, -, hli⟩ := h.runs_iff.1 hf
  obtain ⟨j, hj, -, hlj⟩ := h.runs_iff.1 hg
  exact ⟨i, j, hi, hj, Prod.ext hli.symm hlj.symm⟩

theorem perm (horder : is.Perm ((active fs).map (·.2))) :
    (remaining gone is).Perm ((active (delete gone fs)).map (·.2)) := by
  have hsorted {fs : List FragmentEntry} : ((active fs).map (·.2)).Nodup :=
    linked.sorted.imp fun hlt => Nat.ne_of_lt hlt
  refine (List.perm_ext_iff_of_nodup (nodup_remaining h.nodup ?_) hsorted).2 fun j => ?_
  · exact horder.nodup_iff.2 hsorted
  · rw [h.mem_indices_iff, mem_remaining, mem_remaining]
    simp only [horder.mem_iff]

theorem forward (hforward : Forward (links (active fs)) is) :
    Forward (links (active (delete gone fs))) (remaining gone is) := by
  rintro before _ after hsplit l hl rfl
  obtain ⟨l', j, r, rfl, rfl, hj, hlj⟩ := exists_split_of_remaining hsplit
  obtain ⟨i, k, hi, hk, rfl⟩ := h.exists_of_link hl
  obtain rfl := (renumbered_inj h.nodup hj hk).1 hlj
  have hlink := (h.mem_links_iff hi hk).1 hl
  exact (renumbered_mem_remaining h.nodup hi).2 (hforward l' j r rfl (i, j) hlink rfl)

/-- Whoever stays waits for nobody who goes, so who could take a place among those who stay could
have taken it among all. -/
theorem greedy (hgreedy : Greedy ((active fs).map (·.2)) (links (active fs)) is) :
    Greedy ((active (delete gone fs)).map (·.2)) (links (active (delete gone fs)))
      (remaining gone is) := by
  intro before _ after hsplit _ hnode hplace hfree
  obtain ⟨l, i, r, rfl, rfl, hi, rfl⟩ := exists_split_of_remaining hsplit
  obtain ⟨j, hmem, hj, rfl⟩ := mem_remaining.1 (h.mem_indices_iff.1 hnode)
  rw [renumbered_mem_remaining h.nodup hj] at hplace
  have hfree' : waiting (links (active fs)) l j = 0 := by
    refine waiting_eq_zero_iff.2 ?_
    rintro ⟨k, j⟩ hl rfl
    obtain ⟨f, g, hf, hg, hd⟩ := mem_links.1 hl
    have hk : k ∉ gone := fun hgone => hj (h.closed k _ f g hf hg hd hgone)
    have hlink := (h.mem_links_iff hk hj).2 hl
    exact (renumbered_mem_remaining h.nodup hk).1 (waiting_eq_zero_iff.1 hfree _ hlink rfl)
  rcases (hgreedy l i r rfl j hmem hplace hfree').eq_or_lt with rfl | hlt
  · exact le_rfl
  · exact (renumbered_lt h.nodup hi hlt).le

theorem order_eq (hacyclic : Acyclic fs) :
    order (delete gone fs).length (active (delete gone fs)) =
      remaining gone (order fs.length (active fs)) :=
  greedy_order.unique (h.greedy greedy_order)
    (linked.sorted.imp fun hlt => Nat.ne_of_lt hlt) (order_perm (h.acyclic hacyclic))
    (h.perm (order_perm hacyclic)) (respects_order (h.acyclic hacyclic)).forward
    (h.forward (respects_order hacyclic).forward)

theorem superseded_eq : superseded (delete gone fs) = remaining gone (superseded fs) := by
  have hsorted : (remaining gone (superseded fs)).Pairwise (· < ·) :=
    pairwise_remaining h.nodup superseded_sorted
  refine superseded_sorted.eq_of_mem_iff hsorted fun j => ?_
  rw [mem_superseded, mem_remaining]
  simp only [getElem?_delete_eq_some_iff h.nodup, h.overridden_iff, mem_superseded]
  constructor
  · rintro ⟨f, ⟨i, hi, hf, hij⟩, hover⟩
    exact ⟨i, ⟨f, hf, hover⟩, hi, hij⟩
  · rintro ⟨i, ⟨f, hf, hover⟩, hi, hij⟩
    exact ⟨f, ⟨i, hi, hf, hij⟩, hover⟩

/-- What can be left out leaves the others in their order. -/
theorem fragments_eq (hs : fragments fs = .ok s) : fragments (delete gone fs) =
    .ok ⟨remaining gone s.order, remaining gone s.superseded⟩ := by
  obtain ⟨hknown, hacyclic, rfl⟩ := fragments_eq_ok_iff.1 hs
  rw [fragments_of_acyclic (h.allKnown hknown) (h.acyclic hacyclic), h.order_eq hacyclic,
    h.superseded_eq]

end Dispensable

/-! ## A fragment on which nobody depends -/

theorem renumbered_singleton (i j : Nat) : renumbered [i] j = if i < j then j - 1 else j := by
  by_cases h : i < j <;> simp [renumbered, h]

/-- Who is left without one of a list, and where. -/
theorem getElem?_eraseIdx_eq_some_iff {α : Type} {xs : List α} {x : α} :
    (xs.eraseIdx i)[j]? = some x ↔ ∃ k, k ≠ i ∧ xs[k]? = some x ∧ renumbered [i] k = j := by
  simp only [List.getElem?_eraseIdx, renumbered_singleton]
  constructor
  · intro hx
    split at hx
    · next hlt => exact ⟨j, hlt.ne, hx, if_neg hlt.not_gt⟩
    · next hge => exact ⟨j + 1, by omega, hx, if_pos (by omega)⟩
  · rintro ⟨k, hki, hk, rfl⟩
    rcases Nat.lt_or_gt_of_ne hki with hlt | hgt
    · rw [if_neg hlt.not_gt, if_pos hlt, hk]
    · rw [if_pos hgt, if_neg (by omega), Nat.sub_add_cancel (by omega), hk]

theorem delete_singleton (fs : List FragmentEntry) (i : Nat) :
    delete [i] fs = fs.eraseIdx i := by
  refine List.ext_getElem? fun j => Option.ext fun f => ?_
  rw [getElem?_delete_eq_some_iff (List.nodup_singleton i), getElem?_eraseIdx_eq_some_iff]
  simp only [List.mem_singleton, ne_eq]

theorem remaining_singleton (h : is.Nodup) (i : Nat) :
    remaining [i] is = (is.erase i).map fun j => if i < j then j - 1 else j := by
  rw [remaining, h.erase_eq_filter, funext (renumbered_singleton i)]
  congr 1
  refine List.filter_congr fun j _ => ?_
  by_cases hj : j = i <;> simp [hj]

/-- **Nobody is reordered.** If a list of registrations is accepted, so is the list without an
extension that runs and on whose key nobody who runs depends. The schedule is the same without that
registration, and the indices after it are less by one. -/
theorem fragments_eraseIdx (h : fragments fs = .ok s) (hf : Runs fs i f) (hmode : f.mode = .extend)
    (hleaf : ∀ j g, Runs fs j g → f.key ∉ g.dependsOn) :
    fragments (fs.eraseIdx i) =
      .ok ⟨(s.order.erase i).map fun j => if i < j then j - 1 else j,
        (s.superseded.erase i).map fun j => if i < j then j - 1 else j⟩ := by
  have hgone : Dispensable fs [i] := by
    refine ⟨List.nodup_singleton i, fun k hk f' hf' => ?_, fun k j f' g hf' hg hd hk => ?_⟩
    · obtain rfl := List.mem_singleton.1 hk
      obtain rfl := Option.some.inj (hf.1.symm.trans hf')
      exact hmode
    · obtain rfl := List.mem_singleton.1 hk
      obtain rfl := Option.some.inj (hf.1.symm.trans hf'.1)
      exact absurd hd (hleaf j g hg)
  obtain ⟨-, hacyclic, rfl⟩ := fragments_eq_ok_iff.1 h
  rw [← delete_singleton, hgone.fragments_eq h,
    remaining_singleton (respects_order hacyclic).nodup,
    remaining_singleton (nodup_superseded fs)]

/-- A fragment in the middle of the order goes, which depends on somebody and shares its key, and
only somebody who gives way depends on that. -/
theorem fragments_eraseIdx_between :
    let f : FragmentEntry := ⟨"books", ["meta"], .extend, none⟩
    let fs : List FragmentEntry :=
      [⟨"plan", ["meta"], .extend, none⟩, f, ⟨"meta", [], .extend, none⟩,
        ⟨"books", [], .extend, none⟩, ⟨"films", ["books"], .extend, none⟩,
        ⟨"films", [], .override, none⟩]
    fragments fs = .ok ⟨[2, 0, 1, 3, 5], [4]⟩ ∧ Runs fs 1 f ∧ f.mode = .extend ∧
      (∀ j g, Runs fs j g → f.key ∉ g.dependsOn) ∧
      fragments (fs.eraseIdx 1) = .ok ⟨[1, 0, 2, 4], [3]⟩ := by
  intro f fs
  have h : fragments fs = .ok ⟨[2, 0, 1, 3, 5], [4]⟩ := by cbv
  have hf : Runs fs 1 f := mem_active.1 (by decide)
  have hall : ∀ e ∈ active fs, f.key ∉ e.1.dependsOn := by decide
  have hleaf : ∀ j g, Runs fs j g → f.key ∉ g.dependsOn := fun j g hg =>
    hall (g, j) (mem_active.2 hg)
  exact ⟨h, hf, rfl, hleaf, fragments_eraseIdx h hf rfl hleaf⟩

/-! ## Those who give way -/

theorem unknownDependency?_congr {xs ys : List (FragmentEntry × Nat)}
    (h : xs.map (·.1) = ys.map (·.1)) : unknownDependency? xs = unknownDependency? ys := by
  have hentries : ∀ zs : List (FragmentEntry × Nat), unknownDependency? zs =
      (zs.map (·.1)).findSome? fun f =>
        (f.dependsOn.find? fun d => !(zs.map (·.1)).any (·.key == d)).map (f.key, ·) := by
    intro zs
    simp [unknownDependency?, List.findSome?_map, List.any_map, Function.comp_def]
  rw [hentries, hentries, h]

theorem keys_congr {xs ys : List (FragmentEntry × Nat)} (h : xs.map (·.1) = ys.map (·.1)) :
    keys xs = keys ys := by
  have hentries : ∀ zs : List (FragmentEntry × Nat),
      keys zs = ((zs.map (·.1)).map (·.key)).eraseDups := fun zs => by
    rw [keys, List.map_map]
    rfl
  rw [hentries, hentries, h]

theorem dependencies_congr {xs ys : List (FragmentEntry × Nat)}
    (h : xs.map (·.1) = ys.map (·.1)) : dependencies xs = dependencies ys := by
  have hentries : ∀ zs : List (FragmentEntry × Nat), dependencies zs = fun key =>
      (((zs.map (·.1)).filter (·.key = key)).flatMap (·.dependsOn)).eraseDups := by
    intro zs
    funext key
    rw [dependencies, List.filter_map, List.flatMap_map]
    rfl
  rw [hentries, hentries, h]

/-- Failures are told by who runs, whatever the indices are. -/
theorem fragments_error_congr {failure : Failure}
    (h : (active fs).map (·.1) = (active gs).map (·.1)) (hfs : fragments fs = .error failure) :
    fragments gs = .error failure := by
  unfold fragments at hfs ⊢
  simp only [← unknownDependency?_congr h, ← keys_congr h, ← dependencies_congr h] at hfs ⊢
  split at hfs
  · exact hfs
  · split at hfs
    · exact hfs
    · cases hfs

/-- Who gives way does not run, so nobody waits for them. -/
theorem dispensable_superseded (fs : List FragmentEntry) : Dispensable fs (superseded fs) where
  nodup := nodup_superseded fs
  extend i hi f hf := by
    obtain ⟨f', hf', hmode, -⟩ := mem_superseded.1 hi
    rwa [← Option.some.inj (hf'.symm.trans hf)]
  closed i j f g hf _ _ hi := by
    obtain ⟨f', hf', hover⟩ := mem_superseded.1 hi
    obtain rfl := Option.some.inj (hf.1.symm.trans hf')
    exact absurd hover hf.2

theorem map_fst_active_delete (fs : List FragmentEntry) :
    (active (delete (superseded fs) fs)).map (·.1) = (active fs).map (·.1) := by
  have hall : active (delete (superseded fs) fs) = (delete (superseded fs) fs).zipIdx := by
    refine List.filter_eq_self.2 ?_
    rintro ⟨f, j⟩ hf
    obtain ⟨i, hi, hf⟩ := (mem_delete (nodup_superseded fs)).1 (List.fst_mem_of_mem_zipIdx hf)
    rw [Bool.not_eq_true', ← Bool.not_eq_true, isSuperseded_iff,
      (dispensable_superseded fs).overridden_iff]
    exact fun hover => hi (mem_superseded.2 ⟨f, hf, hover⟩)
  rw [hall, List.zipIdx_map_fst, delete, active]
  congr 1
  refine List.filter_congr ?_
  rintro ⟨f, i⟩ hf
  rw [List.mem_zipIdx_iff_getElem?] at hf
  rw [Bool.eq_iff_iff, decide_eq_true_iff, mem_superseded, Bool.not_eq_true', ← Bool.not_eq_true,
    isSuperseded_iff]
  refine not_congr ⟨?_, fun hover => ⟨f, hf, hover⟩⟩
  rintro ⟨f', hf', hover⟩
  rwa [Option.some.inj (hf.symm.trans hf')]

/-- **Who gives way has no influence.** Without the registrations that give way to overrides, the
answer is the same, but that nobody gives way and that the indices close up: the same failure, or
the others in the same order. -/
theorem fragments_delete_superseded (fs : List FragmentEntry) :
    fragments (delete (superseded fs) fs) =
      (fragments fs).map fun s => ⟨s.order.map (renumbered s.superseded), []⟩ := by
  rcases hfs : fragments fs with failure | s
  · exact fragments_error_congr (map_fst_active_delete fs).symm hfs
  · rw [(dispensable_superseded fs).fragments_eq hfs]
    obtain ⟨-, hacyclic, rfl⟩ := fragments_eq_ok_iff.1 hfs
    have hstay : ∀ i ∈ order fs.length (active fs), i ∉ superseded fs := by
      intro i hi hgone
      obtain ⟨f, hf⟩ := mem_indices.1 ((order_perm hacyclic).mem_iff.1 hi)
      obtain ⟨f', hf', hover⟩ := mem_superseded.1 hgone
      obtain rfl := Option.some.inj (hf.1.symm.trans hf')
      exact hf.2 hover
    rw [remaining_eq_map hstay, remaining_self]
    rfl

end Schedule

end StagedCodegen
