import Mathlib.Logic.Relation
import StagedCodegen.Schedule

/-!
# Registrations and their keys

Who runs and who depends on whom, said of the list of registrations itself: `Runs` and `Overridden`
for the single registration, `DependsOn` for the graph on keys, `Registered` for its nodes. The
lists that a schedule is made from are tied to these notions (`mem_active`, `mem_superseded`,
`mem_dependencies`), and so is its first check (`unknownDependency?_eq_none_iff`,
`unknownDependency?_eq_some_iff`).
-/

namespace StagedCodegen

namespace Schedule

variable {fs : List FragmentEntry} {f : FragmentEntry} {i : Nat} {key d : String}

/-! ## Who runs -/

/-- Some registration of the key is an override. -/
def Overridden (fs : List FragmentEntry) (key : String) : Prop :=
  ∃ g ∈ fs, g.mode = .override ∧ g.key = key

/-- The registration with this index runs: it is no extension of an overridden key. -/
def Runs (fs : List FragmentEntry) (i : Nat) (f : FragmentEntry) : Prop :=
  fs[i]? = some f ∧ ¬(f.mode = .extend ∧ Overridden fs f.key)

/-- Somebody has registered under the key. -/
def Registered (fs : List FragmentEntry) (key : String) : Prop := ∃ g ∈ fs, g.key = key

theorem isOverridden_iff : isOverridden fs key = true ↔ Overridden fs key := by
  simp [isOverridden, Overridden]

theorem isSuperseded_iff :
    isSuperseded fs f = true ↔ f.mode = .extend ∧ Overridden fs f.key := by
  simp [isSuperseded, isOverridden_iff]

theorem mem_active : (f, i) ∈ active fs ↔ Runs fs i f := by
  simp [active, Runs, List.mem_zipIdx_iff_getElem?, ← isSuperseded_iff]

theorem mem_superseded :
    i ∈ superseded fs ↔ ∃ f, fs[i]? = some f ∧ f.mode = .extend ∧ Overridden fs f.key := by
  simp [superseded, List.mem_zipIdx_iff_getElem?, isSuperseded_iff]

/-- Two registrations that run have different indices, and the list of them goes by index. -/
theorem active_sorted (fs : List FragmentEntry) :
    (active fs).Pairwise fun a b => a.2 < b.2 := by
  have h : (fs.zipIdx.map (·.2)).Pairwise (· < ·) := by
    rw [List.zipIdx_map_snd]
    exact List.pairwise_lt_range'
  exact (List.pairwise_map.1 h).sublist List.filter_sublist

/-- In the list of those who run, those before a registration are those of a smaller index. -/
theorem mem_before_iff {before after : List (FragmentEntry × Nat)} {g : FragmentEntry} {j : Nat}
    (h : active fs = before ++ (f, i) :: after) : (g, j) ∈ before ↔ Runs fs j g ∧ j < i := by
  have hsorted := h ▸ active_sorted fs
  obtain ⟨-, hafter, hbefore⟩ := List.pairwise_append.1 hsorted
  rw [← mem_active, h]
  constructor
  · exact fun hg => ⟨List.mem_append_left _ hg, hbefore _ hg _ (List.mem_cons_self ..)⟩
  · rintro ⟨hg, hlt⟩
    rcases List.mem_append.1 hg with hg | hg
    · exact hg
    · rcases List.mem_cons.1 hg with heq | hg
      · simp only [Prod.mk.injEq] at heq
        omega
      · have := (List.pairwise_cons.1 hafter).1 _ hg
        omega

theorem superseded_sorted : (superseded fs).Pairwise (· < ·) := by
  have h : (fs.zipIdx.map (·.2)).Pairwise (· < ·) := by
    rw [List.zipIdx_map_snd]
    exact List.pairwise_lt_range'
  exact h.sublist (List.filter_sublist.map _)

/-- Whoever gives way gives way to somebody who runs under the same key. -/
theorem registered_iff : Registered fs key ↔ ∃ i f, Runs fs i f ∧ f.key = key := by
  constructor
  · rintro ⟨g, hg, rfl⟩
    by_cases ho : Overridden fs g.key
    · obtain ⟨o, hmem, hmode, hkey⟩ := ho
      obtain ⟨i, hi⟩ := List.getElem?_of_mem hmem
      exact ⟨i, o, ⟨hi, fun hext => by simp [hmode] at hext⟩, hkey⟩
    · obtain ⟨i, hi⟩ := List.getElem?_of_mem hg
      exact ⟨i, g, ⟨hi, fun hext => ho hext.2⟩, rfl⟩
  · rintro ⟨i, f, hf, rfl⟩
    exact ⟨f, List.mem_of_getElem? hf.1, rfl⟩

/-! ## The graph on keys -/

/-- Somebody who runs under the key `k` depends on `d`. -/
def DependsOn (fs : List FragmentEntry) (k d : String) : Prop :=
  ∃ i f, Runs fs i f ∧ f.key = k ∧ d ∈ f.dependsOn

/-- No key depends on itself, directly or by way of others. -/
def Acyclic (fs : List FragmentEntry) : Prop := ∀ k, ¬Relation.TransGen (DependsOn fs) k k

theorem mem_keys : key ∈ keys (active fs) ↔ Registered fs key := by
  rw [registered_iff, keys, List.mem_eraseDups, List.mem_map]
  constructor
  · rintro ⟨⟨f, i⟩, hmem, rfl⟩
    exact ⟨i, f, mem_active.1 hmem, rfl⟩
  · rintro ⟨i, f, hf, rfl⟩
    exact ⟨(f, i), mem_active.2 hf, rfl⟩

theorem mem_dependencies : d ∈ dependencies (active fs) key ↔ DependsOn fs key d := by
  simp only [dependencies, List.mem_eraseDups, List.mem_flatMap, List.mem_filter,
    decide_eq_true_eq]
  constructor
  · rintro ⟨⟨f, i⟩, ⟨hmem, hkey⟩, hd⟩
    exact ⟨i, f, mem_active.1 hmem, hkey, hd⟩
  · rintro ⟨i, f, hf, hkey, hd⟩
    exact ⟨(f, i), ⟨mem_active.2 hf, hkey⟩, hd⟩

theorem DependsOn.registered (h : DependsOn fs key d) : Registered fs key := by
  obtain ⟨i, f, hf, hkey, -⟩ := h
  exact registered_iff.2 ⟨i, f, hf, hkey⟩

/-! ## Dependencies on nobody -/

/-- Whoever runs depends on registered keys only. -/
def AllKnown (fs : List FragmentEntry) : Prop :=
  ∀ i f, Runs fs i f → ∀ d ∈ f.dependsOn, Registered fs d

/-- Among those who run, in the order of registration, the first with a dependency on nobody has the
key `key`, and the first such dependency that it names is `d`. -/
def FirstUnknown (fs : List FragmentEntry) (key d : String) : Prop :=
  ∃ i f before after, Runs fs i f ∧ f.key = key ∧ f.dependsOn = before ++ d :: after ∧
    ¬Registered fs d ∧ (∀ d' ∈ before, Registered fs d') ∧
    ∀ j g, j < i → Runs fs j g → ∀ d' ∈ g.dependsOn, Registered fs d'

theorem any_active_iff :
    ((active fs).any fun e => e.1.key == key) = true ↔ Registered fs key := by
  rw [← mem_keys]
  simp [keys, List.mem_eraseDups]

theorem find?_unknown_eq_none {ds : List String} :
    (ds.find? fun d => !(active fs).any (·.1.key == d)) = none ↔ ∀ d ∈ ds, Registered fs d := by
  simp [← any_active_iff]

theorem unknownDependency?_eq_none_iff : unknownDependency? (active fs) = none ↔ AllKnown fs := by
  simp only [unknownDependency?, List.findSome?_eq_none_iff, Option.map_eq_none_iff,
    find?_unknown_eq_none]
  exact ⟨fun h i f hf => h (f, i) (mem_active.2 hf), fun h e he => h e.2 e.1 (mem_active.1 he)⟩

theorem find?_unknown_eq_some {ds : List String} :
    (ds.find? fun d => !(active fs).any (·.1.key == d)) = some d ↔
      ¬Registered fs d ∧ ∃ before after, ds = before ++ d :: after ∧
        ∀ d' ∈ before, Registered fs d' := by
  simp only [List.find?_eq_some_iff_append, ← any_active_iff]
  simp

theorem unknownDependency?_eq_some_iff :
    unknownDependency? (active fs) = some (key, d) ↔ FirstUnknown fs key d := by
  simp only [unknownDependency?, List.findSome?_eq_some_iff, Option.map_eq_none_iff,
    Option.map_eq_some_iff, find?_unknown_eq_none, find?_unknown_eq_some, Prod.mk.injEq]
  constructor
  · rintro ⟨earlier, ⟨f, i⟩, later, hactive, ⟨_, ⟨hd, before, after, hds, hbefore⟩, rfl, rfl⟩,
      hfirst⟩
    have hf : Runs fs i f :=
      mem_active.1 (hactive ▸ List.mem_append_right _ (List.mem_cons_self ..))
    exact ⟨i, f, before, after, hf, rfl, hds, hd, hbefore,
      fun j g hj hg => hfirst (g, j) ((mem_before_iff hactive).2 ⟨hg, hj⟩)⟩
  · rintro ⟨i, f, before, after, hf, rfl, hds, hd, hbefore, hfirst⟩
    obtain ⟨earlier, later, hactive⟩ := List.append_of_mem (mem_active.2 hf)
    refine ⟨earlier, (f, i), later, hactive, ⟨d, ⟨hd, before, after, hds, hbefore⟩, rfl, rfl⟩, ?_⟩
    rintro ⟨g, j⟩ hg
    obtain ⟨hruns, hj⟩ := (mem_before_iff hactive).1 hg
    exact hfirst j g hj hruns

end Schedule

end StagedCodegen
