import Mathlib.Data.List.Nodup
import StagedCodegen.Settings.Validation

/-!
# What validation finds

Each rule for settings has a way to be broken (`Settings.Breaks`), which says what is wrong and not
how it is looked for. Resources are looked at one after another and each rule for each of them, so
everything that is wrong with them is found, in their order. Of the output directories it is the
first broken rule alone that is found (`Settings.Output.problem?_eq_head?`). It hides what else is
wrong with its directory, and with those after it.

Main statement: `Settings.problems_find`.
-/

namespace StagedCodegen

open StagedCodegen.Representation

/-! ## Paths that climb -/

namespace Path

theorem pieceComponent_eq_up_iff {piece : List Char} :
    pieceComponent piece = some .up ↔ piece = ['.', '.'] := by
  unfold pieceComponent
  split <;> simp_all

/-- A path goes up just where two points stand alone between slashes. -/
theorem up_mem_components_iff_split {p : Path} :
    .up ∈ p.components ↔ ['.', '.'] ∈ Text.split '/' p.text.toList := by
  have hpieces : ∀ ps, Component.up ∈ pieceComponents ps ↔ ['.', '.'] ∈ ps := fun ps => by
    simp [pieceComponents, pieceComponent_eq_up_iff]
  rw [components]
  generalize p.text.toList = cs
  unfold parse
  split
  · simp [Text.split, hpieces]
  · split <;> simp_all

end Path

namespace Settings

variable {s : Settings} {p : Problem} {rs before after : List Resource} {r : Resource} {i : Nat}
  {earlier : List String}

/-! ## Broken rules -/

/-- What is wrong with one of the resources, by the place where it stands. -/
inductive ResourceBreaks (rs : List Resource) : Nat → Problem → Prop where
  /-- Its name is blank. -/
  | name {i : Nat} {r : Resource} (hr : rs[i]? = some r)
      (hblank : ∀ c ∈ r.name.toList, Text.isBlank c = true) :
      ResourceBreaks rs i (.blankName r.name)
  /-- One that stands before it has its name. -/
  | duplicate {i j : Nat} {r r' : Resource} (hr : rs[i]? = some r) (hr' : rs[j]? = some r')
      (hlt : j < i) (hname : r'.name = r.name) : ResourceBreaks rs i (.duplicateName r.name)
  /-- Its route does not start with a slash. -/
  | route {i : Nat} {r : Resource} (hr : rs[i]? = some r) (hroute : ¬['/'] <+: r.route.toList) :
      ResourceBreaks rs i (.relativeRoute r.name r.route)

/-- What makes an output directory wrong in this way. -/
def DirectoryProblem.Holds (value : String) : DirectoryProblem → Prop
  | .blank => ∀ c ∈ value.toList, Text.isBlank c = true
  | .absolute => ['/'] <+: value.toList
  | .climbs => ['.', '.'] ∈ Text.split '/' value.toList

instance (value : String) (problem : DirectoryProblem) : Decidable (problem.Holds value) :=
  match problem with
  | .blank => inferInstanceAs (Decidable (∀ c ∈ value.toList, Text.isBlank c = true))
  | .absolute => inferInstanceAs (Decidable (['/'] <+: value.toList))
  | .climbs => inferInstanceAs (Decidable (['.', '.'] ∈ Text.split '/' value.toList))

/-- All that is wrong with the output directories, one directory after another. -/
def Output.breaches (o : Output) : List Problem :=
  o.directories.flatMap fun (label, value) =>
    ([.blank, .absolute, .climbs] : List DirectoryProblem).filter (·.Holds value) |>.map
      (.directory label value)

/-- What is wrong with settings, rule by rule. -/
inductive Breaks (s : Settings) : Problem → Prop where
  /-- The namespace is blank. -/
  | title (hblank : ∀ c ∈ s.project.title.toList, Text.isBlank c = true) :
      Breaks s .blankNamespace
  /-- Something is wrong with a resource. -/
  | resource {i : Nat} {p : Problem} (h : ResourceBreaks s.project.resources i p) : Breaks s p
  /-- Something is wrong with an output directory. -/
  | directory {label value : String} {problem : DirectoryProblem}
      (hd : (label, value) ∈ s.output.directories) (h : problem.Holds value) :
      Breaks s (.directory label value problem)
  /-- A required family is blank. -/
  | family {f : String} (hf : f ∈ s.generation.requiredFamilies)
      (hblank : ∀ c ∈ f.toList, Text.isBlank c = true) : Breaks s .blankFamily

/-- The problem is about a resource. -/
def Problem.isOfResource : Problem → Bool
  | .blankName _ | .duplicateName _ | .relativeRoute _ _ => true
  | .blankNamespace | .directory _ _ _ | .blankFamily => false

/-- The problem is about an output directory. -/
def Problem.isOfDirectory : Problem → Bool
  | .directory _ _ _ => true
  | .blankNamespace | .blankName _ | .duplicateName _ | .relativeRoute _ _ | .blankFamily => false

/-! ## Resources -/

theorem isBlankText_iff {text : String} :
    Text.isBlankText text = true ↔ ∀ c ∈ text.toList, Text.isBlank c = true := List.all_eq_true

theorem isAbsolute_iff {text : String} :
    (Path.mk text).isAbsolute = true ↔ ['/'] <+: text.toList := by
  rw [Path.isAbsolute]
  cases text.toList with
  | nil => simp
  | cons c cs =>
    rw [List.head?_cons, beq_iff_eq, Option.some_inj, List.cons_prefix_cons,
      and_iff_left List.nil_prefix]
    exact eq_comm

theorem ResourceBreaks.lt_length (h : ResourceBreaks rs i p) : i < rs.length := by
  cases h with
  | name hr | duplicate hr | route hr => exact (List.getElem?_eq_some_iff.mp hr).1

theorem ResourceBreaks.isOfResource (h : ResourceBreaks rs i p) : p.isOfResource = true := by
  cases h <;> rfl

/-- What is found with a resource is what is wrong with it where it stands. -/
theorem mem_resourceProblems_iff (h : ∀ name, name ∈ earlier ↔ ∃ r ∈ before, r.name = name) :
    p ∈ resourceProblems earlier r ↔ ResourceBreaks (before ++ r :: after) before.length p := by
  have hr : (before ++ r :: after)[before.length]? = some r := by simp
  constructor
  · intro hp
    rw [resourceProblems, List.mem_append, List.mem_append] at hp
    rcases hp with (hp | hp) | hp
    · obtain ⟨hblank, hp⟩ := List.mem_ite_nil_right.mp hp
      obtain rfl := List.mem_singleton.mp hp
      exact .name hr (isBlankText_iff.mp hblank)
    · obtain ⟨hearlier, hp⟩ := List.mem_ite_nil_right.mp hp
      obtain rfl := List.mem_singleton.mp hp
      obtain ⟨r', hr', hname⟩ := (h _).mp hearlier
      obtain ⟨j, hj⟩ := List.mem_iff_getElem?.mp hr'
      have hlt : j < before.length := (List.getElem?_eq_some_iff.mp hj).1
      exact .duplicate hr ((List.getElem?_append_left hlt).trans hj) hlt hname
    · obtain ⟨hroute, hp⟩ := List.mem_ite_nil_left.mp hp
      obtain rfl := List.mem_singleton.mp hp
      exact .route hr fun hslash => hroute (isAbsolute_iff.mpr hslash)
  · intro hp
    generalize hi : before.length = i at hp
    rw [resourceProblems, List.mem_append, List.mem_append]
    cases hp with
    | name hr' hblank =>
      obtain rfl : r = _ := Option.some.inj (hr.symm.trans (hi ▸ hr'))
      exact .inl (.inl (List.mem_ite_nil_right.mpr
        ⟨isBlankText_iff.mpr hblank, List.mem_singleton_self _⟩))
    | duplicate hr' hr'' hlt hname =>
      obtain rfl : r = _ := Option.some.inj (hr.symm.trans (hi ▸ hr'))
      rw [← hi] at hlt
      rw [List.getElem?_append_left hlt] at hr''
      have hearlier : r.name ∈ earlier := (h _).mpr ⟨_, List.mem_of_getElem? hr'', hname⟩
      exact .inl (.inr (List.mem_ite_nil_right.mpr ⟨hearlier, List.mem_singleton_self _⟩))
    | route hr' hroute =>
      obtain rfl : r = _ := Option.some.inj (hr.symm.trans (hi ▸ hr'))
      exact .inr (List.mem_ite_nil_left.mpr ⟨fun habsolute => hroute (isAbsolute_iff.mp habsolute),
        List.mem_singleton_self _⟩)

theorem nodup_resourceProblems (earlier : List String) (r : Resource) :
    (resourceProblems earlier r).Nodup := by
  unfold resourceProblems
  split <;> split <;> split <;> simp

/-- What is found with resources, one after another: each problem stands at the place of a resource
with which it is wrong, and these places ascend. -/
theorem exists_found (rs : List Resource)
    (h : ∀ name, name ∈ earlier ↔ ∃ r ∈ before, r.name = name) : ∃ found : List (Nat × Problem),
      found.map (·.2) = resourcesProblems earlier rs ∧ found.Nodup ∧ found.Pairwise (·.1 ≤ ·.1) ∧
      ∀ i p, (i, p) ∈ found ↔ before.length ≤ i ∧ ResourceBreaks (before ++ rs) i p := by
  induction rs generalizing before earlier with
  | nil =>
    refine ⟨[], rfl, .nil, .nil, fun i p => ⟨nofun, fun ⟨hle, hp⟩ => ?_⟩⟩
    have hlt := hp.lt_length
    rw [List.append_nil] at hlt
    omega
  | cons r rs ih =>
    have hnext : ∀ name, name ∈ r.name :: earlier ↔ ∃ r' ∈ before ++ [r], r'.name = name := by
      simp [h, or_comm, eq_comm]
    obtain ⟨found, hmap, hnodup, hascend, hmem⟩ := ih hnext
    have hfirst : ∀ i p, (i, p) ∈ (resourceProblems earlier r).map (before.length, ·) ↔
        i = before.length ∧ ResourceBreaks (before ++ r :: rs) i p := by
      intro i p
      rw [List.mem_map]
      constructor
      · rintro ⟨p, hp, heq⟩
        cases heq
        exact ⟨rfl, (mem_resourceProblems_iff h).mp hp⟩
      · rintro ⟨rfl, hp⟩
        exact ⟨p, (mem_resourceProblems_iff h).mpr hp, rfl⟩
    have hlast : ∀ i p, (i, p) ∈ found ↔
        before.length < i ∧ ResourceBreaks (before ++ r :: rs) i p := by
      intro i p
      rw [hmem, List.length_append, List.append_assoc]
      rfl
    refine ⟨(resourceProblems earlier r).map (before.length, ·) ++ found, ?_, ?_, ?_, ?_⟩
    · rw [List.map_append, List.map_map, hmap, resourcesProblems]
      simp [Function.comp_def]
    · refine List.Nodup.append ?_ hnodup ?_
      · exact (nodup_resourceProblems earlier r).map fun p q heq => (Prod.mk.inj heq).2
      · rintro ⟨i, p⟩ hp hp'
        have heq := ((hfirst i p).mp hp).1
        have hlt := ((hlast i p).mp hp').1
        omega
    · refine List.pairwise_append.mpr ⟨?_, hascend, ?_⟩
      · exact List.pairwise_map.mpr (List.pairwise_of_forall fun _ _ => Nat.le_refl _)
      · rintro ⟨i, p⟩ hp ⟨j, q⟩ hq
        rw [((hfirst i p).mp hp).1]
        exact Nat.le_of_lt ((hlast j q).mp hq).1
    · intro i p
      rw [List.mem_append, hfirst, hlast, ← or_and_right, Nat.le_iff_lt_or_eq, or_comm,
        eq_comm]

/-! ## Output directories -/

theorem mem_breaches_iff {o : Output} : p ∈ o.breaches ↔
    ∃ label value problem, (label, value) ∈ o.directories ∧ DirectoryProblem.Holds value problem ∧
      p = .directory label value problem := by
  have hall : ∀ problem, problem ∈ ([.blank, .absolute, .climbs] : List DirectoryProblem) := by
    rintro (_ | _ | _) <;> simp
  rw [Output.breaches, List.mem_flatMap]
  constructor
  · rintro ⟨⟨label, value⟩, hd, hp⟩
    obtain ⟨problem, hproblem, rfl⟩ := List.mem_map.mp hp
    exact ⟨label, value, problem, hd, of_decide_eq_true (List.mem_filter.mp hproblem).2, rfl⟩
  · rintro ⟨label, value, problem, hd, h, rfl⟩
    exact ⟨(label, value), hd,
      List.mem_map.mpr ⟨problem, List.mem_filter.mpr ⟨hall _, decide_eq_true h⟩, rfl⟩⟩

/-- Of one directory the first broken rule is found. -/
theorem directoryProblem?_eq_head? (value : String) : directoryProblem? value =
    (([.blank, .absolute, .climbs] : List DirectoryProblem).filter (·.Holds value)).head? := by
  have hblank : Text.isBlankText value = true ↔ DirectoryProblem.blank.Holds value :=
    isBlankText_iff
  have habsolute : (Path.mk value).isAbsolute = true ↔ DirectoryProblem.absolute.Holds value :=
    isAbsolute_iff
  have hclimbs : .up ∈ (Path.mk value).components ↔ DirectoryProblem.climbs.Holds value :=
    Path.up_mem_components_iff_split
  rw [List.head?_filter, directoryProblem?]
  by_cases hb : DirectoryProblem.blank.Holds value
  · rw [if_pos (hblank.mpr hb)]
    simp [hb]
  rw [if_neg (mt hblank.mp hb)]
  by_cases ha : DirectoryProblem.absolute.Holds value
  · rw [if_pos (habsolute.mpr ha)]
    simp [hb, ha]
  rw [if_neg (mt habsolute.mp ha)]
  by_cases hc : DirectoryProblem.climbs.Holds value
  · rw [if_pos (hclimbs.mpr hc)]
    simp [hb, ha, hc]
  · rw [if_neg (mt hclimbs.mp hc)]
    simp [hb, ha, hc]

/-- Of all directories the first broken rule is found, and no other. -/
theorem Output.problem?_eq_head? (o : Output) : o.problem? = o.breaches.head? := by
  rw [problem?, breaches, List.head?_flatMap]
  refine congrArg (o.directories.findSome? ·) (funext fun d => ?_)
  rw [List.head?_map, ← directoryProblem?_eq_head?]

/-! ## Settings -/

/-- What is found with the resources of settings. -/
theorem exists_found_all (rs : List Resource) :
    ∃ found : List (Nat × Problem), found.map (·.2) = resourcesProblems [] rs ∧ found.Nodup ∧
      found.Pairwise (·.1 ≤ ·.1) ∧ ∀ i p, (i, p) ∈ found ↔ ResourceBreaks rs i p := by
  have hnone : ∀ name, name ∈ ([] : List String) ↔ ∃ r ∈ ([] : List Resource), r.name = name := by
    simp
  obtain ⟨found, hmap, hnodup, hascend, hmem⟩ := exists_found rs hnone
  exact ⟨found, hmap, hnodup, hascend, fun i p => (hmem i p).trans (by simp)⟩

theorem mem_resourcesProblems_iff :
    p ∈ resourcesProblems [] rs ↔ ∃ i, ResourceBreaks rs i p := by
  obtain ⟨found, hmap, -, -, hmem⟩ := exists_found_all rs
  simp only [← hmap, ← hmem, List.mem_map, Prod.exists, exists_eq_right]

theorem mem_problems_iff : p ∈ s.problems ↔
    (p = .blankNamespace ∧ ∀ c ∈ s.project.title.toList, Text.isBlank c = true) ∨
      (∃ i, ResourceBreaks s.project.resources i p) ∨ s.output.breaches.head? = some p ∨
      (p = .blankFamily ∧
        ∃ f ∈ s.generation.requiredFamilies, ∀ c ∈ f.toList, Text.isBlank c = true) := by
  rw [problems, List.mem_append, List.mem_append, List.mem_append, List.mem_ite_nil_right,
    List.mem_ite_nil_right, mem_resourcesProblems_iff, Option.mem_toList, Output.problem?_eq_head?,
    List.any_eq_true]
  simp only [List.mem_singleton, isBlankText_iff, or_assoc, and_comm]

theorem breaks_of_mem_breaches (h : p ∈ s.output.breaches) : Breaks s p := by
  obtain ⟨label, value, problem, hd, hholds, rfl⟩ := mem_breaches_iff.mp h
  exact .directory hd hholds

theorem isOfDirectory_of_mem_breaches {o : Output} (h : p ∈ o.breaches) :
    p.isOfDirectory = true := by
  obtain ⟨label, value, problem, -, -, rfl⟩ := mem_breaches_iff.mp h
  rfl

theorem isOfDirectory_of_problem? {o : Output} (h : p ∈ o.problem?.toList) :
    p.isOfDirectory = true := by
  rw [Output.problem?_eq_head?, Option.mem_toList] at h
  exact isOfDirectory_of_mem_breaches (List.mem_of_head? h)

theorem breaks_of_mem_problems (h : p ∈ s.problems) : Breaks s p := by
  rcases mem_problems_iff.mp h with ⟨rfl, hblank⟩ | ⟨i, hr⟩ | hd | ⟨rfl, f, hf, hblank⟩
  · exact .title hblank
  · exact .resource hr
  · exact breaks_of_mem_breaches (List.mem_of_head? hd)
  · exact .family hf hblank

/-- Whatever is wrong is found, unless it is wrong with an output directory. -/
theorem Breaks.mem_problems_or (h : Breaks s p) : p ∈ s.problems ∨ p ∈ s.output.breaches := by
  cases h with
  | title hblank => exact .inl (mem_problems_iff.mpr (.inl ⟨rfl, hblank⟩))
  | resource hr => exact .inl (mem_problems_iff.mpr (.inr (.inl ⟨_, hr⟩)))
  | directory hd hholds => exact .inr (mem_breaches_iff.mpr ⟨_, _, _, hd, hholds, rfl⟩)
  | family hf hblank => exact .inl (mem_problems_iff.mpr (.inr (.inr (.inr ⟨rfl, _, hf, hblank⟩))))

/-- No problem is about a resource and about an output directory. -/
theorem Problem.isOfResource_eq_false (h : p.isOfDirectory = true) : p.isOfResource = false := by
  cases p with
  | directory => rfl
  | blankNamespace | blankName | duplicateName | relativeRoute | blankFamily => cases h

theorem isOfResource_of_mem_resourcesProblems (h : p ∈ resourcesProblems [] rs) :
    p.isOfResource = true := by
  obtain ⟨i, hi⟩ := mem_resourcesProblems_iff.mp h
  exact hi.isOfResource

/-- What is found, without what is wrong with the namespace or with the families. -/
theorem filter_problems (s : Settings) {f : Problem → Bool} (htitle : f .blankNamespace = false)
    (hfamily : f .blankFamily = false) : s.problems.filter f =
      (resourcesProblems [] s.project.resources).filter f ++ s.output.problem?.toList.filter f := by
  have hnone : ∀ {q : Problem} (c : Prop) [Decidable c], f q = false →
      (if c then [q] else []).filter f = [] := by
    intro q c _ hq
    split
    · exact List.filter_cons_of_neg (by simp [hq])
    · rfl
  rw [problems, List.filter_append, List.filter_append, List.filter_append, hnone _ htitle,
    hnone _ hfamily, List.nil_append, List.append_nil]

theorem filter_isOfResource (s : Settings) :
    s.problems.filter (·.isOfResource) = resourcesProblems [] s.project.resources := by
  have hresources : (resourcesProblems [] s.project.resources).filter (·.isOfResource) =
      resourcesProblems [] s.project.resources :=
    List.filter_eq_self.mpr fun p hp => isOfResource_of_mem_resourcesProblems hp
  have hdirectory : s.output.problem?.toList.filter (·.isOfResource) = [] :=
    List.filter_eq_nil_iff.mpr fun p hp => Bool.eq_false_iff.mp
      (Problem.isOfResource_eq_false (isOfDirectory_of_problem? hp))
  rw [filter_problems s rfl rfl, hresources, hdirectory, List.append_nil]

theorem filter_isOfDirectory (s : Settings) :
    s.problems.filter (·.isOfDirectory) = s.output.breaches.take 1 := by
  have hresources : (resourcesProblems [] s.project.resources).filter (·.isOfDirectory) = [] :=
    List.filter_eq_nil_iff.mpr fun p hp hdirectory => Bool.eq_false_iff.mp
      (Problem.isOfResource_eq_false hdirectory) (isOfResource_of_mem_resourcesProblems hp)
  have hdirectory : s.output.problem?.toList.filter (·.isOfDirectory) = s.output.problem?.toList :=
    List.filter_eq_self.mpr fun p hp => isOfDirectory_of_problem? hp
  rw [filter_problems s rfl rfl, hresources, hdirectory, List.nil_append, List.take_one,
    Output.problem?_eq_head?]

/-- **What validation finds.** Nothing is found just if no rule is broken, and what is found is
wrong. Whatever is wrong with the namespace, with a resource or with the required families is found:
with the resources in their order, each problem once for each place of a resource with which it is
wrong. But of all that is wrong with the output directories only the first is found. -/
theorem problems_find (s : Settings) :
    (s.problems = [] ↔ ∀ p, ¬Breaks s p) ∧ (∀ p ∈ s.problems, Breaks s p) ∧
      (∀ p, Breaks s p → p.isOfDirectory = false → p ∈ s.problems) ∧
      (∃ found : List (Nat × Problem), found.map (·.2) = s.problems.filter (·.isOfResource) ∧
        found.Nodup ∧ found.Pairwise (·.1 ≤ ·.1) ∧
        ∀ i p, (i, p) ∈ found ↔ ResourceBreaks s.project.resources i p) ∧
      s.problems.filter (·.isOfDirectory) = s.output.breaches.take 1 := by
  refine ⟨⟨fun hnil p hp => ?_, fun hnone => ?_⟩, fun p => breaks_of_mem_problems,
    fun p hp hother => ?_, ?_, filter_isOfDirectory s⟩
  · have hbreaches : s.output.breaches = [] := by
      have htake := filter_isOfDirectory s
      rw [hnil, List.filter_nil] at htake
      simpa using htake.symm
    rcases hp.mem_problems_or with hmem | hmem
    · exact absurd hmem (by simp [hnil])
    · exact absurd hmem (by simp [hbreaches])
  · exact List.eq_nil_iff_forall_not_mem.mpr fun p hp => hnone p (breaks_of_mem_problems hp)
  · refine hp.mem_problems_or.resolve_right fun hmem => ?_
    exact Bool.false_ne_true (hother.symm.trans (isOfDirectory_of_mem_breaches hmem))
  · rw [filter_isOfResource]
    exact exists_found_all s.project.resources

/-- Each of the output directories is wrong in another way. -/
def misdirected : Settings :=
  { Settings.usual with
    project := ⟨"demo", "0.1.0", [], .empty⟩
    output := ⟨"", "/php", "../ts"⟩ }

/-- Three rules are broken and one problem is found. -/
theorem directories_are_hidden :
    Breaks misdirected (.directory "php_dir" "/php" .absolute) ∧
      Breaks misdirected (.directory "ts_dir" "../ts" .climbs) ∧
      misdirected.problems = [.directory "dir" "" .blank] :=
  ⟨.directory (by decide) (by decide), .directory (by decide) (by decide), by decide +kernel⟩

end Settings

end StagedCodegen
