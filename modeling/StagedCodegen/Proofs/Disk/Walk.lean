import StagedCodegen.Proofs.Disk.Places

/-!
# Walking along paths

A walk that begins in a directory below which nothing but directories was passed ends in the same
way: everything above the place that it leads to is a directory, whatever links it followed
(`Disk.Walks.real`). What it leads to in the middle is found by the part of the path up to there
(`Disk.Walks.append`), and along names of which none is a link it leads to the place that they name
(`Disk.Walks.place_eq`).
-/

namespace StagedCodegen

namespace Disk

variable {d : Disk} {P Q : Place} {n : Node} {s : String} {followLast : Bool} {hops : Nat}
  {r : Located}

/-! ## Where a walk ends -/

/-- The place that something is at or may be put at. -/
def Located.place : Located → Place
  | .found P _ => P
  | .vacant P s => P ++ [s]

/-- There are directories all the way down to the place, which is one as well. -/
def Opens (d : Disk) (P : Place) : Prop := ∀ Q, Q <+: P → d.lookup Q = some .dir

/-- There are directories all the way down to the place, which is anything. -/
def Reaches (d : Disk) (P : Place) : Prop := ∀ Q, Q <+: P → Q ≠ P → d.lookup Q = some .dir

theorem opens_nil (d : Disk) : d.Opens [] := by
  intro Q hQ
  rw [List.prefix_nil.mp hQ]
  rfl

theorem Opens.lookup (h : d.Opens P) : d.lookup P = some .dir := h P (List.prefix_refl P)

theorem Opens.reaches (h : d.Opens P) : d.Reaches P := fun Q hQ _ => h Q hQ

theorem Opens.of_isPrefix (h : d.Opens P) (hQ : Q <+: P) : d.Opens Q :=
  fun R hR => h R (hR.trans hQ)

theorem Opens.dropLast (h : d.Opens P) : d.Opens P.dropLast :=
  h.of_isPrefix <| List.dropLast_prefix P

theorem Opens.reaches_concat (h : d.Opens P) (s : String) : d.Reaches (P ++ [s]) := by
  intro Q hQ hne
  rcases List.prefix_concat_iff.mp hQ with rfl | hQ
  · exact absurd rfl hne
  · exact h Q hQ

theorem Reaches.opens (h : d.Reaches P) (hP : d.lookup P = some .dir) : d.Opens P := by
  intro Q hQ
  by_cases hne : Q = P
  · rw [hne, hP]
  · exact h Q hQ hne

theorem not_concat_isPrefix : ¬P ++ [s] <+: P := by
  intro h
  have hlength := h.length_le
  rw [List.length_append, List.length_singleton] at hlength
  omega

theorem Reaches.opens_of_concat (h : d.Reaches (P ++ [s])) : d.Opens P := by
  intro Q hQ
  refine h Q (hQ.trans (List.prefix_append P [s])) ?_
  rintro rfl
  exact not_concat_isPrefix hQ

theorem Opens.concat (h : d.Opens P) (hs : d.lookup (P ++ [s]) = some .dir) : d.Opens (P ++ [s]) :=
  (h.reaches_concat s).opens hs

/-- What a walk finds is there, below directories only. -/
inductive Real (d : Disk) (followLast : Bool) : Located → Prop where
  /-- Something is found. It is no link if links are followed. -/
  | found {P : Place} {n : Node} (named : P.Named) (reaches : d.Reaches P)
      (lookup : d.lookup P = some n) (last : followLast = true → ∀ t, n ≠ .link t) :
      Real d followLast (.found P n)
  /-- Nothing is found, in a directory. -/
  | vacant {P : Place} {s : String} (named : (P ++ [s]).Named) (opens : d.Opens P)
      (lookup : d.lookup (P ++ [s]) = none) : Real d followLast (.vacant P s)

/-! ## Walks that lead somewhere -/

/-- A walk that leads somewhere, step by step. -/
inductive Walks (d : Disk) (followLast : Bool) :
    (hops : Nat) → (at_ : Place) → (rest : List Step) → Located → Prop where
  /-- The walk is over. -/
  | stay {hops : Nat} {at_ : Place} {n : Node} (there : d.lookup at_ = some n) :
      Walks d followLast hops at_ [] (.found at_ n)
  /-- It stays in its directory. -/
  | here {hops : Nat} {at_ : Place} {rest : List Step} {r : Located}
      (on : Walks d followLast hops at_ rest r) : Walks d followLast hops at_ (.here :: rest) r
  /-- It goes to the parent directory. -/
  | up {hops : Nat} {at_ : Place} {rest : List Step} {r : Located}
      (on : Walks d followLast hops at_.dropLast rest r) :
      Walks d followLast hops at_ (.up :: rest) r
  /-- The last name is missing. -/
  | vacant {hops : Nat} {at_ : Place} {s : String} (short : s.utf8ByteSize ≤ 255)
      (there : d.lookup (at_ ++ [s]) = none) : Walks d followLast hops at_ [.name s] (.vacant at_ s)
  /-- It goes to a directory. -/
  | enter {hops : Nat} {at_ : Place} {s : String} {rest : List Step} {r : Located}
      (short : s.utf8ByteSize ≤ 255) (there : d.lookup (at_ ++ [s]) = some .dir)
      (on : Walks d followLast hops (at_ ++ [s]) rest r) :
      Walks d followLast hops at_ (.name s :: rest) r
  /-- The last name is that of a file. -/
  | file {hops : Nat} {at_ : Place} {s : String} {c : ByteArray} (short : s.utf8ByteSize ≤ 255)
      (there : d.lookup (at_ ++ [s]) = some (.file c)) :
      Walks d followLast hops at_ [.name s] (.found (at_ ++ [s]) (.file c))
  /-- The last name is that of a link, which is not followed. -/
  | link {hops : Nat} {at_ : Place} {s : String} {t : Path} (short : s.utf8ByteSize ≤ 255)
      (there : d.lookup (at_ ++ [s]) = some (.link t)) (last : followLast = false) :
      Walks d followLast hops at_ [.name s] (.found (at_ ++ [s]) (.link t))
  /-- It follows a link. -/
  | follow {hops : Nat} {at_ : Place} {s : String} {t : Path} {rest : List Step} {r : Located}
      (short : s.utf8ByteSize ≤ 255) (there : d.lookup (at_ ++ [s]) = some (.link t))
      (inner : rest = [] → followLast = true)
      (on : Walks d followLast hops (if t.isAbsolute then [] else at_) (steps t ++ rest) r) :
      Walks d followLast (hops + 1) at_ (.name s :: rest) r

theorem walks_of_walkWith {follow : Place → List Step → Except IoError Located}
    (hfollow : ∀ at_ rest, follow at_ rest = .ok r →
      ∃ k, hops = k + 1 ∧ d.Walks followLast k at_ rest r)
    {at_ : Place} {rest : List Step} (h : d.walkWith followLast follow at_ rest = .ok r) :
    d.Walks followLast hops at_ rest r := by
  fun_induction Disk.walkWith d followLast follow at_ rest with
  | case1 at_ n there => cases h; exact .stay there
  | case3 at_ rest ih => exact .here (ih h)
  | case4 at_ rest ih => exact .up (ih h)
  | case6 at_ s rest short there last =>
    cases h
    rw [List.isEmpty_iff.mp last]
    exact .vacant (Nat.not_lt.mp short) there
  | case8 at_ s rest short there ih => exact .enter (Nat.not_lt.mp short) there (ih h)
  | case9 at_ s rest short c there last =>
    cases h
    rw [List.isEmpty_iff.mp last]
    exact .file (Nat.not_lt.mp short) there
  | case11 at_ s rest short t there last =>
    cases h
    rw [Bool.and_eq_true, List.isEmpty_iff, Bool.not_eq_true'] at last
    rw [last.1]
    exact .link (Nat.not_lt.mp short) there last.2
  | case12 at_ s rest short t there inner =>
    obtain ⟨k, rfl, hon⟩ := hfollow _ _ h
    refine .follow (Nat.not_lt.mp short) there (fun hrest => ?_) hon
    simpa [hrest] using inner
  | case2 | case5 | case7 | case10 => cases h

/-- The walks that lead somewhere are those that succeed. -/
theorem walks_of_walk {at_ : Place} {rest : List Step}
    (h : d.walk followLast hops at_ rest = .ok r) : d.Walks followLast hops at_ rest r := by
  induction hops generalizing at_ rest with
  | zero => exact walks_of_walkWith (fun _ _ hnone => by cases hnone) h
  | succ hops ih => exact walks_of_walkWith (fun _ _ hfollow => ⟨hops, rfl, ih hfollow⟩) h

theorem Walks.walk_eq {at_ : Place} {rest : List Step} (h : d.Walks followLast hops at_ rest r) :
    d.walk followLast hops at_ rest = .ok r := by
  induction h with
  | stay there => simp [walk_nil, there]
  | here on ih => simpa [walk_here] using ih
  | up on ih => simpa [walk_up] using ih
  | vacant short there => simp [walk_name, there, Nat.not_lt.mpr short]
  | enter short there on ih => simpa [walk_name, there, Nat.not_lt.mpr short] using ih
  | file short there => simp [walk_name, there, Nat.not_lt.mpr short]
  | link short there last => simp [walk_name, there, Nat.not_lt.mpr short, last]
  | @follow hops at_ s t rest r short there inner on ih =>
    have hinner : ¬(rest.isEmpty && !followLast) = true := by
      rw [Bool.and_eq_true, List.isEmpty_iff, Bool.not_eq_true']
      rintro ⟨hrest, hlast⟩
      exact Bool.false_ne_true (hlast.symm.trans (inner hrest))
    rw [walk_name]
    simp only [there, Nat.not_lt.mpr short, if_false, if_neg hinner, ih]

/-! ## What a walk finds -/

/-- The names among steps can be names of entries. -/
def NamedSteps (rest : List Step) : Prop := ∀ s, .name s ∈ rest → Path.IsName s.toList

theorem NamedSteps.tail {x : Step} {rest : List Step} (h : NamedSteps (x :: rest)) :
    NamedSteps rest := fun s hs => h s (List.mem_cons_of_mem x hs)

theorem NamedSteps.append {xs ys : List Step} (hx : NamedSteps xs) (hy : NamedSteps ys) :
    NamedSteps (xs ++ ys) := by
  intro s hs
  rcases List.mem_append.mp hs with hs | hs
  · exact hx s hs
  · exact hy s hs

theorem namedSteps_steps (p : Path) : NamedSteps (steps p) := fun _ => isName_of_mem_steps

/-- Where a link is followed from is a directory, too. -/
theorem Opens.start {at_ : Place} (h : d.Opens at_) (t : Path) :
    d.Opens (if t.isAbsolute then [] else at_) := by
  split
  · exact opens_nil d
  · exact h

/-- A walk through directories finds what is there. -/
theorem Walks.real {at_ : Place} {rest : List Step} (h : d.Walks followLast hops at_ rest r)
    (hopens : d.Opens at_) (hnamed : at_.Named) (hrest : NamedSteps rest) :
    d.Real followLast r := by
  induction h with
  | stay there =>
    rw [hopens.lookup] at there
    obtain rfl := Option.some.inj there
    exact .found hnamed hopens.reaches hopens.lookup fun _ t ht => Node.noConfusion ht
  | here on ih => exact ih hopens hnamed hrest.tail
  | up on ih =>
    exact ih hopens.dropLast (hnamed.of_isPrefix <| List.dropLast_prefix _) hrest.tail
  | @vacant _ _ s short there =>
    exact .vacant (hnamed.concat (hrest s (by simp))) hopens there
  | @enter _ _ s _ _ short there on ih =>
    exact ih (hopens.concat there) (hnamed.concat (hrest s (by simp))) hrest.tail
  | @file _ _ s c short there =>
    exact .found (hnamed.concat (hrest s (by simp))) (hopens.reaches_concat _) there
      fun _ t ht => Node.noConfusion ht
  | @link _ _ s t short there last =>
    refine .found (hnamed.concat (hrest s (by simp))) (hopens.reaches_concat _) there ?_
    exact fun hlast => absurd (last.symm.trans hlast) Bool.false_ne_true
  | @follow _ _ s t rest _ short there inner on ih =>
    -- the steps of the link come before those that are left
    refine ih (hopens.start t) ?_ ((namedSteps_steps t).append hrest.tail)
    split
    · exact Place.named_nil
    · exact hnamed

/-- The first part of a walk, if anything follows it, leads to a directory, from which the walk
goes on. -/
theorem Walks.append {at_ : Place} {a b : List Step}
    (h : d.Walks followLast hops at_ (a ++ b) r) (hb : b ≠ []) (hopens : d.Opens at_) :
    ∃ P hops', d.Opens P ∧ d.Walks true hops at_ a (.found P .dir) ∧
      d.Walks followLast hops' P b r := by
  generalize hrest : a ++ b = rest at h
  -- each step is the first of `b`, if `a` is over, or the first of `a`
  induction h generalizing a with
  | stay there => exact absurd (List.append_eq_nil_iff.mp hrest).2 hb
  | here on ih =>
    rcases List.append_eq_cons_iff.mp hrest with ⟨rfl, rfl⟩ | ⟨a, rfl, rfl⟩
    · exact ⟨_, _, hopens, .stay hopens.lookup, .here on⟩
    · obtain ⟨P, hops', hP, hfirst, hlast⟩ := ih hopens rfl
      exact ⟨P, hops', hP, .here hfirst, hlast⟩
  | up on ih =>
    rcases List.append_eq_cons_iff.mp hrest with ⟨rfl, rfl⟩ | ⟨a, rfl, rfl⟩
    · exact ⟨_, _, hopens, .stay hopens.lookup, .up on⟩
    · obtain ⟨P, hops', hP, hfirst, hlast⟩ := ih hopens.dropLast rfl
      exact ⟨P, hops', hP, .up hfirst, hlast⟩
  | enter short there on ih =>
    rcases List.append_eq_cons_iff.mp hrest with ⟨rfl, rfl⟩ | ⟨a, rfl, rfl⟩
    · exact ⟨_, _, hopens, .stay hopens.lookup, .enter short there on⟩
    · obtain ⟨P, hops', hP, hfirst, hlast⟩ := ih (hopens.concat there) rfl
      exact ⟨P, hops', hP, .enter short there hfirst, hlast⟩
  | vacant short there =>
    rcases List.append_eq_cons_iff.mp hrest with ⟨rfl, rfl⟩ | ⟨a, rfl, hab⟩
    · exact ⟨_, 0, hopens, .stay hopens.lookup, .vacant short there⟩
    · exact absurd (List.append_eq_nil_iff.mp hab.symm).2 hb
  | file short there =>
    rcases List.append_eq_cons_iff.mp hrest with ⟨rfl, rfl⟩ | ⟨a, rfl, hab⟩
    · exact ⟨_, 0, hopens, .stay hopens.lookup, .file short there⟩
    · exact absurd (List.append_eq_nil_iff.mp hab.symm).2 hb
  | link short there last =>
    rcases List.append_eq_cons_iff.mp hrest with ⟨rfl, rfl⟩ | ⟨a, rfl, hab⟩
    · exact ⟨_, 0, hopens, .stay hopens.lookup, .link short there last⟩
    · exact absurd (List.append_eq_nil_iff.mp hab.symm).2 hb
  | follow short there inner on ih =>
    rcases List.append_eq_cons_iff.mp hrest with ⟨rfl, rfl⟩ | ⟨a, rfl, rfl⟩
    · exact ⟨_, _, hopens, .stay hopens.lookup, .follow short there inner on⟩
    · obtain ⟨P, hops', hP, hfirst, hlast⟩ := ih (hopens.start _) (List.append_assoc ..)
      exact ⟨P, hops', hP, .follow short there (fun _ => rfl) hfirst, hlast⟩

/-- Along names of which none is that of a link, a walk leads to the place that they name. -/
theorem Walks.place_eq {at_ : Place} {ns : List String}
    (h : d.Walks followLast hops at_ (ns.map .name) r)
    (hlinks : ∀ ms, ms <+: ns → ms ≠ [] → (ms = ns → followLast = true) →
      ∀ t, d.lookup (at_ ++ ms) ≠ some (.link t)) : r.place = at_ ++ ns := by
  induction ns generalizing at_ with
  | nil => cases h; rw [List.append_nil]; rfl
  | cons s ns ih =>
    rw [List.map_cons] at h
    generalize hrest : ns.map Step.name = rest at h
    cases h with
    | vacant | file | link => rw [List.map_eq_nil_iff.mp hrest]; rfl
    | enter short there on =>
      subst hrest
      rw [ih on, List.append_assoc, List.singleton_append]
      intro ms hms hne hlast
      rw [List.append_assoc]
      exact hlinks (s :: ms) (List.cons_prefix_cons.mpr ⟨rfl, hms⟩) (List.cons_ne_nil s ms)
        fun heq => hlast (List.cons.inj heq).2
    | follow short there inner on =>
      refine absurd there (hlinks [s] ⟨ns, rfl⟩ (List.cons_ne_nil s []) (fun heq => inner ?_) _)
      rw [← hrest, ← (List.cons.inj heq).2, List.map_nil]

/-- Names are walked through that lead down to something other than a link. -/
theorem walks_of_reaches {ns : List String} (hreaches : d.Reaches (P ++ ns))
    (hlookup : d.lookup (P ++ ns) = some n) (hn : ∀ t, n ≠ .link t)
    (hshort : ∀ s ∈ ns, s.utf8ByteSize ≤ 255) :
    d.Walks followLast hops P (ns.map .name) (.found (P ++ ns) n) := by
  induction ns generalizing P with
  | nil =>
    rw [List.append_nil] at hlookup ⊢
    exact .stay hlookup
  | cons s ns ih =>
    have hs : s.utf8ByteSize ≤ 255 := hshort s (by simp)
    rw [List.append_cons] at hreaches hlookup ⊢
    by_cases hns : ns = []
    · subst hns
      rw [List.append_nil] at hlookup ⊢
      cases n with
      | dir => exact .enter hs hlookup (.stay hlookup)
      | file c => exact .file hs hlookup
      | link t => exact absurd rfl (hn t)
    · have hdir : d.lookup (P ++ [s]) = some .dir :=
        hreaches _ (List.prefix_append _ ns) (by simpa using Ne.symm hns)
      exact .enter hs hdir (ih hreaches hlookup fun t ht => hshort t (by simp [ht]))

/-- Names of directories are walked through. -/
theorem walks_of_opens {ns : List String} (hopens : d.Opens (P ++ ns))
    (hshort : ∀ s ∈ ns, s.utf8ByteSize ≤ 255) :
    d.Walks followLast hops P (ns.map .name) (.found (P ++ ns) .dir) :=
  walks_of_reaches hopens.reaches hopens.lookup nofun hshort

/-- A walk that leads somewhere goes by no name that is too long. -/
theorem Walks.short {at_ : Place} {rest : List Step} (h : d.Walks followLast hops at_ rest r)
    (hs : .name s ∈ rest) : s.utf8ByteSize ≤ 255 := by
  induction h with
  | stay there => exact absurd hs List.not_mem_nil
  | here on ih | up on ih => exact ih (by simpa using hs)
  | vacant short there | file short there | link short there last =>
    rwa [Step.name.inj (List.mem_singleton.mp hs)]
  | enter short there on ih =>
    rcases List.mem_cons.mp hs with hs | hs
    · rwa [Step.name.inj hs]
    · exact ih hs
  | follow short there inner on ih =>
    rcases List.mem_cons.mp hs with hs | hs
    · rwa [Step.name.inj hs]
    · exact ih (List.mem_append_right _ hs)

/-- A walk goes to no name that is too long. -/
theorem Walks.place_short {at_ : Place} {rest : List Step} (h : d.Walks followLast hops at_ rest r)
    (hat : ∀ s ∈ at_, s.utf8ByteSize ≤ 255) : ∀ s ∈ r.place, s.utf8ByteSize ≤ 255 := by
  have hconcat : ∀ {P : Place} {s : String}, (∀ t ∈ P, t.utf8ByteSize ≤ 255) →
      s.utf8ByteSize ≤ 255 → ∀ t ∈ P ++ [s], t.utf8ByteSize ≤ 255 := by
    intro P s hP hs t ht
    rcases List.mem_append.mp ht with ht | ht
    · exact hP t ht
    · rwa [List.mem_singleton.mp ht]
  induction h with
  | stay there => exact hat
  | here on ih => exact ih hat
  | up on ih => exact ih fun s hs => hat s (List.dropLast_subset _ hs)
  | vacant short there | file short there | link short there last => exact hconcat hat short
  | enter short there on ih => exact ih (hconcat hat short)
  | follow short there inner on ih =>
    refine ih fun s hs => ?_
    split at hs
    · exact absurd hs List.not_mem_nil
    · exact hat s hs

/-! ## Locating places -/

/-- The text can be given to the operating system. -/
structure Usable (p : Path) : Prop where
  ne_empty : p.text.isEmpty = false
  nul_notMem : '\x00' ∉ p.text.toList
  short : p.text.utf8ByteSize ≤ 4095

theorem locate_eq {p : Path} (h : Usable p) : d.locate followLast p =
    d.walk followLast 40 (if p.isAbsolute then [] else d.cwd) (steps p) := by
  simp [locate, h.ne_empty, h.nul_notMem, Nat.not_lt.mpr h.short]

theorem usable_of_locate {p : Path} (h : d.locate followLast p = .ok r) : Usable p := by
  unfold locate at h
  split at h
  · cases h
  · next hempty =>
    split at h
    · cases h
    · next hnul =>
      split at h
      · cases h
      · next hshort => exact ⟨by simpa using hempty, by simpa using hnul, Nat.not_lt.mp hshort⟩

/-- The path of a place above another is usable if that of the other is. -/
theorem Usable.of_isPrefix (h : Usable P.path) (hQ : Q <+: P) : Usable Q.path := by
  obtain ⟨rest, hrest⟩ := Place.toList_path_isPrefix hQ
  have htext : P.path.text = Q.path.text ++ String.ofList rest := by
    rw [← String.toList_inj, ← hrest]
    simp
  refine ⟨?_, fun hnul => h.nul_notMem ?_, ?_⟩
  · rw [← Bool.not_eq_true, String.isEmpty_iff, ← String.toList_inj, Place.toList_path]
    simp
  · rw [← hrest]
    exact List.mem_append_left rest hnul
  · have hshort := h.short
    rw [htext, String.utf8ByteSize_append] at hshort
    omega

/-- A path of a place is found by a walk along its names. -/
theorem walks_of_locate (hP : P.Named) (h : d.locate followLast P.path = .ok r) :
    d.Walks followLast 40 [] (P.map .name) r := by
  rw [locate_eq (usable_of_locate h), if_pos P.isAbsolute_path] at h
  by_cases hne : P = []
  · subst hne
    rw [steps_root, walk_here] at h
    exact walks_of_walk h
  · rw [steps_path hP hne] at h
    exact walks_of_walk h

theorem locate_of_walks (hP : P.Named) (husable : Usable P.path)
    (h : d.Walks followLast 40 [] (P.map .name) r) : d.locate followLast P.path = .ok r := by
  rw [locate_eq husable, if_pos P.isAbsolute_path]
  by_cases hne : P = []
  · subst hne
    rw [steps_root, walk_here]
    exact h.walk_eq
  · rw [steps_path hP hne]
    exact h.walk_eq

theorem locate_root (d : Disk) (followLast : Bool) :
    d.locate followLast (Place.path []) = .ok (.found [] .dir) :=
  locate_of_walks Place.named_nil ⟨rfl, by decide, by decide⟩ (.stay rfl)

theorem namedSteps_names (hP : P.Named) : NamedSteps (P.map .name) := by
  intro s hs
  obtain ⟨t, ht, heq⟩ := List.mem_map.mp hs
  rw [← Step.name.inj heq]
  exact hP t ht

theorem real_of_locate (hP : P.Named) (h : d.locate followLast P.path = .ok r) :
    d.Real followLast r :=
  (walks_of_locate hP h).real (opens_nil d) Place.named_nil (namedSteps_names hP)

/-- The path of every place above one that a path leads to leads to a directory. -/
theorem exists_of_isPrefix (hP : P.Named) (h : d.locate followLast P.path = .ok r) (hQ : Q <+: P)
    (hne : Q ≠ P) : ∃ R, d.locate true Q.path = .ok (.found R .dir) := by
  obtain ⟨S, rfl⟩ := hQ
  have hS : S.map Step.name ≠ [] := by
    rintro hnil
    rw [List.map_eq_nil_iff.mp hnil, List.append_nil] at hne
    exact hne rfl
  have hwalks := walks_of_locate hP h
  rw [List.map_append] at hwalks
  obtain ⟨R, -, -, hR, -⟩ := hwalks.append hS (opens_nil d)
  have hQ : Q <+: Q ++ S := List.prefix_append Q S
  exact ⟨R, locate_of_walks (hP.of_isPrefix hQ) ((usable_of_locate h).of_isPrefix hQ) hR⟩

/-- The path of a directory above what a path leads to leads to this directory. -/
theorem locate_of_opens {followLast' : Bool} (hP : (P ++ [s]).Named) (hopens : d.Opens P)
    (h : d.locate followLast (Place.path (P ++ [s])) = .ok r) :
    d.locate followLast' P.path = .ok (.found P .dir) := by
  have habove : P <+: P ++ [s] := List.prefix_append P [s]
  have hwalks := walks_of_locate hP h
  refine locate_of_walks (hP.of_isPrefix habove) ((usable_of_locate h).of_isPrefix habove) ?_
  exact walks_of_opens (P := []) hopens fun t ht =>
    hwalks.short (List.mem_map_of_mem (List.mem_append_left [s] ht))

end Disk

end StagedCodegen
