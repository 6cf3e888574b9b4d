import StagedCodegen.Proofs.Settings.Layers

/-!
# Keys that override others

A tree in which a leaf was set differs from the one before in that leaf alone, and in that its
section is a table now. It stays so while both trees are changed by the same keys, as long as these
lead past the leaf (`KeyPath.Overrides`); and it does no harm to reading: if settings can be read
without the leaf, they can be with it, whatever its section was before
(`Settings.exists_ofJson?_of_overrides`).

Other than in sound layers, keys may have indexes here, and values may have any form.

Main statement: `Settings.exists_ofLayers_of_overrides`.
-/

namespace StagedCodegen

namespace KeyPath

variable {p q : KeyPath} {k n m : String} {v x t t' : Json} {ms ms' : List (String × Json)}

/-! ## What a path changes -/

/-- All names of a path are in small letters. -/
def Lower : KeyPath → Prop
  | name s => Text.lowercase s = s
  | child p s => p.Lower ∧ Text.lowercase s = s
  | item p _ => p.Lower

/-- A path sets the same once more when the tree is laid over the usual settings, where what stands
under its first name is set as a whole: this is a path of one name in small letters, and so are all
names on the way of a path that leads on. -/
def Settled : KeyPath → Prop
  | name s => ofString (Text.lowercase s) = name (Text.lowercase s)
  | child p _ => p.Lower ∧ ofString p.top = name p.top
  | item p _ => p.Lower ∧ ofString p.top = name p.top

/-- The path, starting from a name. -/
def within (n : String) : KeyPath → KeyPath
  | name s => child (name n) s
  | child p s => child (p.within n) s
  | item p i => item (p.within n) i

/-- A path leads past what stands under the name `m` in the section `n`: it starts with another
name, or goes on with another one behind this. -/
def Past (n m : String) (p : KeyPath) : Prop := p.top ≠ n ∨ ∃ q, p = within n q ∧ q.top ≠ m

instance decidableLower : (p : KeyPath) → Decidable p.Lower
  | name s => inferInstanceAs (Decidable (Text.lowercase s = s))
  | child p s =>
    have := decidableLower p
    inferInstanceAs (Decidable (p.Lower ∧ Text.lowercase s = s))
  | item p _ => decidableLower p

instance : DecidablePred Settled
  | name s => inferInstanceAs (Decidable (ofString (Text.lowercase s) = name (Text.lowercase s)))
  | child p _ => inferInstanceAs (Decidable (p.Lower ∧ ofString p.top = name p.top))
  | item p _ => inferInstanceAs (Decidable (p.Lower ∧ ofString p.top = name p.top))

theorem lower_within_iff : (within n p).Lower ↔ Text.lowercase n = n ∧ p.Lower := by
  induction p with
  | name s => rfl
  | child p s ih => rw [within, Lower, ih, Lower, and_assoc]
  | item p i ih => exact ih

theorem alter_within (n : String) (p : KeyPath) (f : Json → Json) :
    (within n p).alter f = (name n).alter (p.alter f) := by
  induction p generalizing f with
  | name s => rfl
  | child p s ih => exact ih _
  | item p i ih => exact ih _

theorem set_within (n : String) (p : KeyPath) (v : Json) :
    (within n p).set v = (name n).alter (p.set v) := by
  cases p with
  | name s => rfl
  | child p s => exact alter_within n p _
  | item p i => exact alter_within n (item p i) _

/-- To change what a path leads to is to put something under its first name. -/
theorem exists_alter_eq (p : KeyPath) (f : Json → Json) : ∃ g : Json → Json, ∀ t,
    p.alter f t =
      .object (put p.top (g (((membersOf t).lookup p.top).getD .null)) (membersOf t)) := by
  induction p generalizing f with
  | name s => exact ⟨f, fun t => rfl⟩
  | child p s ih => exact ih _
  | item p i ih => exact ih _

theorem Lower.exists_set_eq (h : p.Lower) (v : Json) : ∃ g : Option Json → Json, ∀ t,
    p.set v t = .object (put p.top (g ((membersOf t).lookup p.top)) (membersOf t)) := by
  cases p with
  | name s =>
    have hs : Text.lowercase s = s := h
    exact ⟨merge v, fun t => by rw [set, mergeMember_eq, hs, top]⟩
  | child p s =>
    obtain ⟨g, hg⟩ := exists_alter_eq p (mergeMember (s, v))
    exact ⟨fun w => g (w.getD .null), hg⟩
  | item p i =>
    obtain ⟨g, hg⟩ := exists_alter_eq (item p i) fun _ => v
    exact ⟨fun w => g (w.getD .null), hg⟩

/-! ## Trees that are kept neat -/

theorem neat_alter_name {s : String} (hs : Text.lowercase s = s) {f : Json → Json}
    (hf : ∀ w, Neat w → Neat (f w)) (ht : Neat t) : Neat ((name s).alter f t) := by
  rw [alter]
  refine neat_of_members (hs ▸ ht.tidy.put _) fun k v hk => ?_
  rw [membersOf, lookup_put] at hk
  split at hk
  · obtain rfl := Option.some.inj hk
    refine hf _ ?_
    cases hv : (membersOf t).lookup s with
    | none => exact neat_of_membersOf rfl
    | some w => exact ht.of_lookup hv
  · exact ht.of_lookup hk

theorem Lower.neat_alter (h : p.Lower) {f : Json → Json} (hf : ∀ w, Neat w → Neat (f w))
    (ht : Neat t) : Neat (p.alter f t) := by
  induction p generalizing f with
  | name s => exact neat_alter_name h hf ht
  | child p s ih => exact ih h.1 fun w hw => neat_alter_name h.2 hf hw
  | item p i ih => exact ih h fun w _ => neat_of_membersOf rfl

theorem Settled.neat_set (h : p.Settled) (v : Json) (ht : Neat t) : Neat (p.set v t) := by
  cases p with
  | name s => exact neat_mergeMember_of ht fun _ => neat_merge v
  | child p s => exact h.1.neat_alter (fun w hw => neat_mergeMember_of hw fun _ => neat_merge v) ht
  | item p i => exact h.1.neat_alter (fun w _ => neat_of_membersOf rfl) ht

/-! ## Overriding -/

/-- The members of what stands under a name. -/
def membersUnder (n : String) (t : Json) : List (String × Json) :=
  membersOf (((membersOf t).lookup n).getD .null)

/-- The second tree is as the first one, except that in the section `n` the value `x` stands under
the name `m`. If the section is no table in the first tree, then it has nothing else in the
second. -/
structure Overrides (n m : String) (x t t' : Json) : Prop where
  elsewhere : ∀ k, k ≠ n → (membersOf t').lookup k = (membersOf t).lookup k
  value : (membersUnder n t').lookup m = some x
  beside : ∀ k, k ≠ m → (membersUnder n t').lookup k = (membersUnder n t).lookup k

theorem membersUnder_object_put (k : String) (v : Json) (ms : List (String × Json)) :
    membersUnder n (.object (put k v ms)) =
      if n = k then membersOf v else membersUnder n (.object ms) := by
  rw [membersUnder, membersOf, lookup_put]
  split <;> rfl

/-- What is set under a name stands there. -/
theorem overrides_set (hm : Text.lowercase m = m) (hx : NoTable x) (t : Json) :
    Overrides n m x t ((within n (name m)).set x t) := by
  have hset : (within n (name m)).set x t =
      .object (put n (.object (put m x (membersUnder n t))) (membersOf t)) := by
    rw [set_within, alter, set, mergeMember_eq, hm, merge_of_noTable hx]
    rfl
  rw [hset]
  constructor
  · intro k hk
    rw [membersOf, lookup_put, if_neg hk]
  · rw [membersUnder_object_put, if_pos rfl, membersOf, lookup_put, if_pos rfl]
  · intro k hk
    rw [membersUnder_object_put, if_pos rfl, membersOf, lookup_put, if_neg hk]

/-- Keys that lead past the value change both trees in the same way. -/
theorem Overrides.set (h : Overrides n m x t t') (hp : p.Lower) (hpast : p.Past n m) (v : Json) :
    Overrides n m x (p.set v t) (p.set v t') := by
  rcases hpast with htop | ⟨q, rfl, htop⟩
  · obtain ⟨g, hg⟩ := hp.exists_set_eq v
    rw [hg, hg, h.elsewhere _ htop]
    constructor
    · intro k hk
      rw [membersOf, lookup_put, membersOf, lookup_put, h.elsewhere k hk]
    · rw [membersUnder_object_put, if_neg (Ne.symm htop)]
      exact h.value
    · intro k hk
      rw [membersUnder_object_put, if_neg (Ne.symm htop), membersUnder_object_put,
        if_neg (Ne.symm htop)]
      exact h.beside k hk
  · -- In the section, one of the other names is set.
    obtain ⟨g, hg⟩ := (lower_within_iff.mp hp).2.exists_set_eq v
    have hset : ∀ t, (within n q).set v t = .object (put n
        (.object (put q.top (g ((membersUnder n t).lookup q.top)) (membersUnder n t)))
        (membersOf t)) := by
      intro t
      rw [set_within, alter, hg]
      rfl
    rw [hset, hset, h.beside _ htop]
    constructor
    · intro k hk
      rw [membersOf, lookup_put, if_neg hk, membersOf, lookup_put, if_neg hk]
      exact h.elsewhere k hk
    · rw [membersUnder_object_put, if_pos rfl, membersOf, lookup_put, if_neg (Ne.symm htop)]
      exact h.value
    · intro k hk
      rw [membersUnder_object_put, if_pos rfl, membersOf, lookup_put, membersUnder_object_put,
        if_pos rfl, membersOf, lookup_put, h.beside k hk]

/-- What has members is a table. -/
theorem lookup_eq_or_membersUnder_eq_nil (n : String) (t : Json) :
    (membersOf t).lookup n = some (.object (membersUnder n t)) ∨ membersUnder n t = [] := by
  rw [membersUnder]
  cases (membersOf t).lookup n with
  | none => exact .inr rfl
  | some v =>
    cases v with
    | object ms => exact .inl rfl
    | null | bool | number | string | array => exact .inr rfl

theorem lookup_eq_of_membersUnder (h : (membersUnder n t).lookup k = some v) :
    (membersOf t).lookup n = some (.object (membersUnder n t)) := by
  refine (lookup_eq_or_membersUnder_eq_nil n t).resolve_right fun hnil => ?_
  rw [hnil] at h
  cases h

/-! ## Merging over another tree -/

theorem eq_object_mergeMembers (ms : List (String × Json)) (h : t = .object (membersOf t)) :
    mergeMembers ms t = .object (membersOf (mergeMembers ms t)) := by
  induction ms generalizing t with
  | nil => exact h
  | cons e ms ih =>
    rw [mergeMembers]
    exact ih (by rw [mergeMember_eq]; rfl)

/-- What tidy members leave under a name: what they have there, merged into what was there, or else
this itself. -/
theorem lookup_mergeMembers (h : Tidy ms) (t : Json) (k : String) :
    (membersOf (mergeMembers ms t)).lookup k =
      ((ms.lookup k).map (merge · ((membersOf t).lookup k))).or ((membersOf t).lookup k) := by
  induction ms generalizing t with
  | nil => rfl
  | cons e ms ih =>
    obtain ⟨he, hms⟩ := List.nodup_cons.mp h.nodup
    have hsmall : Text.lowercase e.1 = e.1 := h.small e List.mem_cons_self
    rw [mergeMembers, ih ⟨fun e he => h.small e (List.mem_cons_of_mem _ he), hms⟩, mergeMember_eq,
      membersOf, lookup_put, hsmall, lookup_cons_eq]
    by_cases hk : k = e.1
    · rw [if_pos hk, if_pos hk, hk, lookup_eq_none_of_notMem he]
      rfl
    · rw [if_neg hk, if_neg hk]

/-- What a table leaves under a name in its section. -/
theorem lookup_membersUnder_mergeMembers (ht : Tidy (membersOf t))
    (hn : (membersOf t).lookup n = some (.object ms)) (hms : Tidy ms) (u : Json) (k : String) :
    (membersUnder n (mergeMembers (membersOf t) u)).lookup k =
      ((ms.lookup k).map (merge · ((membersUnder n u).lookup k))).or
        ((membersUnder n u).lookup k) := by
  have hthere : membersOf (((membersOf u).lookup n).getD (.object [])) = membersUnder n u := by
    rw [membersUnder]
    cases (membersOf u).lookup n <;> rfl
  rw [membersUnder, lookup_mergeMembers ht, hn, Option.map_some, Option.some_or, Option.getD_some,
    merge, lookup_mergeMembers hms, hthere]

end KeyPath

namespace Settings

open KeyPath

variable {n m k : String} {x u t t' : Json} {l : Layer} {ls : List Layer} {s : Settings}
  {ms ms' : List (String × Json)}

/-! ## Layers of settled keys -/

theorem applyLayer_append (t : Json) (l l' : Layer) :
    applyLayer t (l ++ l') = applyLayer (applyLayer t l) l' := List.foldl_append

theorem neat_applyLayer_of_settled (hl : ∀ e ∈ l, (ofString e.1).Settled) (ht : Neat t) :
    Neat (applyLayer t l) := by
  induction l generalizing t with
  | nil => exact ht
  | cons e l ih =>
    obtain ⟨he, hl⟩ := List.forall_mem_cons.mp hl
    exact ih hl (he.neat_set e.2 ht)

theorem topNames_set {p : KeyPath} (h : p.Settled) (v : Json) (ht : TopNames t) :
    TopNames (p.set v t) := by
  have hput : ∀ {p : KeyPath} {f : Json → Json}, ofString p.top = .name p.top →
      TopNames (p.alter f t) := by
    intro p f hp
    obtain ⟨g, hg⟩ := exists_alter_eq p f
    rw [hg]
    intro e he
    rcases mem_of_mem_put he with rfl | he
    · exact hp
    · exact ht e he
  cases p with
  | name s => exact topNames_mergeMember ht h
  | child p s => exact hput h.2
  | item p i => exact hput (p := .item p i) h.2

theorem topNames_applyLayer_of_settled (hl : ∀ e ∈ l, (ofString e.1).Settled) (ht : TopNames t) :
    TopNames (applyLayer t l) := by
  induction l generalizing t with
  | nil => exact ht
  | cons e l ih =>
    obtain ⟨he, hl⟩ := List.forall_mem_cons.mp hl
    exact ih hl (topNames_set he e.2 ht)

theorem overrides_applyLayer (hl : ∀ e ∈ l, (ofString e.1).Lower ∧ (ofString e.1).Past n m)
    (h : Overrides n m x t t') : Overrides n m x (applyLayer t l) (applyLayer t' l) := by
  induction l generalizing t t' with
  | nil => exact h
  | cons e l ih =>
    obtain ⟨⟨hlower, hpast⟩, hl⟩ := List.forall_mem_cons.mp hl
    exact ih hl (h.set hlower hpast e.2)

/-- To lay a tree over another is to merge its members. -/
theorem applyLayer_membersOf (hneat : Neat t) (htop : TopNames t) (u : Json) :
    applyLayer u (membersOf t) = mergeMembers (membersOf t) u := by
  rw [applyLayer_eq_of (plain_of_topNames hneat htop), membersFor_of_topNames htop]

/-! ## What can be read -/

/-- In a section, each value can be read as what stands under its name. -/
def Section.Readable (S : Section) (ms : List (String × Json)) : Prop :=
  (∀ e ∈ S.fields, ∀ v, ms.lookup e.1 = some v → (e.2.read v).isSome = true) ∧
    ∀ n ∈ S.maps, ∀ v, ms.lookup n = some v → (texts? lenient v).isSome = true

/-- The sections, and which values can be read as these. -/
def sectionReaders : List (Section × (Json → Bool)) :=
  [(Project.layout, fun v => (Project.ofJson? lenient v).isSome),
    (Output.layout, fun v => (Output.ofJson? lenient v).isSome),
    (Generation.layout, fun v => (Generation.ofJson? lenient v).isSome),
    (Logging.layout, fun v => (Logging.ofJson? lenient v).isSome)]

/-- Where names occur once, a table gives fields by their names. -/
theorem fields?_of_nodup (h : (ms.map (·.1)).Nodup) (names : List String) :
    (Json.object ms).fields? lenient.exact names = some (names.map (ms.lookup ·)) := by
  rw [Json.fields?, if_neg]
  · simp only [find?_eq_lookup]
  · rw [List.any_eq_true]
    rintro ⟨n, -, hn⟩
    have hcount : (ms.map (·.1)).count n ≤ 1 := List.nodup_iff_count_le_one.mp h n
    have hn : 1 < (ms.map (·.1)).count n := of_decide_eq_true hn
    omega

theorem isSome_defaulted_iff {α : Type} {read : Json → Option α} {a : α} {field : Option Json} :
    (Json.defaulted read a field).isSome = true ↔ ∀ v, field = some v → (read v).isSome = true := by
  cases field with
  | none => exact ⟨nofun, fun _ => rfl⟩
  | some v => exact ⟨fun h w hw => Option.some.inj hw ▸ h, fun h => h v rfl⟩

theorem any_const {α : Type} (o : Option α) (b : Bool) : o.any (fun _ => b) = (o.isSome && b) := by
  cases o <;> simp

/-- A table can be read as a section if each of its values can be. -/
theorem reads_iff {e : Section × (Json → Bool)} (he : e ∈ sectionReaders)
    (hms : (ms.map (·.1)).Nodup) : e.2 (.object ms) = true ↔ e.1.Readable ms := by
  have htext : lenient.text? = scalarText? := rfl
  have htruth : lenient.truth? = scalarTruth? := rfl
  simp only [sectionReaders, List.mem_cons, List.not_mem_nil, or_false] at he
  rcases he with rfl | rfl | rfl | rfl
  all_goals
    simp only [Section.Readable, Project.layout, Output.layout, Generation.layout, Logging.layout,
      List.forall_mem_cons, List.not_mem_nil, IsEmpty.forall_iff, implies_true, and_true, Kind.read,
      Option.isSome_map]
    simp only [Project.ofJson?, Output.ofJson?, Generation.ofJson?, Logging.ofJson?,
      fields?_of_nodup hms, List.map_cons, List.map_nil, Option.bind_eq_bind, Option.bind_some,
      Option.isSome_bind, Option.pure_def, Option.isSome_some, any_const, Bool.and_true,
      Bool.and_eq_true, isSome_defaulted_iff, Option.isSome_map, htext, htruth, and_assoc]

/-- A tree can be read if each of its sections can be. -/
theorem isSome_ofJson?_iff (ht : t = .object (membersOf t)) (hneat : Neat t) :
    (ofJson? lenient t).isSome = true ↔
      ∀ e ∈ sectionReaders, ∀ v, (membersOf t).lookup e.1.name = some v → e.2 v = true := by
  have hnodup : ((membersOf t).map (·.1)).Nodup := hneat.tidy.nodup
  generalize membersOf t = ms at ht hnodup
  subst ht
  simp only [sectionReaders, List.forall_mem_cons, List.not_mem_nil, IsEmpty.forall_iff,
    implies_true, and_true, Project.layout, Output.layout, Generation.layout, Logging.layout]
  simp only [ofJson?, fields?_of_nodup hnodup, List.map_cons, List.map_nil, Option.bind_eq_bind,
    Option.bind_some, Option.isSome_bind, Option.pure_def, Option.isSome_some, any_const,
    Bool.and_true, Bool.and_eq_true, isSome_defaulted_iff]

/-! ## Reading trees that override others -/

theorem sectionReaders_inj {e e' : Section × (Json → Bool)} (he : e ∈ sectionReaders)
    (he' : e' ∈ sectionReaders) (h : e.1.name = e'.1.name) : e = e' :=
  List.inj_on_of_nodup_map (f := fun e => e.1.name) (by decide) he he' h

/-- A name in a section is the name of one thing. -/
theorem fields_inj : ∀ S ∈ sections, ∀ e ∈ S.fields,
    (∀ e' ∈ S.fields, e'.1 = e.1 → e' = e) ∧ e.1 ∉ S.maps := by
  decide

/-- A section can still be read if one of its texts is another. -/
theorem Section.Readable.of_lookup {S : Section} (h : S.Readable ms) (hS : S ∈ sections)
    (hm : (m, .text) ∈ S.fields) (hx : (scalarText? x).isSome = true)
      (hvalue : ms'.lookup m = some x)
    (hbeside : ∀ k, k ≠ m → ms'.lookup k = ms.lookup k) : S.Readable ms' := by
  obtain ⟨hfields, hmaps⟩ := fields_inj S hS _ hm
  refine ⟨fun e he v hv => ?_, fun n hn v hv => ?_⟩
  · by_cases hk : e.1 = m
    · obtain rfl := hfields e he hk
      obtain rfl := Option.some.inj (hvalue.symm.trans hv)
      rwa [Kind.read, Option.isSome_map]
    · exact h.1 e he v (hbeside e.1 hk ▸ hv)
  · have hk : n ≠ m := fun hk => hmaps (hk ▸ hn)
    exact h.2 n hn v (hbeside n hk ▸ hv)

theorem noTable_of_isSome (h : (scalarText? x).isSome = true) : NoTable x := by
  cases x with
  | object ms => cases h
  | null | bool | number | string | array => rfl

/-- What stands in a section of a tree that can be read can be read itself. -/
theorem readable_membersUnder {e : Section × (Json → Bool)} (he : e ∈ sectionReaders)
    (hobject : t = .object (membersOf t)) (ht : Neat t) (h : (ofJson? lenient t).isSome = true) :
    e.1.Readable (membersUnder e.1.name t) := by
  rcases lookup_eq_or_membersUnder_eq_nil e.1.name t with hn | hnil
  · exact (reads_iff he (ht.of_lookup hn).tidy.nodup).mp
      ((isSome_ofJson?_iff hobject ht).mp h e he _ hn)
  · rw [hnil]
    exact ⟨fun _ _ => nofun, fun _ _ => nofun⟩

/-- Where a value overrides another, it stands in the tree that is laid over one more. -/
theorem lookup_of_overrides (h : Overrides n m x t t') (hx : NoTable x) (ht' : Neat t') (u : Json) :
    (membersUnder n (mergeMembers (membersOf t') u)).lookup m = some x := by
  have hn := lookup_eq_of_membersUnder h.value
  rw [lookup_membersUnder_mergeMembers ht'.tidy hn (ht'.of_lookup hn).tidy, h.value,
    Option.map_some, merge_of_noTable hx, Option.some_or]

/-- A tree can be read when it is laid over another one, which can be read by itself. -/
structure ReadsOver (t u : Json) : Prop where
  /-- The other one is a table. -/
  eq_object : u = .object (membersOf u)
  /-- Its tables are tidy. -/
  neat : Neat u
  /-- It can be read by itself. -/
  alone : (ofJson? lenient u).isSome = true
  /-- It can be read with the tree over it. -/
  merged : (ofJson? lenient (mergeMembers (membersOf t) u)).isSome = true

/-- In the section of a text that is overridden, everything else can be read: it is as it was, or
comes from the tree below if the section was no table. -/
theorem exists_readable_beside {e : Section × (Json → Bool)} (he : e ∈ sectionReaders)
    (h : Overrides e.1.name m x t t') (ht : Neat t) (ht' : Neat t') (hread : ReadsOver t u) :
    ∃ ms, e.1.Readable ms ∧ ∀ k, k ≠ m →
      (membersUnder e.1.name (mergeMembers (membersOf t') u)).lookup k = ms.lookup k := by
  have hn' := lookup_eq_of_membersUnder h.value
  rcases lookup_eq_or_membersUnder_eq_nil e.1.name t with hn | hnil
  · refine ⟨_, readable_membersUnder he (eq_object_mergeMembers _ hread.eq_object)
      (neat_mergeMembers _ hread.neat) hread.merged, fun k hk => ?_⟩
    rw [lookup_membersUnder_mergeMembers ht'.tidy hn' (ht'.of_lookup hn').tidy, h.beside k hk,
      lookup_membersUnder_mergeMembers ht.tidy hn (ht.of_lookup hn).tidy]
  · refine ⟨_, readable_membersUnder he hread.eq_object hread.neat hread.alone, fun k hk => ?_⟩
    rw [lookup_membersUnder_mergeMembers ht'.tidy hn' (ht'.of_lookup hn').tidy, h.beside k hk, hnil]
    rfl

/-- If a tree can be read when it is laid over another one, then so it can be with a text in it
overridden. -/
theorem isSome_ofJson?_of_overrides {e : Section × (Json → Bool)} (he : e ∈ sectionReaders)
    (hm : (m, .text) ∈ e.1.fields) (hx : (scalarText? x).isSome = true)
    (h : Overrides e.1.name m x t t') (ht : Neat t) (ht' : Neat t') (hread : ReadsOver t u) :
    (ofJson? lenient (mergeMembers (membersOf t') u)).isSome = true := by
  have hneat : Neat (mergeMembers (membersOf t) u) := neat_mergeMembers _ hread.neat
  have hneat' : Neat (mergeMembers (membersOf t') u) := neat_mergeMembers _ hread.neat
  have hS : e.1 ∈ sections := List.mem_map_of_mem (f := (·.1)) he
  rw [isSome_ofJson?_iff (eq_object_mergeMembers _ hread.eq_object) hneat']
  intro r hr v hv
  by_cases hname : r.1.name = e.1.name
  · obtain rfl := sectionReaders_inj hr he hname
    have hvalue := lookup_of_overrides h (noTable_of_isSome hx) ht' u
    have hn := lookup_eq_of_membersUnder hvalue
    obtain ⟨ms, hms, hbeside⟩ := exists_readable_beside hr h ht ht' hread
    obtain rfl := Option.some.inj (hn.symm.trans hv)
    have htidy : Tidy (membersUnder r.1.name (mergeMembers (membersOf t') u)) :=
      (hneat'.of_lookup hn).tidy
    exact (reads_iff hr htidy.nodup).mpr (hms.of_lookup hS hm hx hvalue hbeside)
  · have hreads := (isSome_ofJson?_iff (eq_object_mergeMembers _ hread.eq_object) hneat).mp
      hread.merged
    refine hreads r hr v ?_
    rwa [lookup_mergeMembers ht.tidy, ← h.elsewhere _ hname, ← lookup_mergeMembers ht'.tidy]

/-- Settings that are read from a tree with a text overridden have this text. -/
theorem exists_ofJson?_of_overrides {S : Section} {y : String} (hS : S ∈ sections)
    (hm : (m, .text) ∈ S.fields) (hx : scalarText? x = some y) (h : Overrides S.name m x t t')
    (ht : Neat t) (ht' : Neat t') (hread : ReadsOver t u) :
    ∃ s, ofJson? lenient (mergeMembers (membersOf t') u) = some s ∧
      s.leaf [S.name, m] = some (.string y) := by
  have hsome : (scalarText? x).isSome = true := Option.isSome_of_eq_some hx
  have hneat' : Neat (mergeMembers (membersOf t') u) := neat_mergeMembers _ hread.neat
  have hobject' := eq_object_mergeMembers (membersOf t') hread.eq_object
  have hvalue := lookup_of_overrides h (noTable_of_isSome hsome) ht' u
  have hn := lookup_eq_of_membersUnder hvalue
  obtain ⟨e, he, rfl⟩ := List.mem_map.mp (show S ∈ sectionReaders.map (·.1) from hS)
  obtain ⟨s, hs⟩ := Option.isSome_iff_exists.mp
    (isSome_ofJson?_of_overrides he hm hsome h ht ht' hread)
  refine ⟨s, hs, ?_⟩
  rw [hobject'] at hs hneat'
  rw [leaf_of_section hs hneat' hS (fun v hv => ⟨_, Option.some.inj (hv.symm.trans hn)⟩)
    (.field hm), at?, membersOf, hn, Option.bind_some, at?_singleton, membersOf, hvalue,
    Option.elim_some, Kind.read, hx, Option.map_some]

/-! ## Settings of layers -/

theorem treeOf_concat (ls : List Layer) (l : Layer) :
    treeOf (ls ++ [l]) = applyLayer (treeOf ls) l := by
  rw [treeOf, List.foldl_append, List.foldl_cons, List.foldl_nil, treeOf]

/-- Where layers of settled keys give settings, so do those that give the same tree with a text in
it overridden, and they have this text. -/
theorem exists_ofLayers_of_overrides {S : Section} {ls' : List Layer} {y : String}
    (hS : S ∈ sections) (hm : (m, .text) ∈ S.fields) (hx : scalarText? x = some y)
    (h : Overrides S.name m x (treeOf ls) (treeOf ls'))
    (hls : ∀ l ∈ ls, ∀ e ∈ l, (ofString e.1).Settled)
    (hls' : ∀ l ∈ ls', ∀ e ∈ l, (ofString e.1).Settled) (hok : ofLayers ls = .ok s) :
    ∃ s', ofLayers ls' = .ok s' ∧ s'.leaf [S.name, m] = some (.string y) := by
  have hneat : ∀ {ls}, (∀ l ∈ ls, ∀ e ∈ l, (ofString e.1).Settled) → Neat (treeOf ls) :=
    fun hls => treeOf_induction neat_empty fun l hl _ => neat_applyLayer_of_settled (hls l hl)
  have htree : ∀ {ls}, (∀ l ∈ ls, ∀ e ∈ l, (ofString e.1).Settled) →
      treeOf [usualLayer, membersOf (treeOf ls)] =
        mergeMembers (membersOf (treeOf ls)) (treeOf [usualLayer]) := fun {ls} hls => by
    have htop : TopNames (treeOf ls) :=
      treeOf_induction nofun fun l hl _ => topNames_applyLayer_of_settled (hls l hl)
    rw [← List.singleton_append, treeOf_concat, applyLayer_membersOf (hneat hls) htop]
  have husual : ∀ l ∈ [usualLayer], Sound l := List.forall_mem_singleton.mpr sound_usualLayer
  have hmerged : (ofJson? lenient (mergeMembers (membersOf (treeOf ls))
      (treeOf [usualLayer]))).isSome = true := by
    rw [ofLayers, htree hls] at hok
    split at hok
    · next hs => exact Option.isSome_of_eq_some hs
    · cases hok
  have hread : ReadsOver (treeOf ls) (treeOf [usualLayer]) :=
    { eq_object := (fits_treeOf husual).eq_object
      neat := neat_treeOf husual
      alone := Option.isSome_of_eq_some ofJson?_treeOf_usualLayer
      merged := hmerged }
  obtain ⟨s', hs', hleaf⟩ := exists_ofJson?_of_overrides hS hm hx h (hneat hls) (hneat hls') hread
  exact ⟨s', by rw [ofLayers, htree hls', hs'], hleaf⟩

end Settings

end StagedCodegen
