/-!
# Maps sorted by key

A finite map from texts to values, kept as a list whose keys ascend strictly, so two maps with the
same bindings are the same map, and walking one visits the keys in order. Texts are ordered by
their code points, which is the order of their UTF-8 bytes.

Main statements: `get?_insert` says what one insertion does to every lookup, `get?_foldl_insert`
what several do, and `ext_get?` that the lookups determine the map.
-/

namespace StagedCodegen

variable {α β : Type}

/-! ## Lists that ascend -/

/-- Lists that ascend by a key are equal if they have the same members. -/
theorem eq_of_ascending [LT β] [Std.Asymm (α := β) (· < ·)] {key : α → β} {xs ys : List α}
    (hx : xs.Pairwise (key · < key ·)) (hy : ys.Pairwise (key · < key ·))
    (h : ∀ a, a ∈ xs ↔ a ∈ ys) : xs = ys := by
  have hasymm : ∀ {k l : β}, k < l → ¬l < k := Std.Asymm.asymm _ _
  have hnodup : ∀ {zs : List α}, zs.Pairwise (key · < key ·) → zs.Nodup := by
    intro zs hz
    refine hz.imp ?_
    rintro a _ hlt rfl
    exact hasymm hlt hlt
  exact ((List.perm_ext_iff_of_nodup (hnodup hx) (hnodup hy)).mpr h).eq_of_pairwise
    (fun _ _ _ _ hlt hgt => absurd hgt (hasymm hlt)) hx hy

/-! ## Sorted lists of bindings -/

namespace Bindings

/-- Insert a binding before the first larger key, replacing a binding of the same key. -/
def insert (k : String) (v : α) : List (String × α) → List (String × α)
  | [] => [(k, v)]
  | (k', v') :: rest =>
    if k < k' then (k, v) :: (k', v') :: rest
    else if k = k' then (k, v) :: rest
    else (k', v') :: insert k v rest

/-- The value bound to a key. -/
def get? (k : String) : List (String × α) → Option α
  | [] => none
  | (k', v) :: rest => if k = k' then some v else get? k rest

theorem mem_insert {k : String} {v : α} {e : String × α} {xs : List (String × α)}
    (h : e ∈ insert k v xs) : e = (k, v) ∨ e ∈ xs := by
  induction xs with
  | nil => simpa [insert] using h
  | cons x rest ih =>
    unfold insert at h
    split at h
    · simpa using h
    · split at h
      · grind
      · grind

theorem sorted_insert {k : String} {v : α} {xs : List (String × α)}
    (h : xs.Pairwise (·.1 < ·.1)) : (insert k v xs).Pairwise (·.1 < ·.1) := by
  induction xs with
  | nil => simp [insert]
  | cons x rest ih =>
    obtain ⟨k', v'⟩ := x
    rw [List.pairwise_cons] at h
    unfold insert
    split
    · next hlt =>
      refine List.pairwise_cons.2 ⟨fun e he => ?_, List.pairwise_cons.2 h⟩
      rcases List.mem_cons.1 he with rfl | he
      · exact hlt
      · exact String.lt_trans hlt (h.1 e he)
    · next hge =>
      split
      · next heq => subst heq; exact List.pairwise_cons.2 h
      · next hne =>
        refine List.pairwise_cons.2 ⟨fun e he => ?_, ih h.2⟩
        rcases mem_insert he with rfl | he
        · exact Std.lt_of_le_of_ne (String.not_lt.1 hge) (Ne.symm hne)
        · exact h.1 e he

theorem get?_insert (k l : String) (v : α) (xs : List (String × α)) :
    get? l (insert k v xs) = if l = k then some v else get? l xs := by
  induction xs with
  | nil => simp [insert, get?]
  | cons x rest ih =>
    obtain ⟨k', v'⟩ := x
    unfold insert
    split
    · rfl
    · split
      · next heq => subst heq; by_cases hl : l = k <;> simp [get?, hl]
      · next hne =>
        by_cases hl : l = k'
        · subst hl; simp [get?, Ne.symm hne]
        · simp [get?, hl, ih]

theorem get?_eq_some_iff {k : String} {v : α} {xs : List (String × α)}
    (h : xs.Pairwise (·.1 < ·.1)) : get? k xs = some v ↔ (k, v) ∈ xs := by
  induction xs with
  | nil => simp [get?]
  | cons x rest ih =>
    obtain ⟨k', v'⟩ := x
    rw [List.pairwise_cons] at h
    unfold get?
    split
    · next heq =>
      subst heq
      have hrest : (k, v) ∉ rest := fun hmem => Std.ne_of_lt (h.1 _ hmem) rfl
      simp [hrest, eq_comm]
    · next hne => simp [ih h.2, hne]

/-- Sorted lists with equal lookups are equal. -/
theorem eq_of_get? {xs ys : List (String × α)} (hx : xs.Pairwise (·.1 < ·.1))
    (hy : ys.Pairwise (·.1 < ·.1)) (h : ∀ k, get? k xs = get? k ys) : xs = ys :=
  eq_of_ascending hx hy fun (k, v) => by
    rw [← get?_eq_some_iff hx, ← get?_eq_some_iff hy, h]

/-- What is larger than all keys comes last. -/
theorem insert_of_lt {k : String} {v : α} {xs : List (String × α)} (h : ∀ e ∈ xs, e.1 < k) :
    insert k v xs = xs ++ [(k, v)] := by
  induction xs with
  | nil => rfl
  | cons x rest ih =>
    obtain ⟨hx, hrest⟩ := List.forall_mem_cons.1 h
    unfold insert
    rw [if_neg (Std.not_lt.2 (Std.le_of_lt hx)), if_neg (Std.ne_of_lt hx).symm, ih hrest]
    rfl

end Bindings

/-! ## The map -/

/-- A finite map from texts to values. -/
structure SortedMap (α : Type) where
  /-- The bindings in ascending order of their keys. -/
  entries : List (String × α)
  /-- No key occurs twice, and each stands before the larger ones. -/
  sorted : entries.Pairwise (·.1 < ·.1)

namespace SortedMap

/-- The map that binds nothing. -/
def empty : SortedMap α := ⟨[], List.Pairwise.nil⟩

instance : EmptyCollection (SortedMap α) := ⟨empty⟩
instance : Inhabited (SortedMap α) := ⟨empty⟩

instance [DecidableEq α] : DecidableEq (SortedMap α) := fun a b =>
  decidable_of_iff (a.entries = b.entries)
    ⟨fun h => by cases a; cases b; simp_all, fun h => h ▸ rfl⟩

/-- Bind a key, forgetting what it was bound to. -/
def insert (m : SortedMap α) (k : String) (v : α) : SortedMap α :=
  ⟨Bindings.insert k v m.entries, Bindings.sorted_insert m.sorted⟩

/-- The value bound to a key. -/
def get? (m : SortedMap α) (k : String) : Option α := Bindings.get? k m.entries

/-- Whether a key is bound. -/
def contains (m : SortedMap α) (k : String) : Bool := (m.get? k).isSome

/-- The keys in ascending order. -/
def keys (m : SortedMap α) : List String := m.entries.map (·.1)

/-- The values in ascending order of their keys. -/
def values (m : SortedMap α) : List α := m.entries.map (·.2)

/-- Whether nothing is bound. -/
def isEmpty (m : SortedMap α) : Bool := m.entries.isEmpty

/-- The map of a list of bindings, later ones replacing earlier ones. -/
def ofList (xs : List (String × α)) : SortedMap α :=
  xs.foldl (fun m e => m.insert e.1 e.2) empty

@[simp] theorem get?_empty (k : String) : (empty : SortedMap α).get? k = none := rfl

@[simp] theorem get?_insert (m : SortedMap α) (k l : String) (v : α) :
    (m.insert k v).get? l = if l = k then some v else m.get? l :=
  Bindings.get?_insert k l v m.entries

theorem keys_sorted (m : SortedMap α) : m.keys.Pairwise (· < ·) :=
  List.pairwise_map.2 m.sorted

theorem ext_get? {m n : SortedMap α} (h : ∀ k, m.get? k = n.get? k) : m = n := by
  cases m with
  | mk xs hx =>
    cases n with
    | mk ys hy =>
      have : xs = ys := Bindings.eq_of_get? hx hy h
      subst this
      rfl

/-- Bindings of different keys can be made in any order. -/
theorem insert_comm {k l : String} (hne : k ≠ l) (m : SortedMap α) (v u : α) :
    (m.insert k v).insert l u = (m.insert l u).insert k v := by
  refine ext_get? fun i => ?_
  by_cases hk : i = k
  · subst hk
    simp [hne]
  · simp [hk]

theorem mem_keys_iff {m : SortedMap α} {k : String} : k ∈ m.keys ↔ ∃ v, m.get? k = some v := by
  simp [keys, get?, Bindings.get?_eq_some_iff m.sorted]

/-- The value that is bound last counts. -/
theorem get?_foldl_insert (f : β → α) (xs : List (String × β)) (m : SortedMap α) (k : String) :
    (xs.foldl (fun m e => m.insert e.1 (f e.2)) m).get? k =
      (((xs.filter (·.1 = k)).getLast?).map fun e => f e.2).or (m.get? k) := by
  induction xs generalizing m with
  | nil => rfl
  | cons x xs ih =>
    rw [List.foldl_cons, ih, get?_insert]
    by_cases hx : k = x.1
    · rw [if_pos hx, List.filter_cons_of_pos (by simp [hx]), List.getLast?_cons]
      cases (xs.filter (·.1 = k)).getLast? <;> rfl
    · rw [if_neg hx, List.filter_cons_of_neg (by simpa using Ne.symm hx)]

theorem eq_of_entries {m n : SortedMap α} (h : m.entries = n.entries) : m = n := by
  cases m
  cases n
  cases h
  rfl

/-- A map is the map of its bindings. -/
theorem ofList_entries (m : SortedMap α) : ofList m.entries = m := by
  have happend : ∀ (xs : List (String × α)) (acc : SortedMap α),
      (acc.entries ++ xs).Pairwise (·.1 < ·.1) →
      (xs.foldl (fun m e => m.insert e.1 e.2) acc).entries = acc.entries ++ xs := by
    intro xs
    induction xs with
    | nil => simp
    | cons x xs ih =>
      intro acc hsorted
      have hlt : ∀ e ∈ acc.entries, e.1 < x.1 := fun e he =>
        (List.pairwise_append.1 hsorted).2.2 e he x (by simp)
      have hinsert : (acc.insert x.1 x.2).entries = acc.entries ++ [x] := Bindings.insert_of_lt hlt
      rw [List.foldl_cons, ih _ (by rw [hinsert]; simpa using hsorted), hinsert]
      simp
  exact eq_of_entries (happend m.entries empty m.sorted)

end SortedMap

end StagedCodegen
