import StagedCodegen.Proofs.Schedule.Deletions
import StagedCodegen.Proofs.Text.Bytes

/-!
# The order of builders

Builders are sorted by priority, by the bytes of their keys and by registration. As no two of them
were registered at once, this leaves no choice (`Before.asymm`), so that there is one order only in
which all builders can come (`eq_builders`). Whatever is said of it need not look at how they are
sorted: without one builder, what is left of the order is in order again (`Before.eraseIdx`).

Main statement: `builders_in_order`.
-/

namespace StagedCodegen

namespace Schedule

variable {bs : List BuilderEntry} {order : List Nat} {a b : BuilderEntry × Nat} {i j k : Nat}

/-! ## Who comes first -/

/-- The first builder is of higher priority than the second, or of the same and comes first by the
bytes of its key, or was registered earlier under the same key. -/
def Before (bs : List BuilderEntry) (i j : Nat) : Prop :=
  ∃ b c, bs[i]? = some b ∧ bs[j]? = some c ∧ (c.priority < b.priority ∨
    b.priority = c.priority ∧ (Text.bytes b.key < Text.bytes c.key ∨ b.key = c.key ∧ i < j))

theorem precedes_iff : precedes a b = true ↔ b.1.priority < a.1.priority ∨
    a.1.priority = b.1.priority ∧ (a.1.key < b.1.key ∨ a.1.key = b.1.key ∧ a.2 ≤ b.2) := by
  simp [precedes]

theorem precedes_trans (a b c : BuilderEntry × Nat) (hab : precedes a b = true)
    (hbc : precedes b c = true) : precedes a c = true := by
  rw [precedes_iff] at *
  grind

theorem precedes_total (a b : BuilderEntry × Nat) : (precedes a b || precedes b a) = true := by
  rw [Bool.or_eq_true, precedes_iff, precedes_iff]
  grind

/-- One builder comes before another just if it precedes it and is not the same. -/
theorem before_iff {b c : BuilderEntry} (hb : bs[i]? = some b) (hc : bs[j]? = some c) :
    Before bs i j ↔ precedes (b, i) (c, j) = true ∧ i ≠ j := by
  have hbefore : Before bs i j ↔ c.priority < b.priority ∨
      b.priority = c.priority ∧ (b.key < c.key ∨ b.key = c.key ∧ i < j) := by
    simp [Before, hb, hc, Text.bytes_lt_iff]
  have hsame : i = j → b = c := by
    rintro rfl
    exact Option.some.inj (hb.symm.trans hc)
  rw [hbefore, precedes_iff]
  grind

theorem Before.asymm (h : Before bs i j) : ¬Before bs j i := by
  obtain ⟨b, c, hb, hc, -⟩ := id h
  rw [before_iff hb hc, precedes_iff] at h
  rw [before_iff hc hb, precedes_iff]
  grind

/-! ## Sorting -/

theorem builders_perm (bs : List BuilderEntry) : (builders bs).Perm (List.range bs.length) := by
  have hperm := (List.mergeSort_perm bs.zipIdx precedes).map Prod.snd
  rwa [List.zipIdx_map_snd, ← List.range_eq_range'] at hperm

theorem nodup_builders (bs : List BuilderEntry) : (builders bs).Nodup :=
  (builders_perm bs).nodup_iff.2 List.nodup_range

theorem mem_builders : i ∈ builders bs ↔ ∃ b, bs[i]? = some b := by
  rw [(builders_perm bs).mem_iff, List.mem_range, ← Option.isSome_iff_exists,
    isSome_getElem?]

/-- Builders come in the order in which they are said to. -/
theorem pairwise_builders (bs : List BuilderEntry) : (builders bs).Pairwise (Before bs) := by
  have hsorted := List.pairwise_mergeSort precedes_trans precedes_total bs.zipIdx
  have hdistinct : (bs.zipIdx.mergeSort precedes).Pairwise (·.2 ≠ ·.2) :=
    List.pairwise_map.1 (nodup_builders bs)
  refine List.pairwise_map.2 ((hsorted.and hdistinct).imp_of_mem ?_)
  rintro ⟨b, i⟩ ⟨c, j⟩ hb hc ⟨hprecedes, hne⟩
  rw [List.mem_mergeSort, List.mem_zipIdx_iff_getElem?] at hb hc
  exact (before_iff hb hc).2 ⟨hprecedes, hne⟩

/-- There is one such order only. -/
theorem eq_builders (hperm : order.Perm (List.range bs.length))
    (horder : order.Pairwise (Before bs)) : order = builders bs :=
  (hperm.trans (builders_perm bs).symm).eq_of_pairwise
    (fun _ _ _ _ hij hji => absurd hji hij.asymm) horder (pairwise_builders bs)

/-! ## Builders that are left out -/

/-- Who is left comes as before. -/
theorem Before.eraseIdx (h : Before bs j k) (hj : j ≠ i) (hk : k ≠ i) :
    Before (bs.eraseIdx i) (renumbered [i] j) (renumbered [i] k) := by
  have hsingle := List.nodup_singleton i
  obtain ⟨b, c, hb, hc, hbefore⟩ := h
  refine ⟨b, c, getElem?_eraseIdx_eq_some_iff.2 ⟨j, hj, hb, rfl⟩,
    getElem?_eraseIdx_eq_some_iff.2 ⟨k, hk, hc, rfl⟩, ?_⟩
  refine hbefore.imp_right fun hsame => ⟨hsame.1, hsame.2.imp_right fun hkey => ⟨hkey.1, ?_⟩⟩
  exact renumbered_lt hsingle (by simpa using hj) hkey.2

/-- Whoever is left out, the others keep their order. -/
theorem builders_eraseIdx (bs : List BuilderEntry) (i : Nat) :
    builders (bs.eraseIdx i) = remaining [i] (builders bs) := by
  have hsingle := List.nodup_singleton i
  refine (eq_builders ?_ ?_).symm
  · refine ((List.perm_ext_iff_of_nodup (nodup_remaining hsingle (nodup_builders bs))
      (nodup_builders _)).2 fun j => ?_).trans (builders_perm _)
    rw [mem_remaining, mem_builders]
    simp only [mem_builders, getElem?_eraseIdx_eq_some_iff, List.mem_singleton]
    grind
  · have hleft : ((builders bs).filter (· ∉ [i])).Pairwise (Before bs) :=
      (pairwise_builders bs).filter _
    refine List.pairwise_map.2 (hleft.imp_of_mem fun {j k} hj hk h => ?_)
    exact h.eraseIdx (by simpa using (List.mem_filter.1 hj).2)
      (by simpa using (List.mem_filter.1 hk).2)

/-- **The order of builders.** Whatever the priorities and the keys are, there is one order in which
every builder comes once, and after all that are of higher priority, or of the same and with a
lesser key by bytes, or under the same key and registered earlier; and in this order they run.
Without one of them, the others run in the same order, and the indices after it are less by one. -/
theorem builders_in_order (bs : List BuilderEntry) :
    (∀ order : List Nat, order = builders bs ↔
      order.Perm (List.range bs.length) ∧ order.Pairwise (Before bs)) ∧
    ∀ i, builders (bs.eraseIdx i) =
      ((builders bs).erase i).map fun j => if i < j then j - 1 else j := by
  refine ⟨fun order => ⟨?_, fun h => eq_builders h.1 h.2⟩, fun i => ?_⟩
  · rintro rfl
    exact ⟨builders_perm bs, pairwise_builders bs⟩
  · rw [builders_eraseIdx, remaining_singleton (nodup_builders bs)]

/-- A builder without priority goes from between two others, of which one has the least priority and
the other a key that is greater by its bytes. -/
example :
    let bs : List BuilderEntry :=
      [⟨"z", -2147483648, none⟩, ⟨"é", 0, none⟩, ⟨"z", 0, none⟩, ⟨"a", 2147483647, none⟩]
    builders bs = [3, 2, 1, 0] ∧ builders (bs.eraseIdx 2) = [2, 1, 0] := by
  constructor <;> cbv

end Schedule

end StagedCodegen
