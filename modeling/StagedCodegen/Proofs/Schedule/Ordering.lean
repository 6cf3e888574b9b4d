import Mathlib.Data.Set.Finite.List
import Mathlib.Order.WellFoundedSet
import StagedCodegen.Schedule

/-!
# The ordering

Giving out places, for any links between numbered nodes. The invariant is `Progress.Sound`: every
degree counts the links from nodes without a place, the nodes of degree zero without a place are
ready, and every node with a place stands after all that it waits for. One step keeps it
(`Progress.Sound.emit`), so a run does (`Progress.Sound.run`); with a place for each node to give
out, a run ends with nobody ready (`Progress.Sound.ready_run`).

Main statement: `Progress.Sound.complete`, by which nobody is left over when nobody is ready and the
links go round in no circle.
-/

namespace StagedCodegen

namespace Schedule

/-- Links between nodes in ascending order, all of them below `n`. -/
structure Linked (n : Nat) (nodes : List Nat) (links : List (Nat × Nat)) : Prop where
  /-- The nodes ascend. -/
  sorted : nodes.Pairwise (· < ·)
  /-- The nodes are below the bound. -/
  bounded : ∀ i ∈ nodes, i < n
  /-- A link starts at a node. -/
  source : ∀ l ∈ links, l.1 ∈ nodes
  /-- A link ends at a node. -/
  target : ∀ l ∈ links, l.2 ∈ nodes

/-- The number of links to `j` from nodes that have no place in `order`. -/
def waiting (links : List (Nat × Nat)) (order : List Nat) (j : Nat) : Nat :=
  links.countP fun l => l.2 = j ∧ l.1 ∉ order

/-- The nodes that wait for `i`, each as often as it does. -/
def waitingFor (links : List (Nat × Nat)) (i : Nat) : List Nat :=
  (links.filter (·.1 = i)).map (·.2)

variable {n i j : Nat} {nodes order : List Nat} {links : List (Nat × Nat)}

theorem waiting_eq_zero_iff :
    waiting links order j = 0 ↔ ∀ l ∈ links, l.2 = j → l.1 ∈ order := by
  simp [waiting]

theorem mem_waitingFor : j ∈ waitingFor links i ↔ (i, j) ∈ links := by
  simp [waitingFor]

theorem waiting_cons (l : Nat × Nat) :
    waiting (l :: links) order j =
      waiting links order j + if l.2 = j ∧ l.1 ∉ order then 1 else 0 := by
  simp [waiting, List.countP_cons]

theorem count_waitingFor_cons (l : Nat × Nat) :
    (waitingFor (l :: links) i).count j =
      (waitingFor links i).count j + if l.1 = i ∧ l.2 = j then 1 else 0 := by
  by_cases hi : l.1 = i <;> simp [waitingFor, List.count_cons, hi]

/-- A place for `i` takes its links off the degrees of those that wait for it. -/
theorem waiting_append (links : List (Nat × Nat)) (hi : i ∉ order) (j : Nat) :
    waiting links order j = waiting links (order ++ [i]) j + (waitingFor links i).count j := by
  induction links with
  | nil => rfl
  | cons l links ih =>
    rw [waiting_cons, waiting_cons, count_waitingFor_cons, ih]
    by_cases hl : l.1 = i
    · simp [hl, hi]
      omega
    · simp [hl]
      omega

/-! ## Releasing -/

namespace Progress

variable {p : Progress} {js : List Nat} {x : Nat}

theorem mem_insertAscending {js : List Nat} : x ∈ insertAscending i js ↔ x = i ∨ x ∈ js := by
  induction js with
  | nil => simp [insertAscending]
  | cons k ks ih =>
    unfold insertAscending
    split
    · simp
    · split
      · next h => subst h; simp
      · simp only [List.mem_cons, ih]
        tauto

theorem sorted_insertAscending {js : List Nat} (h : js.Pairwise (· < ·)) :
    (insertAscending i js).Pairwise (· < ·) := by
  induction js with
  | nil => simp [insertAscending]
  | cons k ks ih =>
    rw [List.pairwise_cons] at h
    unfold insertAscending
    split
    · next hlt =>
      refine List.pairwise_cons.2 ⟨fun a ha => ?_, List.pairwise_cons.2 h⟩
      rcases List.mem_cons.1 ha with rfl | ha
      · exact hlt
      · exact hlt.trans (h.1 a ha)
    · split
      · exact List.pairwise_cons.2 h
      · refine List.pairwise_cons.2 ⟨fun a ha => ?_, ih h.2⟩
        rcases mem_insertAscending.1 ha with rfl | ha
        · omega
        · exact h.1 a ha

@[simp] theorem release_order : (p.release i).order = p.order := by
  unfold release
  dsimp only
  split <;> rfl

theorem release_degrees : (p.release i).degrees = p.degrees.modify i (· - 1) := by
  unfold release
  dsimp only
  split <;> rfl

theorem getElem?_release : (p.release i).degrees[x]? =
    if i = x then p.degrees[x]?.map (· - 1) else p.degrees[x]? := by
  rw [release_degrees, List.getElem?_modify]
  split <;> simp

/-- Who is released is ready once its degree has come down to zero. -/
theorem release_ready : (p.release i).ready =
    if (p.release i).degrees[i]? = some 0 then insertAscending i p.ready else p.ready := by
  rw [release_degrees]
  unfold release
  dsimp only
  split
  · rfl
  · rfl

theorem mem_release_ready :
    x ∈ (p.release i).ready ↔ x ∈ p.ready ∨ x = i ∧ (p.release i).degrees[i]? = some 0 := by
  rw [release_ready]
  split
  · next h => simp only [h, mem_insertAscending, and_true, or_comm]
  · next h => simp only [h, and_false, or_false]

theorem sorted_release (h : p.ready.Pairwise (· < ·)) :
    (p.release i).ready.Pairwise (· < ·) := by
  rw [release_ready]
  split
  · exact sorted_insertAscending h
  · exact h

/-! ## Releasing all that wait for a node -/

theorem foldl_release_order : (js.foldl release p).order = p.order := by
  induction js generalizing p with
  | nil => rfl
  | cons i js ih => rw [List.foldl_cons, ih, release_order]

theorem sorted_foldl_release (h : p.ready.Pairwise (· < ·)) :
    (js.foldl release p).ready.Pairwise (· < ·) := by
  induction js generalizing p with
  | nil => exact h
  | cons i js ih => exact ih (sorted_release h)

theorem getElem?_foldl_release :
    (js.foldl release p).degrees[x]? = p.degrees[x]?.map (· - js.count x) := by
  induction js generalizing p with
  | nil => simp
  | cons i js ih =>
    rw [List.foldl_cons, ih, getElem?_release, List.count_cons]
    by_cases h : i = x
    · subst h
      simp only [↓reduceIte, Option.map_map, beq_self_eq_true]
      congr 1
      funext d
      simp only [Function.comp]
      omega
    · simp [h]

/-- As long as no degree is less than what is taken off it, those become ready whose degree is all
taken off. -/
theorem mem_foldl_release_ready
    (h : ∀ j ∈ js, ∃ d, p.degrees[j]? = some d ∧ js.count j ≤ d) :
    x ∈ (js.foldl release p).ready ↔
      x ∈ p.ready ∨ x ∈ js ∧ p.degrees[x]? = some (js.count x) := by
  induction js generalizing p with
  | nil => simp
  | cons i js ih =>
    obtain ⟨d, hd, hle⟩ := h i (List.mem_cons_self ..)
    rw [List.count_cons_self] at hle
    have hrest : ∀ j ∈ js, ∃ d, (p.release i).degrees[j]? = some d ∧ js.count j ≤ d := by
      intro j hj
      obtain ⟨d', hd', hle'⟩ := h j (List.mem_cons_of_mem _ hj)
      rw [List.count_cons] at hle'
      by_cases hij : i = j
      · subst hij
        exact ⟨d' - 1, by simp [getElem?_release, hd'], by simp at hle'; omega⟩
      · exact ⟨d', by simp [getElem?_release, hij, hd'], by simpa [hij] using hle'⟩
    rw [List.foldl_cons, ih hrest, mem_release_ready]
    -- if `i` comes again later on, it is not ready yet
    by_cases hx : x = i
    · subst hx
      have hpos : x ∈ js ↔ 0 < js.count x := List.count_pos_iff.symm
      simp only [getElem?_release, hd, List.count_cons_self, hpos, List.mem_cons, true_or, true_and,
        ↓reduceIte, Option.map_some, Option.some.injEq, or_assoc]
      refine or_congr_right ?_
      omega
    · simp [getElem?_release, hx, Ne.symm hx]

/-! ## The invariant -/

/-- An ordering that has kept account of who waits for whom. -/
structure Sound (n : Nat) (nodes : List Nat) (links : List (Nat × Nat)) (p : Progress) : Prop where
  /-- A degree is the number of links from nodes without a place. -/
  degrees : ∀ i < n, p.degrees[i]? = some (waiting links p.order i)
  /-- The nodes that are ready ascend. -/
  sorted : p.ready.Pairwise (· < ·)
  /-- Those are ready that have no place and wait for nobody. -/
  mem_ready : ∀ i, i ∈ p.ready ↔ i ∈ nodes ∧ i ∉ p.order ∧ waiting links p.order i = 0
  /-- Only nodes have places. -/
  order_subset : ∀ i ∈ p.order, i ∈ nodes
  /-- No node has two places. -/
  nodup : p.order.Nodup
  /-- A node with a place stands after all that it waited for. -/
  respects : ∀ before i after, p.order = before ++ i :: after →
    ∀ l ∈ links, l.2 = i → l.1 ∈ before

variable {rest : List Nat}

/-- Whoever has a place waits for nobody without one. -/
theorem Sound.waiting_eq_zero (h : Sound n nodes links p) (hi : i ∈ p.order) :
    waiting links p.order i = 0 := by
  obtain ⟨before, after, hsplit⟩ := List.append_of_mem hi
  refine waiting_eq_zero_iff.2 fun l hl hli => ?_
  rw [hsplit]
  exact List.mem_append_left _ (h.respects before i after hsplit l hl hli)

/-- The first that is ready. -/
theorem Sound.head (h : Sound n nodes links p) (hready : p.ready = i :: rest) :
    i ∈ nodes ∧ i ∉ p.order ∧ waiting links p.order i = 0 :=
  (h.mem_ready i).1 (hready ▸ List.mem_cons_self ..)

theorem emit_eq : p.emit links i rest =
    (waitingFor links i).foldl release { p with ready := rest, order := p.order ++ [i] } := rfl

theorem emit_order : (p.emit links i rest).order = p.order ++ [i] := by
  rw [emit_eq, foldl_release_order]

/-- Whoever waits for the node that is to get the next place has no place, and is not that node. -/
theorem Sound.unplaced (h : Sound n nodes links p) (hready : p.ready = i :: rest)
    (hx : x ∈ waitingFor links i) : x ∉ p.order ∧ x ≠ i := by
  obtain ⟨-, hplace, hfree⟩ := h.head hready
  have hpos : 0 < (waitingFor links i).count x := List.count_pos_iff.2 hx
  have hsum := waiting_append links hplace x
  constructor
  · intro hplaced
    have := h.waiting_eq_zero hplaced
    omega
  · rintro rfl
    omega

/-- Who is ready after a place was given to `i`: those who were ready before, and those for whom `i`
was all that they still waited for. -/
theorem Sound.mem_ready_emit (hlinks : Linked n nodes links) (h : Sound n nodes links p)
    (hready : p.ready = i :: rest) (x : Nat) :
    x ∈ rest ∨ x ∈ waitingFor links i ∧ waiting links p.order x = (waitingFor links i).count x ↔
      x ∈ nodes ∧ x ∉ p.order ++ [i] ∧ waiting links (p.order ++ [i]) x = 0 := by
  obtain ⟨-, hplace, hfree⟩ := h.head hready
  have hrest := (List.pairwise_cons.1 (hready ▸ h.sorted)).1
  have hsum := waiting_append links hplace x
  rw [List.mem_append, List.mem_singleton, not_or]
  constructor
  · rintro (hx | ⟨hx, hx'⟩)
    · obtain ⟨hnode, hx', hzero⟩ := (h.mem_ready x).1 (hready ▸ List.mem_cons_of_mem _ hx)
      have := hrest x hx
      exact ⟨hnode, ⟨hx', by omega⟩, by omega⟩
    · exact ⟨hlinks.target _ (mem_waitingFor.1 hx), h.unplaced hready hx, by omega⟩
  · rintro ⟨hnode, ⟨hx, hxi⟩, hzero⟩
    by_cases hmem : x ∈ waitingFor links i
    · exact .inr ⟨hmem, by omega⟩
    · have hcount := List.count_eq_zero_of_not_mem hmem
      have hx' : x ∈ p.ready := (h.mem_ready x).2 ⟨hnode, hx, by omega⟩
      rw [hready] at hx'
      exact .inl ((List.mem_cons.1 hx').resolve_left hxi)

/-- One place more. -/
theorem Sound.emit (hlinks : Linked n nodes links) (h : Sound n nodes links p)
    (hready : p.ready = i :: rest) : Sound n nodes links (p.emit links i rest) := by
  obtain ⟨hi, hplace, hfree⟩ := h.head hready
  have hcount : ∀ j < n, p.degrees[j]? =
      some (waiting links (p.order ++ [i]) j + (waitingFor links i).count j) := by
    intro j hj
    rw [h.degrees j hj, waiting_append links hplace j]
  have hbound : ∀ j ∈ waitingFor links i, j < n := fun j hj =>
    hlinks.bounded j (hlinks.target _ (mem_waitingFor.1 hj))
  refine ⟨?_, ?_, ?_, ?_, ?_, ?_⟩
  · intro j hj
    rw [emit_order, emit_eq, getElem?_foldl_release, hcount j hj]
    simp
  · exact sorted_foldl_release (List.pairwise_cons.1 (hready ▸ h.sorted)).2
  · intro x
    have hfold := mem_foldl_release_ready (x := x)
      (p := { p with ready := rest, order := p.order ++ [i] })
      fun j hj => ⟨_, hcount j (hbound j hj), Nat.le_add_left _ _⟩
    rw [emit_order, emit_eq, hfold, ← h.mem_ready_emit hlinks hready x]
    refine or_congr_right (and_congr_right fun hx => ?_)
    simp [h.degrees x (hbound x hx)]
  · rw [emit_order]
    simpa [or_imp, forall_and] using ⟨h.order_subset, hi⟩
  · rw [emit_order, List.nodup_append]
    refine ⟨h.nodup, List.nodup_singleton i, fun a ha b hb hab => hplace ?_⟩
    rwa [← List.mem_singleton.1 hb, ← hab]
  · intro before x after hsplit l hl hlx
    rw [emit_order] at hsplit
    -- either `x` has just got its place, and waits for nobody, or it had one before
    rcases List.eq_nil_or_concat after with rfl | ⟨after, y, rfl⟩
    · obtain ⟨rfl, hix⟩ := List.append_inj' hsplit rfl
      obtain rfl := List.singleton_inj.1 hix
      exact waiting_eq_zero_iff.1 hfree l hl hlx
    · rw [List.concat_eq_append, ← List.cons_append, ← List.append_assoc] at hsplit
      exact h.respects before x after (List.append_inj' hsplit rfl).1 l hl hlx

/-- Giving out places keeps the account. -/
theorem Sound.run (hlinks : Linked n nodes links) (h : Sound n nodes links p) (k : Nat) :
    Sound n nodes links (p.run links k) := by
  induction k generalizing p with
  | zero => exact h
  | succ k ih =>
    unfold Progress.run
    split
    · exact h
    · next i rest hready => exact ih (h.emit hlinks hready)

/-- While somebody is ready, some node has no place. -/
theorem Sound.length_lt (h : Sound n nodes links p) (hready : p.ready = i :: rest) :
    p.order.length < nodes.length := by
  obtain ⟨hi, hplace, -⟩ := h.head hready
  have hsub : i :: p.order ⊆ nodes := List.cons_subset.2 ⟨hi, h.order_subset⟩
  exact (List.subperm_of_subset (List.nodup_cons.2 ⟨hplace, h.nodup⟩) hsub).length_le

/-- With a place for every node to give out, a run ends with nobody ready. -/
theorem Sound.ready_run (hlinks : Linked n nodes links) (h : Sound n nodes links p) {k : Nat}
    (hk : nodes.length ≤ p.order.length + k) : (p.run links k).ready = [] := by
  induction k generalizing p with
  | zero =>
    cases hready : p.ready with
    | nil => exact hready
    | cons i rest =>
      have := h.length_lt hready
      omega
  | succ k ih =>
    unfold Progress.run
    split
    · assumption
    · next i rest hready =>
      refine ih (h.emit hlinks hready) ?_
      rw [emit_order, List.length_append, List.length_singleton]
      omega

/-- If nobody is ready and the links go round in no circle, every node has its place: by induction
along the links, whoever has nobody left to wait for would be ready. -/
theorem Sound.complete (hlinks : Linked n nodes links) (h : Sound n nodes links p)
    (hready : p.ready = []) (hacyclic : ∀ i, ¬Relation.TransGen (fun i j => (i, j) ∈ links) i i) :
    p.order.Perm nodes := by
  let before := Relation.TransGen fun i j => (i, j) ∈ links
  -- without circles the links make a strict order, which is well founded on finitely many nodes
  have : IsStrictOrder Nat before :=
    { irrefl := hacyclic, trans := fun _ _ _ => Relation.TransGen.trans }
  have hfounded : {i | i ∈ nodes}.WellFoundedOn before := nodes.finite_toSet.wellFoundedOn
  have hplaced : ∀ i ∈ nodes, i ∈ p.order := by
    intro i hi
    refine hfounded.induction hi fun j hj ih => ?_
    by_contra hplace
    have hfree : waiting links p.order j = 0 := by
      refine waiting_eq_zero_iff.2 ?_
      rintro ⟨k, j⟩ hl rfl
      exact ih k (hlinks.source _ hl) (.single hl)
    have hmem : j ∈ p.ready := (h.mem_ready j).2 ⟨hj, hplace, hfree⟩
    rw [hready] at hmem
    cases hmem
  have hnodes : nodes.Nodup := hlinks.sorted.imp fun hlt => Nat.ne_of_lt hlt
  exact (List.perm_ext_iff_of_nodup h.nodup hnodes).2 fun i => ⟨h.order_subset i, hplaced i⟩

end Progress

end Schedule

end StagedCodegen
