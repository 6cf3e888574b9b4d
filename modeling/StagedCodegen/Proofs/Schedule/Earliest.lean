import StagedCodegen.Proofs.Schedule.Fragments

/-!
# The earliest order

Where dependencies leave a choice, the one registered first goes first. For a whole order this says
that it is the lexicographically smallest: at the first place where another order departs from it,
the other one has a larger index.

Giving out places is greedy (`Progress.Sound.greedy_run`): after the nodes before it, each node is
the least that waits for nobody. Nothing more is needed to compare: at the place where an order that
respects the links departs from a greedy one, what it has there waits for nobody either
(`Greedy.lex`). That a small node which is released late has to come late is part of this, since it
is compared with only after the nodes that it waits for.

Main statement: `order_is_earliest`.
-/

namespace StagedCodegen

namespace Schedule

/-! ## Greedy orders -/

section Greedy

variable {n i : Nat} {nodes order σ : List Nat} {links : List (Nat × Nat)}

/-- Every node in the order is the least of those that could stand in its place: of the nodes that
are not before it, and wait for nobody but nodes before it. -/
def Greedy (nodes : List Nat) (links : List (Nat × Nat)) (order : List Nat) : Prop :=
  ∀ before i after, order = before ++ i :: after →
    ∀ j ∈ nodes, j ∉ before → waiting links before j = 0 → i ≤ j

/-- Every node in the order stands after those that it waits for. -/
def Forward (links : List (Nat × Nat)) (order : List Nat) : Prop :=
  ∀ before i after, order = before ++ i :: after → ∀ l ∈ links, l.2 = i → l.1 ∈ before

namespace Progress

variable {p : Progress} {rest : List Nat}

theorem Sound.greedy_emit (h : Sound n nodes links p) (hready : p.ready = i :: rest)
    (hgreedy : Greedy nodes links p.order) : Greedy nodes links (p.emit links i rest).order := by
  intro before x after hsplit j hj hplace hfree
  rw [emit_order] at hsplit
  rcases List.eq_nil_or_concat after with rfl | ⟨after, y, rfl⟩
  · -- `x` has just got its place: it was the first of the ready nodes, and `j` is one of them
    obtain ⟨rfl, hix⟩ := List.append_inj' hsplit rfl
    obtain rfl := List.singleton_inj.1 hix
    have hmem : j ∈ i :: rest := hready ▸ (h.mem_ready j).2 ⟨hj, hplace, hfree⟩
    rcases List.mem_cons.1 hmem with rfl | hmem
    · exact le_rfl
    · exact ((List.pairwise_cons.1 (hready ▸ h.sorted)).1 j hmem).le
  · rw [List.concat_eq_append, ← List.cons_append, ← List.append_assoc] at hsplit
    exact hgreedy before x after (List.append_inj' hsplit rfl).1 j hj hplace hfree

theorem Sound.greedy_run (hlinks : Linked n nodes links) (h : Sound n nodes links p)
    (hgreedy : Greedy nodes links p.order) (k : Nat) :
    Greedy nodes links (p.run links k).order := by
  induction k generalizing p with
  | zero => exact hgreedy
  | succ k ih =>
    unfold Progress.run
    split
    · exact hgreedy
    · next i rest hready => exact ih (h.emit hlinks hready) (h.greedy_emit hready hgreedy)

end Progress

/-- Two lists of one length agree up to some place, and have different items there. -/
theorem exists_departure (hlength : order.length = σ.length) (hne : order ≠ σ) :
    ∃ before i j after after', order = before ++ i :: after ∧ σ = before ++ j :: after' ∧
      i ≠ j := by
  induction order generalizing σ with
  | nil => exact absurd (List.eq_nil_of_length_eq_zero hlength.symm).symm hne
  | cons i order ih =>
    cases σ with
    | nil => cases hlength
    | cons j σ =>
      by_cases hij : i = j
      · subst hij
        obtain ⟨before, x, y, after, after', rfl, rfl, hxy⟩ :=
          ih (Nat.succ.inj hlength) fun heq => hne (by rw [heq])
        exact ⟨i :: before, x, y, after, after', rfl, rfl, hxy⟩
      · exact ⟨[], i, j, order, σ, rfl, rfl, hij⟩

/-- A greedy order comes before every other order of the same nodes that goes forward. -/
theorem Greedy.lex (h : Greedy nodes links order) (horder : order.Perm nodes) (hσ : σ.Perm nodes)
    (hnodup : σ.Nodup) (hforward : Forward links σ) (hne : σ ≠ order) :
    List.Lex (· < ·) order σ := by
  obtain ⟨before, i, j, after, after', hsplit, hsplit', hij⟩ :=
    exists_departure (horder.length_eq.trans hσ.length_eq.symm) hne.symm
  have hj : j ∈ nodes := hσ.mem_iff.1 (hsplit' ▸ List.mem_append_right _ List.mem_cons_self)
  have hplace : j ∉ before := fun hmem =>
    (List.nodup_append.1 (hsplit' ▸ hnodup)).2.2 j hmem j List.mem_cons_self rfl
  -- all that `j` waits for is before it in the one order, hence in both
  have hfree : waiting links before j = 0 :=
    waiting_eq_zero_iff.2 (hforward before j after' hsplit')
  have hle : i ≤ j := h before i after hsplit j hj hplace hfree
  rw [hsplit, hsplit']
  exact List.Lex.append_left _ (.rel (lt_of_le_of_ne hle hij)) before

/-- There is one greedy order of the nodes that goes forward. -/
theorem Greedy.unique (h : Greedy nodes links order) (h' : Greedy nodes links σ)
    (hnodup : nodes.Nodup) (horder : order.Perm nodes) (hσ : σ.Perm nodes)
    (hforward : Forward links order) (hforward' : Forward links σ) : order = σ := by
  by_contra hne
  have hless := h.lex horder hσ (hσ.nodup_iff.2 hnodup) hforward' (Ne.symm hne)
  have hgreater := h'.lex hσ horder (horder.nodup_iff.2 hnodup) hforward hne
  exact List.lt_asymm hless hgreater

end Greedy

/-! ## Schedules -/

variable {fs : List FragmentEntry} {s : FragmentSchedule} {σ : List Nat}

/-- An order of all registrations that run, in which each comes after everyone whose key it depends
on. -/
structure Respects (fs : List FragmentEntry) (σ : List Nat) : Prop where
  /-- Everyone who runs has one place. -/
  perm : σ.Perm ((active fs).map (·.2))
  /-- Whoever somebody depends on comes before them. -/
  before : ∀ i j f g, Runs fs i f → Runs fs j g → f.key ∈ g.dependsOn → σ.idxOf i < σ.idxOf j

theorem Respects.nodup (h : Respects fs σ) : σ.Nodup :=
  h.perm.nodup_iff.2 (linked.sorted.imp fun hlt => Nat.ne_of_lt hlt)

theorem Respects.forward (h : Respects fs σ) : Forward (links (active fs)) σ := by
  rintro before j after hsplit ⟨i, j⟩ hl rfl
  obtain ⟨f, g, hf, hg, hd⟩ := mem_links.1 hl
  have hlt := h.before i j f g hf hg hd
  have hnot : j ∉ before := by
    intro hmem
    have hnodup := h.nodup
    rw [hsplit] at hnodup
    exact (List.nodup_append.1 hnodup).2.2 j hmem j List.mem_cons_self rfl
  by_contra hi
  rw [hsplit, List.idxOf_append_of_notMem hi, List.idxOf_append_of_notMem hnot,
    List.idxOf_cons_self] at hlt
  omega

theorem respects_order (hacyclic : Acyclic fs) : Respects fs (order fs.length (active fs)) where
  perm := order_perm hacyclic
  before _ _ _ g hf hg hd :=
    idxOf_lt_of_dependsOn hf hg hd ((order_perm hacyclic).mem_iff.2 (mem_indices.2 ⟨g, hg⟩))

theorem greedy_order :
    Greedy ((active fs).map (·.2)) (links (active fs)) (order fs.length (active fs)) :=
  sound_start.greedy_run linked
    (fun _ _ _ h => absurd h (by simp [progress, Progress.run, start])) _

/-- **Who goes first.** A schedule has all registrations that run in an order in which each comes
after everyone whose key it depends on, and of all such orders the lexicographically smallest. -/
theorem order_is_earliest (h : fragments fs = .ok s) :
    Respects fs s.order ∧ ∀ σ, Respects fs σ → σ ≠ s.order → List.Lex (· < ·) s.order σ := by
  obtain ⟨-, hacyclic, rfl⟩ := fragments_eq_ok_iff.1 h
  exact ⟨respects_order hacyclic, fun σ hσ hne =>
    greedy_order.lex (order_perm hacyclic) hσ.perm hσ.nodup hσ.forward hne⟩

/-- The first registration is released last, and the second one only by a larger one. -/
theorem order_is_earliest_released :
    let fs : List FragmentEntry :=
      [⟨"plan", ["books", "meta"], .extend, none⟩, ⟨"books", ["meta"], .extend, none⟩,
        ⟨"films", [], .extend, none⟩, ⟨"meta", [], .extend, none⟩, ⟨"books", [], .extend, none⟩]
    fragments fs = .ok ⟨[2, 3, 1, 4, 0], []⟩ ∧ Respects fs [2, 3, 1, 4, 0] ∧
      ∀ σ, Respects fs σ → σ ≠ [2, 3, 1, 4, 0] → List.Lex (· < ·) [2, 3, 1, 4, 0] σ := by
  intro fs
  have h : fragments fs = .ok ⟨[2, 3, 1, 4, 0], []⟩ := by cbv
  exact ⟨h, order_is_earliest h⟩

end Schedule

end StagedCodegen
