/-!
# One after another

A list of items, each of which leads from one state to the next, is what the stages of a run and the
requests of a program share. Either all items succeed or there is a first that does not
(`InTurn.all_or_first`).
-/

namespace StagedCodegen

variable {ι σ : Type} {step : ι → σ → σ → Prop} {xs ys : List ι} {x y z : σ}

/-- The items, one after another, lead from one state to another. -/
inductive InTurn (step : ι → σ → σ → Prop) : List ι → σ → σ → Prop where
  /-- Nothing leads nowhere. -/
  | nil {x : σ} : InTurn step [] x x
  /-- The first item leads to where the others go on. -/
  | cons {i : ι} {rest : List ι} {x y z : σ} (first : step i x y) (others : InTurn step rest y z) :
      InTurn step (i :: rest) x z

namespace InTurn

/-- Either all items succeed in turn, or there is a first that does not. -/
theorem all_or_first (step : ι → σ → σ → Prop) (xs : List ι) (x : σ) :
    (∃ y, InTurn step xs x y) ∨
      ∃ before i after y, xs = before ++ i :: after ∧ InTurn step before x y ∧
        ∀ z, ¬step i y z := by
  induction xs generalizing x with
  | nil => exact .inl ⟨x, .nil⟩
  | cons i rest ih =>
    by_cases hi : ∃ y, step i x y
    · obtain ⟨y, hy⟩ := hi
      rcases ih y with ⟨z, hz⟩ | ⟨before, j, after, z, rfl, hbefore, hj⟩
      · exact .inl ⟨z, .cons hy hz⟩
      · exact .inr ⟨i :: before, j, after, z, rfl, .cons hy hbefore, hj⟩
    · exact .inr ⟨[], i, rest, x, rfl, .nil, fun z hz => hi ⟨z, hz⟩⟩

/-- Either all items with their indices succeed in turn, or there is a first that does not. -/
theorem all_or_first_zipIdx (step : ι × Nat → σ → σ → Prop) (xs : List ι) (x : σ) :
    (∃ y, InTurn step xs.zipIdx x y) ∨
      ∃ before i after y, xs = before ++ i :: after ∧ InTurn step before.zipIdx x y ∧
        ∀ z, ¬step (i, before.length) y z := by
  rcases all_or_first step xs.zipIdx x with h | ⟨before, ⟨i, n⟩, after, y, hxs, hbefore, hi⟩
  · exact .inl h
  · obtain ⟨ys, zs, rfl, rfl, hzs⟩ := List.zipIdx_eq_append_iff.mp hxs
    obtain ⟨j, ws, rfl, hj, -⟩ := List.zipIdx_eq_cons_iff.mp hzs.symm
    simp only [Prod.mk.injEq, Nat.zero_add] at hj
    obtain ⟨rfl, rfl⟩ := hj
    exact .inr ⟨ys, i, ws, y, rfl, hbefore, hi⟩

/-- What leads on in turn can be divided anywhere. -/
theorem of_append (h : InTurn step (xs ++ ys) x z) :
    ∃ y, InTurn step xs x y ∧ InTurn step ys y z := by
  induction xs generalizing x with
  | nil => exact ⟨x, .nil, h⟩
  | cons i rest ih =>
    cases h with
    | cons first others =>
      obtain ⟨y, hrest, hys⟩ := ih others
      exact ⟨y, .cons first hrest, hys⟩

theorem append (h : InTurn step xs x y) (h' : InTurn step ys y z) :
    InTurn step (xs ++ ys) x z := by
  induction h with
  | nil => exact h'
  | cons first others ih => exact .cons first (ih h')

/-- Other items that do the same lead to the same state. -/
theorem map {ι' : Type} {step' : ι' → σ → σ → Prop} {g : ι → ι'}
    (hstep : ∀ i x y, step i x y → step' (g i) x y) (h : InTurn step xs x y) :
    InTurn step' (xs.map g) x y := by
  induction h with
  | nil => exact .nil
  | cons first others ih => exact .cons (hstep _ _ _ first) ih

/-- If every item adds one entry to a log, the log of all has their entries in order. -/
theorem log_eq {ε : Type} (log : σ → List ε) {entry : ι → ε}
    (hstep : ∀ i x y, step i x y → log y = log x ++ [entry i]) (h : InTurn step xs x y) :
    log y = log x ++ xs.map entry := by
  induction h with
  | nil => simp
  | cons first others ih => simp [ih, hstep _ _ _ first]

end InTurn

end StagedCodegen
