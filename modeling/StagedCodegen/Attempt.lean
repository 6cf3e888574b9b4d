import StagedCodegen.Failure

/-!
# Actions that can fail

An `Attempt` works on a state and either gives a result or fails; what it changed before it failed
stays changed. An `Act` is one that fails with a failure of this library.

Main statements: `bind_eq_ok` and `bind_eq_error`, which take a composed action apart.
-/

namespace StagedCodegen

/-- An action on a state `σ` that may fail with an `ε`. -/
def Attempt (ε σ α : Type) : Type := σ → Except ε α × σ

/-- An action on a state that may fail. -/
abbrev Act (σ α : Type) : Type := Attempt Failure σ α

namespace Attempt

variable {ε σ τ α β : Type}

/-- Nothing but a result. -/
protected def pure (a : α) : Attempt ε σ α := fun s => (.ok a, s)

/-- One action after another, if the first succeeds. -/
protected def bind (x : Attempt ε σ α) (k : α → Attempt ε σ β) : Attempt ε σ β := fun s =>
  match x s with
  | (.ok a, s) => k a s
  | (.error e, s) => (.error e, s)

instance : Monad (Attempt ε σ) where
  pure := Attempt.pure
  bind := Attempt.bind

/-- Fail. -/
def fail (e : ε) : Attempt ε σ α := fun s => (.error e, s)

/-- A result or failure that depends on nothing. -/
def ofExcept (r : Except ε α) : Attempt ε σ α := fun s => (r, s)

/-- The state. -/
def get : Attempt ε σ σ := fun s => (.ok s, s)

/-- Change the state. -/
def modify (f : σ → σ) : Attempt ε σ Unit := fun s => (.ok (), f s)

/-- Go on with what `k` makes of a failure. -/
def recover (x : Attempt ε σ α) (k : ε → Attempt ε σ α) : Attempt ε σ α := fun s =>
  match x s with
  | (.ok a, s) => (.ok a, s)
  | (.error e, s) => k e s

instance : MonadExceptOf ε (Attempt ε σ) where
  throw := fail
  tryCatch := recover

/-- Try actions one after another, each on the state that those before it have left, whether they
have succeeded or not. The result is what came of each. -/
def each : List (Attempt ε σ α) → σ → List (Except ε α) × σ
  | [], s => ([], s)
  | x :: xs, s => ((x s).1 :: (each xs (x s).2).1, (each xs (x s).2).2)

/-- An action on a part of the state. -/
def onPart (part : τ → σ) (update : σ → τ → τ) (x : Attempt ε σ α) : Attempt ε τ α := fun t =>
  match x (part t) with
  | (r, s) => (r, update s t)

@[simp] theorem pure_apply (a : α) (s : σ) : (pure a : Attempt ε σ α) s = (.ok a, s) := rfl

@[simp] theorem fail_apply (e : ε) (s : σ) : (fail e : Attempt ε σ α) s = (.error e, s) := rfl

@[simp] theorem ofExcept_apply (r : Except ε α) (s : σ) : ofExcept r s = (r, s) := rfl

@[simp] theorem get_apply (s : σ) : (get : Attempt ε σ σ) s = (.ok s, s) := rfl

@[simp] theorem modify_apply (f : σ → σ) (s : σ) :
    (modify f : Attempt ε σ Unit) s = (.ok (), f s) := rfl

theorem bind_apply (x : Attempt ε σ α) (k : α → Attempt ε σ β) (s : σ) :
    (x >>= k) s = match x s with
      | (.ok a, s) => k a s
      | (.error e, s) => (.error e, s) := rfl

theorem bind_eq_ok {x : Attempt ε σ α} {k : α → Attempt ε σ β} {s u : σ} {b : β} :
    (x >>= k) s = (.ok b, u) ↔ ∃ a t, x s = (.ok a, t) ∧ k a t = (.ok b, u) := by
  rw [bind_apply]
  rcases hx : x s with ⟨_ | a, t⟩ <;> simp [and_assoc]

theorem bind_eq_error {x : Attempt ε σ α} {k : α → Attempt ε σ β} {s u : σ} {e : ε} :
    (x >>= k) s = (.error e, u) ↔
      x s = (.error e, u) ∨ ∃ a t, x s = (.ok a, t) ∧ k a t = (.error e, u) := by
  rw [bind_apply]
  rcases hx : x s with ⟨_ | a, t⟩ <;> simp [and_assoc]

@[simp] theorem each_nil (s : σ) : each ([] : List (Attempt ε σ α)) s = ([], s) := rfl

@[simp] theorem each_cons (x : Attempt ε σ α) (xs : List (Attempt ε σ α)) (s : σ) :
    each (x :: xs) s = ((x s).1 :: (each xs (x s).2).1, (each xs (x s).2).2) := rfl

end Attempt

end StagedCodegen
