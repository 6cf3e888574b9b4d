/-!
# Programs of clients

What a client of the library does is a `Program`: a tree of requests to whoever runs it, each
followed by what the client does with the answer. A client can reach the state behind an
interface only through the requests of that interface, so what all requests keep that it makes, its
program keeps.

Main statements: `run_bind` says that running is compatible with composition, and `run_only` that
what the requests of a program keep holds after every run of it.
-/

namespace StagedCodegen

/-- The requests that a client can make, and what the answer to each of them is. -/
structure Interface where
  /-- What can be asked for. -/
  Request : Type
  /-- What comes back. -/
  Answer : Request → Type

/-- A client's behaviour against an interface. -/
inductive Program (I : Interface) (α : Type) where
  /-- Finish with a result. -/
  | done (a : α)
  /-- Make a request and go on with its answer. -/
  | ask (r : I.Request) (next : I.Answer r → Program I α)

namespace Program

variable {I : Interface} {α β σ : Type}

/-- Go on with another program. -/
def bind : Program I α → (α → Program I β) → Program I β
  | done a, k => k a
  | ask r next, k => ask r fun a => bind (next a) k

instance : Monad (Program I) where
  pure := done
  bind := bind

/-- Make one request. -/
def request (r : I.Request) : Program I (I.Answer r) := ask r done

/-- Run a program against a state, by what each request does to it. -/
def run (serve : (r : I.Request) → σ → I.Answer r × σ) : Program I α → σ → α × σ
  | done a, s => (a, s)
  | ask r next, s => run serve (next (serve r s).1) (serve r s).2

@[simp] theorem run_done (serve : (r : I.Request) → σ → I.Answer r × σ) (a : α) (s : σ) :
    run serve (done a) s = (a, s) := rfl

@[simp] theorem run_pure (serve : (r : I.Request) → σ → I.Answer r × σ) (a : α) (s : σ) :
    run serve (pure a) s = (a, s) := rfl

theorem run_bind (serve : (r : I.Request) → σ → I.Answer r × σ) (p : Program I α)
    (k : α → Program I β) (s : σ) :
    run serve (p >>= k) s = run serve (k (run serve p s).1) (run serve p s).2 := by
  induction p generalizing s with
  | done a => rfl
  | ask r next ih => exact ih _ _

/-- All requests that the program can make have a property. -/
def Only (Q : I.Request → Prop) : Program I α → Prop
  | done _ => True
  | ask r next => Q r ∧ ∀ a, Only Q (next a)

theorem only_of_forall {Q : I.Request → Prop} (h : ∀ r, Q r) (p : Program I α) : p.Only Q := by
  induction p with
  | done a => trivial
  | ask r next ih => exact ⟨h r, ih⟩

/-- A property of the state that all requests of a program keep holds after it was run. -/
theorem run_only {serve : (r : I.Request) → σ → I.Answer r × σ} {P : σ → Prop}
    {Q : I.Request → Prop} (step : ∀ r s, Q r → P s → P (serve r s).2) {p : Program I α}
    (hp : p.Only Q) {s : σ} (h : P s) : P (run serve p s).2 := by
  induction p generalizing s with
  | done a => exact h
  | ask r next ih => exact ih _ (hp.2 _) (step r s hp.1 h)

theorem only_bind {Q : I.Request → Prop} {p : Program I α} {k : α → Program I β}
    (hp : p.Only Q) (hk : ∀ a, (k a).Only Q) : (p >>= k).Only Q := by
  induction p with
  | done a => exact hk a
  | ask r next ih => exact ⟨hp.1, fun a => ih a (hp.2 a)⟩

/-! ## Programs that can fail -/

section Fallible

variable {ε : Type} {x : ExceptT ε (Program I) α} {k : α → ExceptT ε (Program I) β}

/-- If the first of two programs fails, the second does not run. -/
theorem run_bindExcept (serve : (r : I.Request) → σ → I.Answer r × σ)
    (x : ExceptT ε (Program I) α) (k : α → ExceptT ε (Program I) β) (s : σ) :
    run serve (x >>= k).run s = match run serve x.run s with
      | (.ok a, t) => run serve (k a).run t
      | (.error e, t) => (.error e, t) := by
  rw [ExceptT.run_bind, run_bind]
  rcases run serve x.run s with ⟨_ | a, t⟩ <;> rfl

theorem only_bindExcept {Q : I.Request → Prop} (hx : Program.Only Q x.run)
    (hk : ∀ a, Program.Only Q (k a).run) : Program.Only Q (x >>= k).run := by
  rw [ExceptT.run_bind]
  refine only_bind hx ?_
  rintro (e | a)
  · trivial
  · exact hk a

/-- A result that depends on nothing makes no requests. -/
theorem only_ofExcept {Q : I.Request → Prop} (r : Except ε α) :
    Program.Only Q (ExceptT.mk (pure r) : ExceptT ε (Program I) α).run := trivial

end Fallible

end Program

end StagedCodegen
