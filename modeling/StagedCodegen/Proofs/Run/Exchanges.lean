import StagedCodegen.Program
import StagedCodegen.Proofs.Run.InTurn

/-!
# What programs ask for and get

A run of a program is a list of requests with their answers. What the program asks for, and how it
ends, depends on the answers that it gets and on nothing else (`Program.Answered`); each answer
depends on the state that the requests before it have left (`Exchange.Served`). Both together say
what becomes of a program that is begun in some state (`Program.Ends`).

Main statement: `Program.run_eq_iff`.
-/

namespace StagedCodegen

variable {I : Interface} {α σ : Type}

/-- A request with its answer. -/
structure Exchange (I : Interface) where
  /-- What is asked for. -/
  request : I.Request
  /-- What comes back. -/
  answer : I.Answer request

/-- The answer is the one that is given in a state, and the request leads to another. -/
def Exchange.Served (serve : (r : I.Request) → σ → I.Answer r × σ) (x : Exchange I) (s t : σ) :
    Prop :=
  serve x.request s = (x.answer, t)

/-- What comes back is what is given in the state that the requests before have left. -/
theorem exists_answer_of_served {serve : (r : I.Request) → σ → I.Answer r × σ}
    {xs before after : List (Exchange I)} {x : Exchange I} {s t : σ}
    (h : InTurn (Exchange.Served serve) xs s t) (hxs : xs = before ++ x :: after) :
    ∃ u, InTurn (Exchange.Served serve) before s u ∧ x.answer = (serve x.request u).1 := by
  rw [hxs] at h
  obtain ⟨u, hbefore, hrest⟩ := h.of_append
  cases hrest with
  | cons first others => exact ⟨u, hbefore, (congrArg Prod.fst first).symm⟩

namespace Program

/-- The program makes these requests, if it gets these answers, and ends with this result. -/
inductive Answered : Program I α → List (Exchange I) → α → Prop where
  /-- It is done. -/
  | done {a : α} : Answered (.done a) [] a
  /-- It gets an answer and goes on. -/
  | ask {r : I.Request} {next : I.Answer r → Program I α} {answer : I.Answer r}
      {rest : List (Exchange I)} {a : α} (others : Answered (next answer) rest a) :
      Answered (.ask r next) (⟨r, answer⟩ :: rest) a

variable {serve : (r : I.Request) → σ → I.Answer r × σ} {p : Program I α} {s t : σ} {a : α}

/-- The program, begun in one state, makes its requests, gets the answers that are given there in
turn, and ends with a result in another state. -/
def Ends (p : Program I α) (serve : (r : I.Request) → σ → I.Answer r × σ) (s : σ) (a : α) (t : σ) :
    Prop :=
  ∃ xs, p.Answered xs a ∧ InTurn (Exchange.Served serve) xs s t

/-- A run is what is asked for and served in turn. -/
theorem run_eq_iff : run serve p s = (a, t) ↔ p.Ends serve s a t := by
  induction p generalizing s with
  | done b =>
    constructor
    · intro h
      cases h
      exact ⟨[], .done, .nil⟩
    · rintro ⟨xs, hanswered, hserved⟩
      cases hanswered
      cases hserved
      rfl
  | ask r next ih =>
    rw [run, ih]
    constructor
    · rintro ⟨xs, hanswered, hserved⟩
      exact ⟨⟨r, (serve r s).1⟩ :: xs, .ask hanswered, .cons rfl hserved⟩
    · rintro ⟨xs, hanswered, hserved⟩
      cases hanswered with
      | ask others =>
        cases hserved with
        | cons first rest =>
          have hfirst : serve r s = _ := first
          rw [hfirst]
          exact ⟨_, others, rest⟩

end Program

end StagedCodegen
