import Mathlib.Algebra.Order.BigOperators.Group.List
import Mathlib.Algebra.Order.Ring.Nat
import StagedCodegen.Proofs.Schedule.Circles

/-!
# The course of the search for circles

What the depth first search behind a schedule does, round by round. A round starts at the next key
that is white, or it looks at the top of the stack: at the next key to be visited from there, or at
nothing, if none is left. `Searches` says which keys a search puts on its stack and how many rounds
it takes.

The keys may be given more than once, a key may lead to another more than once, and to keys that are
not searched at all. Two measures carry this module: a key is put on the stack only as it stops
being white (`Searches.pushed_of_white`), and each round uses up some of the `credit` of what is
white and on the stack (`Searches.rounds_le`).

Main statement: `circle?_searches`.
-/

namespace StagedCodegen

namespace Schedule

open Relation (TransGen)

variable {next : String → List String} {keys white rest pushed : List String}
  {stack : List (String × List String)} {node child : String} {rounds : Nat}
  {answer : Option (List String)}

/-! ## Courses -/

/-- A search with these white keys and this stack puts the keys `pushed` on its stack, one after
another, and has its answer after so many rounds. -/
inductive Searches (next : String → List String) : (white : List String) →
    (stack : List (String × List String)) → (pushed : List String) → (rounds : Nat) →
    (answer : Option (List String)) → Prop
  /-- Nothing is white and nothing is on the stack. -/
  | done : Searches next [] [] [] 0 none
  /-- With nothing on the stack, the search starts anew at the first key that is white. -/
  | root {root : String} {white pushed : List String} {rounds : Nat}
      {answer : Option (List String)}
      (on : Searches next (without root white) [(root, next root)] pushed rounds answer) :
      Searches next (root :: white) [] (root :: pushed) (rounds + 1) answer
  /-- Nothing is left to be visited from the top of the stack. -/
  | pop {node : String} {white pushed : List String} {stack : List (String × List String)}
      {rounds : Nat} {answer : Option (List String)}
      (on : Searches next white stack pushed rounds answer) :
      Searches next white ((node, []) :: stack) pushed (rounds + 1) answer
  /-- The next key is white. -/
  | push {node child : String} {white rest pushed : List String}
      {stack : List (String × List String)} {rounds : Nat} {answer : Option (List String)}
      (isWhite : child ∈ white)
      (on : Searches next (without child white) ((child, next child) :: (node, rest) :: stack)
        pushed rounds answer) :
      Searches next white ((node, child :: rest) :: stack) (child :: pushed) (rounds + 1) answer
  /-- The next key is on the stack. -/
  | meet {node child : String} {white rest : List String} {stack : List (String × List String)}
      (notWhite : child ∉ white) (met : child = node ∨ child ∈ stack.map (·.1)) :
      Searches next white ((node, child :: rest) :: stack) [] 1
        (some (circle (node :: stack.map (·.1)) child))
  /-- The next key is neither: the search is done with it, or it is none of the keys. -/
  | skip {node child : String} {white rest pushed : List String}
      {stack : List (String × List String)} {rounds : Nat} {answer : Option (List String)}
      (notWhite : child ∉ white) (notMet : ¬(child = node ∨ child ∈ stack.map (·.1)))
      (on : Searches next white ((node, rest) :: stack) pushed rounds answer) :
      Searches next white ((node, child :: rest) :: stack) pushed (rounds + 1) answer

/-- Every search has a course. -/
theorem exists_searches (next : String → List String) (white : List String)
    (stack : List (String × List String)) :
    ∃ pushed rounds, Searches next white stack pushed rounds (explore next white stack) := by
  fun_induction explore next white stack with
  | case1 => exact ⟨_, _, .done⟩
  | case2 root white ih =>
    obtain ⟨pushed, rounds, on⟩ := ih
    exact ⟨_, _, .root on⟩
  | case3 white node stack ih =>
    obtain ⟨pushed, rounds, on⟩ := ih
    exact ⟨_, _, .pop on⟩
  | case4 white node child rest stack hwhite ih =>
    obtain ⟨pushed, rounds, on⟩ := ih
    exact ⟨_, _, .push hwhite on⟩
  | case5 white node child rest stack hwhite hmet => exact ⟨_, _, .meet hwhite hmet⟩
  | case6 white node child rest stack hwhite hmet ih =>
    obtain ⟨pushed, rounds, on⟩ := ih
    exact ⟨_, _, .skip hwhite hmet on⟩

namespace Searches

/-- A course ends with the answer of the search. -/
theorem answer_eq (h : Searches next white stack pushed rounds answer) :
    answer = explore next white stack := by
  induction h with
  | done => rw [explore]
  | root _ ih | pop _ ih => rw [explore, ih]
  | push isWhite _ ih => rw [explore, if_pos isWhite, ih]
  | meet notWhite met => rw [explore, if_neg notWhite, if_pos met]
  | skip notWhite notMet _ ih => rw [explore, if_neg notWhite, if_neg notMet, ih]

/-- Only white keys are put on the stack, and none of them twice. -/
theorem pushed_of_white (h : Searches next white stack pushed rounds answer) :
    pushed.Nodup ∧ ∀ k ∈ pushed, k ∈ white := by
  induction h with
  | done | meet => simp
  | pop _ ih | skip _ _ _ ih => exact ih
  | @root root white pushed _ _ _ ih =>
    -- from now on the key is not white
    refine ⟨List.nodup_cons.2 ⟨fun hroot => (mem_without.1 (ih.2 root hroot)).2 rfl, ih.1⟩, ?_⟩
    intro k hk
    rcases List.mem_cons.1 hk with rfl | hk
    · exact List.mem_cons_self
    · exact List.mem_cons_of_mem _ (mem_without.1 (ih.2 k hk)).1
  | @push _ child white _ pushed _ _ _ isWhite _ ih =>
    refine ⟨List.nodup_cons.2 ⟨fun hchild => (mem_without.1 (ih.2 child hchild)).2 rfl, ih.1⟩, ?_⟩
    intro k hk
    rcases List.mem_cons.1 hk with rfl | hk
    · exact isWhite
    · exact (mem_without.1 (ih.2 k hk)).1

end Searches

/-! ## Rounds -/

/-- The rounds that white keys can still cost: one to start at the key or to visit it, one for each
key to be visited from there, and one to see that none is left. -/
def credit (next : String → List String) (white : List String) : Nat :=
  (white.map fun k => (next k).length + 2).sum

theorem credit_cons (next : String → List String) (k : String) (white : List String) :
    credit next (k :: white) = (next k).length + 2 + credit next white := by
  simp [credit]

theorem credit_without_le (next : String → List String) (key : String) (white : List String) :
    credit next (without key white) ≤ credit next white :=
  (List.filter_sublist.map _).sum_le_sum fun _ _ => Nat.zero_le _

theorem credit_without (next : String → List String) (h : child ∈ white) :
    credit next (without child white) + (next child).length + 2 ≤ credit next white := by
  induction white with
  | nil => cases h
  | cons k white ih =>
    rw [credit_cons]
    by_cases hk : k = child
    · subst hk
      have hle := credit_without_le next k white
      rw [without, List.filter_cons_of_neg (by simp), ← without]
      omega
    · have hle := ih ((List.mem_cons.1 h).resolve_left (Ne.symm hk))
      rw [without, List.filter_cons_of_pos (by simpa using hk), ← without, credit_cons]
      omega

/-- A search takes no more rounds than its white keys and its stack have to give. -/
theorem Searches.rounds_le (h : Searches next white stack pushed rounds answer) :
    rounds ≤ credit next white + owed stack := by
  induction h with
  | done => exact Nat.zero_le _
  | @root root white _ _ _ _ ih =>
    have hle := credit_without_le next root white
    simp only [credit_cons, owed] at ih ⊢
    omega
  | pop _ ih =>
    simp only [owed, List.length_nil] at ih ⊢
    omega
  | push isWhite _ ih =>
    have hle := credit_without next isWhite
    simp only [owed, List.length_cons] at ih ⊢
    omega
  | meet =>
    simp only [owed, List.length_cons]
    omega
  | skip _ _ _ ih =>
    simp only [owed, List.length_cons] at ih ⊢
    omega

/-- **The search for circles.** Whatever the keys are, and wherever they lead, the search has a
course, which ends with its answer. On the way it puts each key on its stack at most once, and no
key that was not given; it takes a round for each key that can be visited and no more than two for
each key that was given. It reports nothing exactly when no given key leads back to itself by way of
given keys. -/
theorem circle?_searches (next : String → List String) (keys : List String) :
    (∃ pushed rounds answer, Searches next keys [] pushed rounds answer) ∧
    (∀ pushed rounds answer, Searches next keys [] pushed rounds answer →
      answer = circle? next keys ∧ (pushed.Nodup ∧ ∀ k ∈ pushed, k ∈ keys) ∧
      rounds ≤ (keys.map fun k => (next k).length + 2).sum) ∧
    (circle? next keys = none ↔ ∀ k, ¬TransGen (Leads next keys) k k) := by
  refine ⟨?_, fun pushed rounds answer h => ?_, circle?_eq_none_iff⟩
  · obtain ⟨pushed, rounds, h⟩ := exists_searches next keys []
    exact ⟨pushed, rounds, _, h⟩
  · exact ⟨h.answer_eq, h.pushed_of_white, h.rounds_le⟩

/-- A key that is not given closes no circle and hides none. -/
example :
    circle? (fun k => if k = "a" then ["x", "b", "b"] else ["x", "a"]) ["a", "a", "b"] =
      some ["a", "b", "a"] ∧
    circle? (fun k => if k = "a" then ["b", "b"] else if k = "b" then ["x"] else ["a"])
      ["a", "a", "b"] = none := by cbv

end Schedule

end StagedCodegen
