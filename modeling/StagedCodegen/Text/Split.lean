/-!
# Cutting a text at a separator

`split` cuts at every separator and keeps what lies between, empty pieces included; `joinWith` puts
a separator between pieces. The two undo each other (`joinWith_split`, `split_joinWith`).
-/

namespace StagedCodegen.Text

variable {α : Type}

/-- The pieces between separators, at least one. -/
def split [DecidableEq α] (sep : α) : List α → List (List α)
  | [] => [[]]
  | c :: cs =>
    if c = sep then [] :: split sep cs
    else match split sep cs with
      | [] => [[c]]
      | p :: ps => (c :: p) :: ps

/-- The pieces with a separator between each two. -/
def joinWith (sep : List α) : List (List α) → List α
  | [] => []
  | [p] => p
  | p :: q :: ps => p ++ (sep ++ joinWith sep (q :: ps))

/-- The part before the first separator and the part after it. -/
def splitOnce [DecidableEq α] (sep : α) : List α → Option (List α × List α)
  | [] => none
  | c :: cs =>
    if c = sep then some ([], cs)
    else (splitOnce sep cs).map fun (a, b) => (c :: a, b)

/-- Texts with a separator between each two. -/
def joinTexts (sep : String) (xs : List String) : String := sep.intercalate xs

/-- The lines of a text. A line break at its end begins no line. -/
def lines (s : String) : List String :=
  let all := (split '\n' s.toList).map String.ofList
  if all.getLast? = some "" then all.dropLast else all

/-- A text with every occurrence of one text replaced by another, found from left to right. -/
def replace (needle replacement : List Char) : List Char → List Char
  | [] => []
  | c :: cs =>
    if 0 < needle.length ∧ needle.isPrefixOf (c :: cs) then
      replacement ++ replace needle replacement ((c :: cs).drop needle.length)
    else c :: replace needle replacement cs
termination_by s => s.length
decreasing_by
  all_goals simp_all only [List.length_drop, List.length_cons]
  all_goals omega

/-! ## Cutting and joining -/

theorem joinWith_cons {p : List α} {ps : List (List α)} (h : ps ≠ []) (s : List α) :
    joinWith s (p :: ps) = p ++ (s ++ joinWith s ps) := by
  cases ps with
  | nil => exact absurd rfl h
  | cons q qs => rfl

theorem joinWith_concat {ps : List (List α)} (h : ps ≠ []) (s p : List α) :
    joinWith s (ps ++ [p]) = joinWith s ps ++ (s ++ p) := by
  induction ps with
  | nil => exact absurd rfl h
  | cons q ps ih =>
    by_cases hps : ps = []
    · rw [hps]
      rfl
    · rw [List.cons_append, joinWith_cons (by simp), joinWith_cons hps, ih hps]
      simp only [List.append_assoc]

section
variable [DecidableEq α] {sep : α}

theorem split_ne_nil (cs : List α) : split sep cs ≠ [] := by
  cases cs with
  | nil => simp [split]
  | cons c cs =>
    unfold split
    split
    · simp
    · split <;> simp

theorem joinWith_split (cs : List α) : joinWith [sep] (split sep cs) = cs := by
  induction cs with
  | nil => rfl
  | cons c cs ih =>
    unfold split
    split
    · next h => rw [joinWith_cons (split_ne_nil cs), ih, h]; rfl
    · cases hs : split sep cs with
      | nil => exact absurd hs (split_ne_nil cs)
      | cons p ps =>
        rw [hs] at ih
        cases ps with
        | nil => simpa [joinWith] using congrArg (c :: ·) ih
        | cons q qs =>
          simp only
          rw [joinWith_cons (by simp)] at ih ⊢
          simpa using congrArg (c :: ·) ih

theorem not_mem_of_mem_split {cs p : List α} (h : p ∈ split sep cs) : sep ∉ p := by
  induction cs generalizing p with
  | nil => simp_all [split]
  | cons c cs ih =>
    unfold split at h
    split at h
    · rcases List.mem_cons.1 h with rfl | h
      · simp
      · exact ih h
    · next hc =>
      cases hs : split sep cs with
      | nil => exact absurd hs (split_ne_nil cs)
      | cons q qs =>
        rw [hs] at h ih
        rcases List.mem_cons.1 h with rfl | h
        · have := ih (p := q) (by simp)
          simp [this, Ne.symm hc]
        · exact ih (by simp [h])

theorem split_of_not_mem {p : List α} (h : sep ∉ p) : split sep p = [p] := by
  induction p with
  | nil => rfl
  | cons c cs ih =>
    simp only [List.mem_cons, not_or] at h
    rw [split, if_neg (Ne.symm h.1), ih h.2]

theorem split_append_sep {p : List α} (h : sep ∉ p) (cs : List α) :
    split sep (p ++ sep :: cs) = p :: split sep cs := by
  induction p with
  | nil => simp [split]
  | cons c p ih =>
    simp only [List.mem_cons, not_or] at h
    rw [List.cons_append, split, if_neg (Ne.symm h.1), ih h.2]

/-- A separator cuts a text into the pieces before it and those after it. -/
theorem split_append (xs ys : List α) :
    split sep (xs ++ sep :: ys) = split sep xs ++ split sep ys := by
  induction xs with
  | nil => simp [split]
  | cons x xs ih =>
    rw [List.cons_append, split, split, ih]
    split
    · rfl
    · cases hxs : split sep xs with
      | nil => exact absurd hxs (split_ne_nil xs)
      | cons p ps => rfl

theorem split_joinWith {ps : List (List α)} (hne : ps ≠ []) (h : ∀ p ∈ ps, sep ∉ p) :
    split sep (joinWith [sep] ps) = ps := by
  induction ps with
  | nil => exact absurd rfl hne
  | cons p ps ih =>
    cases ps with
    | nil => exact split_of_not_mem (h p (by simp))
    | cons q qs =>
      rw [joinWith_cons (by simp)]
      show split sep (p ++ sep :: joinWith [sep] (q :: qs)) = _
      rw [split_append_sep (h p (by simp)), ih (by simp) fun r hr => h r (by simp [hr])]

end

end StagedCodegen.Text
