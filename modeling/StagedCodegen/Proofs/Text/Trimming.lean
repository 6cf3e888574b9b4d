import Mathlib.Data.List.DropRight
import StagedCodegen.Text.Blank

/-!
# What is cut off the ends of a list

A list is what is left of it when its ends are cut off, between members that satisfy the condition
(`exists_trimWhile_append`), and these members have no influence on what is left
(`trimWhile_append`).
-/

namespace StagedCodegen.Text

variable {α : Type} {p : α → Bool} {xs ys : List α}

/-! ## One end -/

/-- What is cut off the end satisfies the condition. -/
theorem exists_dropEndWhile_append (p : α → Bool) (xs : List α) :
    ∃ ys, xs = dropEndWhile p xs ++ ys ∧ ∀ y ∈ ys, p y = true :=
  ⟨xs.rtakeWhile p, List.rdropWhile_append_rtakeWhile.symm, fun _ => List.mem_rtakeWhile_imp⟩

theorem dropEndWhile_append_of_forall (h : ∀ y ∈ ys, p y = true) :
    dropEndWhile p (xs ++ ys) = dropEndWhile p xs := by
  rw [dropEndWhile, List.reverse_append, List.dropWhile_append_of_pos, dropEndWhile]
  exact fun y hy => h y (List.mem_reverse.1 hy)

/-- What is left after a member depends only on what would be left without it. -/
theorem dropEndWhile_cons_congr (x : α) (h : dropEndWhile p xs = dropEndWhile p ys) :
    dropEndWhile p (x :: xs) = dropEndWhile p (x :: ys) := by
  obtain ⟨as, hxs, has⟩ := exists_dropEndWhile_append p xs
  obtain ⟨bs, hys, hbs⟩ := exists_dropEndWhile_append p ys
  rw [hxs, hys, h, ← List.cons_append, ← List.cons_append, dropEndWhile_append_of_forall has,
    dropEndWhile_append_of_forall hbs]

/-! ## Both ends -/

theorem exists_trimWhile_append (p : α → Bool) (xs : List α) :
    ∃ as bs, xs = as ++ trimWhile p xs ++ bs ∧ (∀ a ∈ as, p a = true) ∧ ∀ b ∈ bs, p b = true := by
  obtain ⟨bs, hxs, hbs⟩ := exists_dropEndWhile_append p (xs.dropWhile p)
  refine ⟨xs.takeWhile p, bs, ?_, fun a ha => List.mem_takeWhile_imp ha, hbs⟩
  rw [List.append_assoc, trimWhile, ← hxs, List.takeWhile_append_dropWhile]

theorem head?_trimWhile (xs : List α) : ∀ x ∈ (trimWhile p xs).head?, p x = false := by
  intro x hx
  obtain ⟨rest, hrest⟩ := dropEndWhile_prefix (p := p) (xs.dropWhile p)
  refine head?_dropWhile_not xs x ?_
  rw [← hrest, List.head?_append]
  exact Option.mem_def.2 (by rw [show (dropEndWhile p (xs.dropWhile p)).head? = _ from hx]; rfl)

theorem getLast?_trimWhile (xs : List α) : ∀ x ∈ (trimWhile p xs).getLast?, p x = false :=
  getLast?_dropEndWhile _

/-- What is left is the part between, if neither end of it satisfies the condition. -/
theorem trimWhile_append {as bs : List α} (has : ∀ a ∈ as, p a = true) (hbs : ∀ b ∈ bs, p b = true)
    (hfirst : ∀ x ∈ xs.head?, p x = false) (hlast : ∀ x ∈ xs.getLast?, p x = false) :
    trimWhile p (as ++ xs ++ bs) = xs := by
  rw [trimWhile, List.append_assoc, List.dropWhile_append_of_pos has]
  cases xs with
  | nil =>
    rw [List.nil_append, List.dropWhile_eq_nil_iff.2 hbs]
    rfl
  | cons x xs =>
    rw [List.cons_append, List.dropWhile_cons_of_neg (by simp [hfirst x rfl]), ← List.cons_append,
      dropEndWhile_append_of_forall hbs, dropEndWhile_of_getLast? hlast]

/-- Members that are cut off have no influence on what is left. -/
theorem trimWhile_extend {as bs : List α} (has : ∀ a ∈ as, p a = true)
    (hbs : ∀ b ∈ bs, p b = true) : trimWhile p (as ++ xs ++ bs) = trimWhile p xs := by
  obtain ⟨cs, ds, hxs, hcs, hds⟩ := exists_trimWhile_append p xs
  have hparts : as ++ xs ++ bs = as ++ cs ++ trimWhile p xs ++ (ds ++ bs) := by
    conv_lhs => rw [hxs]
    simp only [List.append_assoc]
  rw [hparts]
  exact trimWhile_append (List.forall_mem_append.2 ⟨has, hcs⟩) (List.forall_mem_append.2 ⟨hds, hbs⟩)
    (head?_trimWhile xs) (getLast?_trimWhile xs)

end StagedCodegen.Text
