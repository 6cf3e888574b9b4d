/-!
# Blanks

The characters that separate words in any script, and cutting them off the ends of a text. What is
cut at its end ends in nothing more to cut (`getLast?_dropEndWhile`), and such a text is left as it
is (`dropEndWhile_of_getLast?`).
-/

namespace StagedCodegen.Text

/-- The characters with the Unicode property White_Space. -/
def isBlank (c : Char) : Bool :=
  let n := c.toNat
  (9 ≤ n && n ≤ 13) || n == 0x20 || n == 0x85 || n == 0xA0 || n == 0x1680 ||
    (0x2000 ≤ n && n ≤ 0x200A) || n == 0x2028 || n == 0x2029 || n == 0x202F || n == 0x205F ||
    n == 0x3000

/-- The part of a list that is left when the members at its end that satisfy `p` are cut off. -/
def dropEndWhile {α : Type} (p : α → Bool) (xs : List α) : List α :=
  (xs.reverse.dropWhile p).reverse

/-- Cut the members that satisfy `p` off both ends. -/
def trimWhile {α : Type} (p : α → Bool) (xs : List α) : List α :=
  dropEndWhile p (xs.dropWhile p)

/-- The text without blanks at its ends. -/
def trim (s : String) : String :=
  String.ofList (trimWhile isBlank s.toList)

/-- Whether nothing but blanks is in the text. -/
def isBlankText (s : String) : Bool :=
  s.toList.all isBlank

/-! ## What is left -/

section
variable {α : Type} {p : α → Bool}

theorem head?_dropWhile_not (xs : List α) : ∀ x ∈ (xs.dropWhile p).head?, p x = false := by
  intro x hx
  have hnot := List.head?_dropWhile_not p xs
  rwa [Option.mem_def.mp hx] at hnot

theorem getLast?_dropEndWhile (xs : List α) : ∀ x ∈ (dropEndWhile p xs).getLast?, p x = false := by
  simpa [dropEndWhile] using head?_dropWhile_not (p := p) xs.reverse

theorem dropEndWhile_prefix (xs : List α) : dropEndWhile p xs <+: xs := by
  rw [← List.reverse_suffix, dropEndWhile, List.reverse_reverse]
  exact List.dropWhile_suffix p

/-- Nothing is cut off an end that already has the wanted form. -/
theorem dropEndWhile_of_getLast? {xs : List α} (h : ∀ x ∈ xs.getLast?, p x = false) :
    dropEndWhile p xs = xs := by
  unfold dropEndWhile
  rw [List.getLast?_eq_head?_reverse] at h
  cases hr : xs.reverse with
  | nil => simpa using hr.symm
  | cons y ys =>
    rw [hr] at h
    rw [List.dropWhile_cons_of_neg (by simpa using h), ← hr, List.reverse_reverse]

end

end StagedCodegen.Text
