import Mathlib
import StagedCodegen.Text.Words

/-!
# What names that are made of words say of their texts

Names keep the letters and digits of a text and nothing else. So they are ASCII names throughout, a
text without letters and digits leaves none (`slug_eq_empty_iff`), and with the words run together
it makes no difference whether the first of them has a capital (`camelCase_eq_iff`): letters and
digits alone are one word (`words_of_forall`), so that a name in either form gives the name in the
other. A name begins with the first letter or digit of its text (`initial?`), in one case or the
other.

The lemmas on the case of a character (`Char.toUpper_toLower_eq_toUpper` and its like) come with
Mathlib as a whole; no single module of it brings them along.
-/

namespace StagedCodegen.Text

/-! ## Words -/

theorem forall_mem_wordsFrom {word cs : List Char} (hword : ∀ c ∈ word, isWordChar c = true) :
    ∀ w ∈ wordsFrom word cs, ∀ c ∈ w, isWordChar c = true := by
  induction cs generalizing word with
  | nil =>
    cases word with
    | nil => exact fun _ h => absurd h List.not_mem_nil
    | cons c word => exact List.forall_mem_singleton.mpr hword
  | cons c cs ih =>
    have hnone : ∀ c ∈ ([] : List Char), isWordChar c = true := fun _ h => absurd h List.not_mem_nil
    simp only [wordsFrom]
    split
    · next hc => exact ih (List.forall_mem_append.mpr ⟨hword, List.forall_mem_singleton.mpr hc⟩)
    · split
      · exact ih hnone
      · exact List.forall_mem_cons.mpr ⟨hword, ih hnone⟩

/-- The letters and digits of a text are those of its words. -/
theorem flatten_wordsFrom (word cs : List Char) :
    (wordsFrom word cs).flatten = word ++ cs.filter isWordChar := by
  induction cs generalizing word with
  | nil => cases word <;> simp [wordsFrom]
  | cons c cs ih =>
    simp only [wordsFrom]
    split
    · next hc => rw [ih, List.filter_cons_of_pos hc, List.append_assoc, List.singleton_append]
    · next hc =>
      rw [List.filter_cons_of_neg hc]
      split
      · next hword => rw [ih, hword]
      · rw [List.flatten_cons, ih, List.nil_append]

theorem ne_nil_of_mem_wordsFrom {word cs : List Char} : ∀ w ∈ wordsFrom word cs, w ≠ [] := by
  induction cs generalizing word with
  | nil => cases word <;> simp [wordsFrom]
  | cons c cs ih =>
    simp only [wordsFrom]
    split
    · exact ih
    · split
      · exact ih
      · next hword => exact List.forall_mem_cons.mpr ⟨hword, ih⟩

theorem wordsFrom_nil {word : List Char} (h : word ≠ []) : wordsFrom word [] = [word] := by
  cases word with
  | nil => exact absurd rfl h
  | cons c word => rfl

theorem wordsFrom_cons_of_pos {c : Char} (hc : isWordChar c = true) (word cs : List Char) :
    wordsFrom word (c :: cs) = wordsFrom (word ++ [c]) cs := by
  rw [wordsFrom, if_pos hc]

theorem wordsFrom_cons_of_neg {c : Char} (hc : isWordChar c = false) {word : List Char}
    (h : word ≠ []) (cs : List Char) : wordsFrom word (c :: cs) = word :: wordsFrom [] cs := by
  rw [wordsFrom, if_neg (Bool.eq_false_iff.mp hc), if_neg h]

theorem wordsFrom_nil_cons_of_neg {c : Char} (hc : isWordChar c = false) (cs : List Char) :
    wordsFrom [] (c :: cs) = wordsFrom [] cs := by
  rw [wordsFrom, if_neg (Bool.eq_false_iff.mp hc), if_pos rfl]

/-- Letters and digits lengthen the current word. -/
theorem wordsFrom_append {ds : List Char} (h : ∀ c ∈ ds, isWordChar c = true)
    (word cs : List Char) : wordsFrom word (ds ++ cs) = wordsFrom (word ++ ds) cs := by
  induction ds generalizing word with
  | nil => rw [List.nil_append, List.append_nil]
  | cons c ds ih =>
    obtain ⟨hc, hds⟩ := List.forall_mem_cons.mp h
    rw [List.cons_append, wordsFrom_cons_of_pos hc, ih hds, List.append_assoc,
      List.singleton_append]

/-- Letters and digits alone are one word. -/
theorem words_of_forall {cs : List Char} (hne : cs ≠ []) (h : ∀ c ∈ cs, isWordChar c = true) :
    words cs = [cs] := by
  have happend := wordsFrom_append h [] []
  rwa [List.append_nil, List.nil_append, wordsFrom_nil hne] at happend

/-! ## Run together -/

theorem isWordChar_toUpper {c : Char} (h : isWordChar c = true) : isWordChar c.toUpper = true := by
  rw [isWordChar, Char.isAlphanum, Bool.or_eq_true] at h ⊢
  by_cases hlower : c.isLower
  · left
    rw [Char.isAlpha_toUpper_eq_isAlpha, Char.isAlpha, hlower, Bool.or_true]
  · rwa [Char.toUpper_eq_of_not_isLower hlower]

theorem isWordChar_toLower {c : Char} (h : isWordChar c = true) : isWordChar c.toLower = true := by
  rw [isWordChar, Char.isAlphanum, Bool.or_eq_true] at h ⊢
  by_cases hupper : c.isUpper
  · left
    rw [Char.isAlpha_toLower_eq_isAlpha, Char.isAlpha, hupper, Bool.true_or]
  · rwa [Char.toLower_eq_of_not_isUpper hupper]

theorem forall_mem_mapFirst {P : Char → Prop} {f : Char → Char} (hf : ∀ c, P c → P (f c))
    {cs : List Char} (h : ∀ c ∈ cs, P c) : ∀ c ∈ mapFirst f cs, P c := by
  cases cs with
  | nil => exact h
  | cons c cs =>
    obtain ⟨hc, hcs⟩ := List.forall_mem_cons.mp h
    exact List.forall_mem_cons.mpr ⟨hf c hc, hcs⟩

/-- Words that are run together have letters and digits only. -/
theorem isWordChar_of_mem_pascalCase {s : String} :
    ∀ c ∈ (pascalCase s).toList, isWordChar c = true := by
  rw [pascalCase, String.toList_ofList]
  intro c hc
  obtain ⟨w, hw, hcw⟩ := List.mem_flatMap.mp hc
  have hword := forall_mem_wordsFrom (fun _ h => absurd h List.not_mem_nil) w hw
  exact forall_mem_mapFirst (P := (isWordChar · = true)) (fun _ => isWordChar_toUpper) hword c hcw

theorem isWordChar_of_mem_camelCase {s : String} :
    ∀ c ∈ (camelCase s).toList, isWordChar c = true := by
  have hpascal := isWordChar_of_mem_pascalCase (s := s)
  rw [pascalCase, String.toList_ofList] at hpascal
  rw [camelCase, String.toList_ofList]
  exact forall_mem_mapFirst (P := (isWordChar · = true)) (fun _ => isWordChar_toLower) hpascal

theorem mapFirst_mapFirst (f g : Char → Char) (cs : List Char) :
    mapFirst f (mapFirst g cs) = mapFirst (f ∘ g) cs := by
  cases cs <;> rfl

/-- The first character has its capital already. -/
theorem mapFirst_toUpper_pascalChars (cs : List Char) :
    mapFirst Char.toUpper (pascalChars cs) = pascalChars cs := by
  rw [pascalChars]
  induction words cs with
  | nil => rfl
  | cons w ws ih =>
    cases w with
    | nil => exact ih
    | cons c w => exact congrArg (· :: _) (Char.toUpper_toUpper_eq_toUpper c)

/-- Of letters and digits alone, only the first is changed. -/
theorem pascalChars_of_forall {cs : List Char} (h : ∀ c ∈ cs, isWordChar c = true) :
    pascalChars cs = mapFirst Char.toUpper cs := by
  by_cases hne : cs = []
  · rw [hne]
    rfl
  · rw [pascalChars, words_of_forall hne h, List.flatMap_singleton]

/-- Words that are run together are run together already. -/
theorem pascalCase_pascalCase (s : String) : pascalCase (pascalCase s) = pascalCase s := by
  have hplain := isWordChar_of_mem_pascalCase (s := s)
  rw [pascalCase, pascalChars_of_forall hplain, pascalCase, String.toList_ofList,
    mapFirst_toUpper_pascalChars]

/-- The capital at the beginning can be put back. -/
theorem pascalCase_camelCase (s : String) : pascalCase (camelCase s) = pascalCase s := by
  have hplain := isWordChar_of_mem_camelCase (s := s)
  have hsame : Char.toUpper ∘ Char.toLower = Char.toUpper :=
    funext Char.toUpper_toLower_eq_toUpper
  rw [pascalCase, pascalChars_of_forall hplain, camelCase, String.toList_ofList, mapFirst_mapFirst,
    hsame, mapFirst_toUpper_pascalChars, pascalCase]

theorem camelCase_eq_of_pascalCase_eq {s t : String} (h : pascalCase s = pascalCase t) :
    camelCase s = camelCase t := by
  have hchars : pascalChars s.toList = pascalChars t.toList := String.ofList_inj.mp h
  rw [camelCase, camelCase, hchars]

/-- Words run together are the same with a capital at the beginning and without one. -/
theorem camelCase_eq_iff {s t : String} :
    camelCase s = camelCase t ↔ pascalCase s = pascalCase t := by
  refine ⟨fun h => ?_, camelCase_eq_of_pascalCase_eq⟩
  rw [← pascalCase_camelCase, h, pascalCase_camelCase]

theorem camelCase_pascalCase (s : String) : camelCase (pascalCase s) = camelCase s :=
  camelCase_eq_of_pascalCase_eq (pascalCase_pascalCase s)

theorem camelCase_camelCase (s : String) : camelCase (camelCase s) = camelCase s :=
  camelCase_eq_of_pascalCase_eq (pascalCase_camelCase s)

theorem map_toLower_mapFirst {f : Char → Char} (hf : ∀ c, (f c).toLower = c.toLower)
    (cs : List Char) : (mapFirst f cs).map Char.toLower = cs.map Char.toLower := by
  cases cs with
  | nil => rfl
  | cons c cs => exact congrArg (· :: _) (hf c)

/-- No letter or digit is lost, and no other character is kept. -/
theorem map_toLower_pascalChars (cs : List Char) :
    (pascalChars cs).map Char.toLower = (cs.filter isWordChar).map Char.toLower := by
  have hflatten : (words cs).flatten = cs.filter isWordChar := flatten_wordsFrom [] cs
  rw [pascalChars, ← hflatten]
  induction words cs with
  | nil => rfl
  | cons w ws ih =>
    rw [List.flatMap_cons, List.map_append, ih,
      map_toLower_mapFirst Char.toLower_toUpper_eq_toLower, List.flatten_cons, List.map_append]

theorem map_toLower_pascalCase (s : String) :
    (pascalCase s).toList.map Char.toLower = (s.toList.filter isWordChar).map Char.toLower := by
  rw [pascalCase, String.toList_ofList, map_toLower_pascalChars]

theorem map_toLower_camelCase (s : String) :
    (camelCase s).toList.map Char.toLower = (s.toList.filter isWordChar).map Char.toLower := by
  rw [camelCase, String.toList_ofList, map_toLower_mapFirst Char.toLower_toLower_eq_toLower,
    map_toLower_pascalChars]

/-! ## Joined by dashes -/

theorem slugChars_eq_nil_iff {started gap : Bool} {cs : List Char} :
    slugChars started gap cs = [] ↔ ∀ c ∈ cs, isWordChar c = false := by
  induction cs generalizing started gap with
  | nil => simp [slugChars]
  | cons c cs ih =>
    rw [slugChars, List.forall_mem_cons]
    by_cases hc : isWordChar c = true
    · rw [if_pos hc, hc]
      split <;> simp
    · rw [if_neg hc, ih]
      simp [Bool.eq_false_iff.mpr hc]

/-- Only a text without letters and digits leaves nothing. -/
theorem slug_eq_empty_iff {s : String} : slug s = "" ↔ ∀ c ∈ s.toList, isWordChar c = false := by
  have hnil : slugChars false false s.toList = [] ↔ _ := slugChars_eq_nil_iff
  rw [← hnil, slug, ← String.toList_inj, String.toList_ofList]
  rfl

/-! ## The first letter or digit -/

/-- The first letter or digit of a text. -/
def initial? (s : String) : Option Char := s.toList.find? isWordChar

theorem head?_mapFirst (f : Char → Char) (cs : List Char) :
    (mapFirst f cs).head? = cs.head?.map f := by
  cases cs <;> rfl

theorem head?_flatMap_mapFirst (f : Char → Char) {ws : List (List Char)} (h : ∀ w ∈ ws, w ≠ []) :
    (ws.flatMap (mapFirst f)).head? = ws.flatten.head?.map f := by
  cases ws with
  | nil => rfl
  | cons w ws =>
    obtain ⟨hw, -⟩ := List.forall_mem_cons.mp h
    obtain ⟨c, cs, rfl⟩ := List.exists_cons_of_ne_nil hw
    rfl

/-- Words that are run together begin with the capital of the first letter or digit. -/
theorem head?_pascalChars (cs : List Char) :
    (pascalChars cs).head? = (cs.find? isWordChar).map Char.toUpper := by
  rw [pascalChars, words, head?_flatMap_mapFirst _ ne_nil_of_mem_wordsFrom, flatten_wordsFrom,
    List.nil_append, List.head?_filter]

theorem head?_pascalCase (s : String) :
    (pascalCase s).toList.head? = (initial? s).map Char.toUpper := by
  rw [pascalCase, String.toList_ofList, head?_pascalChars, initial?]

theorem head?_camelCase (s : String) :
    (camelCase s).toList.head? = (initial? s).map Char.toLower := by
  have hsmall : Char.toLower ∘ Char.toUpper = Char.toLower :=
    funext Char.toLower_toUpper_eq_toLower
  rw [camelCase, String.toList_ofList, head?_mapFirst, head?_pascalChars, Option.map_map, hsmall,
    initial?]

/-- The letters and digits that words have when they are joined by dashes. -/
theorem filter_slugChars (started gap : Bool) (cs : List Char) :
    (slugChars started gap cs).filter isWordChar = (cs.filter isWordChar).map Char.toLower := by
  induction cs generalizing started gap with
  | nil => rfl
  | cons c cs ih =>
    rw [slugChars]
    split
    · next hc =>
      rw [List.filter_cons_of_pos hc, List.map_cons]
      split
      · rw [List.filter_cons_of_neg (by decide),
          List.filter_cons_of_pos (isWordChar_toLower hc), ih]
      · rw [List.filter_cons_of_pos (isWordChar_toLower hc), ih]
    · next hc => rw [List.filter_cons_of_neg hc, ih]

theorem initial?_slug (s : String) : initial? (slug s) = (initial? s).map Char.toLower := by
  rw [initial?, slug, String.toList_ofList, ← List.head?_filter, filter_slugChars, List.head?_map,
    List.head?_filter, initial?]

end StagedCodegen.Text
