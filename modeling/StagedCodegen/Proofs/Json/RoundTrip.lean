import Mathlib.Algebra.Group.Int.Defs
import Mathlib.Data.List.Basic
import Mathlib.Data.List.TakeWhile
import StagedCodegen.Json.Parser
import StagedCodegen.Json.Printer
import StagedCodegen.Json.Record
import StagedCodegen.Proofs.Text.Numeral

/-!
# What is printed can be read

A value that is written with any blanks between its tokens is read as that value, so both forms are.
The reader has bounds: a whole number must fit 64 bits, and brackets may be nested 127 deep
(`Readable`). Doubles are left out, since they are read by rounding.

Main statements: `parse?_printIndented`, `parse?_print`.
-/

namespace StagedCodegen.Json

open StagedCodegen.Json.Parser
open Text.Hex (digit)
open Text.Numeral (head?_toDigits)

/-! ## Texts -/

theorem value?_digit : ∀ n < 16, Text.Hex.value? (digit n) = some n := by decide

/-- The escape of a control character is read as that character. -/
theorem numbered?_digit {c : Char} (h : c.toNat < 0x20) (cs : List Char) :
    numbered? ('0' :: '0' :: digit (c.toNat / 16) :: digit (c.toNat % 16) :: cs) =
      some (c, cs) := by
  have hzero : Text.Hex.value? '0' = some 0 := by decide
  have hunit : unit? ('0' :: '0' :: digit (c.toNat / 16) :: digit (c.toNat % 16) :: cs) =
      some (c.toNat, cs) := by
    simp only [unit?, hzero, value?_digit (c.toNat / 16) (by omega),
      value?_digit (c.toNat % 16) (by omega), Option.bind_eq_bind, Option.bind_some]
    exact congrArg (fun n => some (n, cs)) (by omega)
  simp only [numbered?, hunit, Option.bind_eq_bind, Option.bind_some]
  rw [if_neg (by omega), if_neg (by omega)]
  exact congrArg (fun c => some (c, cs)) (Char.ofNat_toNat c)

/-- What an escape stands for comes first in the text. -/
theorem text?_escaped {c : Char} {cs rest : List Char} (h : escaped? cs = some (c, rest))
    (fuel : Nat) :
    text? (fuel + 1) ('\\' :: cs) = (text? fuel rest).map fun r => (c :: r.1, r.2) := by
  simp only [text?, h, Option.bind_eq_bind, Option.bind_some]
  cases text? fuel rest <;> rfl

theorem text?_plain {c : Char} (hquote : c ≠ '"') (hslash : c ≠ '\\') (hc : ¬c.toNat < 0x20)
    (fuel : Nat) (cs : List Char) :
    text? (fuel + 1) (c :: cs) = (text? fuel cs).map fun r => (c :: r.1, r.2) := by
  rw [text?.eq_def]
  simp only [hc, if_false]
  cases text? fuel cs <;> rfl

/-- One character, as it is written, is read as that character. -/
theorem text?_escapeChar (fuel : Nat) (c : Char) (cs : List Char) :
    text? (fuel + 1) (escapeChar c ++ cs) = (text? fuel cs).map fun r => (c :: r.1, r.2) := by
  unfold escapeChar
  split_ifs with hquote hslash _ _ _ _ _ hcontrol
  · exact text?_escaped (by rw [hquote]; rfl) fuel
  · exact text?_escaped (by rw [hslash]; rfl) fuel
  iterate 5
    · subst c
      exact text?_escaped rfl fuel
  · have hescaped : escaped? ('u' :: '0' :: '0' :: digit (c.toNat / 16) ::
        digit (c.toNat % 16) :: cs) = some (c, cs) := numbered?_digit hcontrol cs
    exact text?_escaped hescaped fuel
  · exact text?_plain hquote hslash hcontrol fuel cs

/-- A text, as it is written, is read as that text. -/
theorem text?_escape {fuel : Nat} {s : List Char} (h : s.length < fuel) (cs : List Char) :
    text? fuel (escape s ++ '"' :: cs) = some (s, cs) := by
  induction s generalizing fuel with
  | nil =>
    obtain ⟨fuel, rfl⟩ := Nat.exists_eq_succ_of_ne_zero (Nat.ne_zero_of_lt h)
    rfl
  | cons c s ih =>
    obtain ⟨fuel, rfl⟩ := Nat.exists_eq_succ_of_ne_zero (Nat.ne_zero_of_lt h)
    have hrest : escape (c :: s) = escapeChar c ++ escape s := rfl
    rw [hrest, List.append_assoc, text?_escapeChar, ih (by simpa using h), Option.map_some]

/-! ## Whole numbers -/

/-- What may stand after a number: it goes on with no digit, no point and no power of ten. -/
def EndsNumber (cs : List Char) : Prop :=
  ∀ c ∈ cs.head?, c.isDigit = false ∧ c ≠ '.' ∧ c ≠ 'e' ∧ c ≠ 'E'

theorem digitValue_eq (c : Char) : digitValue c = c.toNat - '0'.toNat := rfl

/-- Digits are taken as long as their number fits. -/
theorem takeDigits_append {ds : List Char} (hds : ∀ c ∈ ds, c.isDigit = true) {m : Nat}
    (hm : Nat.ofDigitChars 10 ds m < Nat.pow 2 64) (n : Nat) {cs : List Char}
    (hcs : ∀ c ∈ cs.head?, c.isDigit = false) :
    takeDigits m n (ds ++ cs) = (Nat.ofDigitChars 10 ds m, n + ds.length, cs) := by
  induction ds generalizing m n with
  | nil =>
    rw [List.nil_append, Nat.ofDigitChars_nil, List.length_nil, Nat.add_zero]
    cases cs with
    | nil => rfl
    | cons c cs =>
      rw [takeDigits, if_neg]
      simp [hcs c rfl]
  | cons d ds ih =>
    have hle : ∀ (ds : List Char) (m : Nat), m ≤ Nat.ofDigitChars 10 ds m := by
      intro ds
      induction ds with
      | nil => simp
      | cons d ds ih =>
        intro m
        rw [Nat.ofDigitChars_cons]
        exact Nat.le_trans (by omega) (ih _)
    rw [Nat.ofDigitChars_cons, ← digitValue_eq] at hm ⊢
    have hfits := Nat.lt_of_le_of_lt (hle ds _) hm
    rw [List.cons_append, takeDigits, if_pos ⟨hds d List.mem_cons_self, hfits⟩,
      ih (fun c hc => hds c (List.mem_cons_of_mem _ hc)) hm]
    simp [Nat.add_comm, Nat.add_left_comm]

theorem afterWhole?_of_endsNumber {cs : List Char} (h : EndsNumber cs) (m : Nat) :
    afterWhole? false m cs = some (.int m, cs) ∧
      (0 < m → m ≤ Nat.pow 2 63 → afterWhole? true m cs = some (.int (-m), cs)) := by
  cases cs with
  | nil => exact ⟨rfl, fun h₀ h₁ => by simp [afterWhole?, h₀, h₁]⟩
  | cons c cs =>
    obtain ⟨-, hpoint, he, hE⟩ := h c rfl
    exact ⟨by simp [afterWhole?, hpoint, he, hE], fun h₀ h₁ => by
      simp [afterWhole?, hpoint, he, hE, h₀, h₁]⟩

/-- The digits of a number are read as that number. -/
theorem unsigned?_toDigits {n : Nat} (hn : n < Nat.pow 2 64) (negative : Bool) {cs : List Char}
    (h : EndsNumber cs) :
    unsigned? negative (Nat.toDigits 10 n ++ cs) = afterWhole? negative n cs := by
  have hnodigit : ∀ c ∈ cs.head?, c.isDigit = false := fun c hc => (h c hc).1
  rcases Nat.eq_zero_or_pos n with rfl | hpos
  · rw [Nat.toDigits_zero, List.singleton_append, unsigned?, if_neg]
    cases cs with
    | nil => simp
    | cons c cs => simp [(h c rfl).1]
  · have hdigits : ∀ c ∈ Nat.toDigits 10 n, c.isDigit = true :=
      fun c hc => Nat.isDigit_of_mem_toDigits (by omega) (by omega) hc
    have htake : takeDigits 0 0 (Nat.toDigits 10 n ++ cs) =
        (n, 0 + (Nat.toDigits 10 n).length, cs) := by
      have h10 := Nat.ofDigitChars_ten_toDigits (n := n)
      have happend := takeDigits_append hdigits (m := 0) (by rwa [h10]) 0 hnodigit
      rwa [h10] at happend
    have hhead := head?_toDigits hpos
    rcases hd : Nat.toDigits 10 n with _ | ⟨d, ds⟩
    · exact absurd hd Nat.toDigits_ne_nil
    · rw [hd] at htake hhead hdigits
      have hzero : d ≠ '0' := fun h => hhead (by rw [h]; rfl)
      have hmore : cs.takeWhile Char.isDigit = [] ∧ cs.dropWhile Char.isDigit = cs := by
        cases cs with
        | nil => exact ⟨rfl, rfl⟩
        | cons c cs => simp [(h c rfl).1]
      rw [List.cons_append] at htake ⊢
      simp [unsigned?, hdigits d List.mem_cons_self, htake, hmore]

/-- The first digit of a number is no sign. -/
theorem head?_ne_minus (n : Nat) (cs : List Char) : (Nat.toDigits 10 n ++ cs).head? ≠ some '-' := by
  rw [List.head?_append_of_ne_nil _ Nat.toDigits_ne_nil]
  intro h
  have hdigit : Char.isDigit '-' = true :=
    Nat.isDigit_of_mem_toDigits (by omega) (by omega) (List.mem_of_head? h)
  exact absurd hdigit (by decide)

/-- A whole number of 64 bits is read as that number. -/
theorem number?_int {n : Int} (hlow : -2 ^ 63 ≤ n) (hhigh : n < 2 ^ 64) {cs : List Char}
    (h : EndsNumber cs) : number? ((toString n).toList ++ cs) = some (.int n, cs) := by
  have h63 : Nat.pow 2 63 = 2 ^ 63 := rfl
  have h64 : Nat.pow 2 64 = 2 ^ 64 := rfl
  cases n with
  | ofNat n =>
    have hn : (n : Int) < 2 ^ 64 := hhigh
    have hunsigned : number? (Nat.toDigits 10 n ++ cs) =
        unsigned? false (Nat.toDigits 10 n ++ cs) := by
      rw [number?]
      exact fun ds hds => head?_ne_minus n cs (by rw [hds]; rfl)
    rw [show toString (Int.ofNat n) = n.repr from rfl, Nat.toList_repr, hunsigned,
      unsigned?_toDigits (by omega) false h]
    exact (afterWhole?_of_endsNumber h n).1
  | negSucc n =>
    rw [show toString (Int.negSucc n) = "-" ++ (n + 1).repr from rfl, String.toList_append,
      Nat.toList_repr, List.append_assoc]
    refine (unsigned?_toDigits (by omega) true h).trans ?_
    exact (afterWhole?_of_endsNumber h (n + 1)).2 n.succ_pos (by omega)

/-! ## Blanks -/

theorem skip_of_not_isSpace {c : Char} (h : isSpace c = false) (cs : List Char) :
    skip (c :: cs) = c :: cs := by simp [skip, h]

theorem skip_append {bs : List Char} (h : ∀ c ∈ bs, isSpace c = true) (cs : List Char) :
    skip (bs ++ cs) = skip cs := by
  induction bs with
  | nil => rfl
  | cons b bs ih =>
    obtain ⟨hb, hbs⟩ := List.forall_mem_cons.mp h
    have hcons : skip (b :: (bs ++ cs)) = skip (bs ++ cs) := List.dropWhile_cons_of_pos hb
    rw [List.cons_append, hcons, ih hbs]

/-- The blanks that a printer puts between tokens. -/
structure Spacing where
  /-- What stands before an item at some depth, and before the bracket that closes a list of items
  one deeper. -/
  gap : Nat → List Char
  /-- What stands between a name and its value. -/
  link : List Char
  isSpace_gap : ∀ d, ∀ c ∈ gap d, isSpace c = true
  isSpace_link : ∀ c ∈ link, isSpace c = true

namespace Spacing

/-- No blanks. -/
def compact : Spacing := ⟨fun _ => [], [], fun _ => List.forall_mem_nil _, List.forall_mem_nil _⟩

/-- A line for every item. -/
def indented : Spacing where
  gap := newline
  link := [' ']
  isSpace_gap d c hc := by
    rcases List.mem_cons.mp hc with rfl | hc
    · rfl
    · rw [List.eq_of_mem_replicate hc]
      rfl
  isSpace_link := List.forall_mem_singleton.mpr rfl

end Spacing

section Spaced

variable (s : Spacing)

mutual
/-- A value that stands at some depth, with blanks between its tokens. -/
def spaced : (v : Json) → Nat → List Char
  | .array (x :: xs), d => '[' :: (s.gap (d + 1) ++ (spaced x (d + 1) ++ spacedItems xs d))
  | .object (m :: ms), d =>
    '\x7b' :: (s.gap (d + 1) ++ (spacedMember m (d + 1) ++ spacedMembers ms d))
  | .array [], _ => ['[', ']']
  | .object [], _ => ['\x7b', '\x7d']
  | .null, _ => ['n', 'u', 'l', 'l']
  | .bool true, _ => ['t', 'r', 'u', 'e']
  | .bool false, _ => ['f', 'a', 'l', 's', 'e']
  | .number n, _ => n.text.toList
  | .string t, _ => quoted t
termination_by structural v => v
/-- The items after the first one, and the closing bracket. -/
def spacedItems : (xs : List Json) → Nat → List Char
  | [], d => s.gap d ++ [']']
  | x :: xs, d => ',' :: (s.gap (d + 1) ++ (spaced x (d + 1) ++ spacedItems xs d))
termination_by structural xs => xs
/-- The members after the first one, and the closing brace. -/
def spacedMembers : (ms : List (String × Json)) → Nat → List Char
  | [], d => s.gap d ++ ['\x7d']
  | m :: ms, d => ',' :: (s.gap (d + 1) ++ (spacedMember m (d + 1) ++ spacedMembers ms d))
termination_by structural ms => ms
/-- A name with its value. -/
def spacedMember : (m : String × Json) → Nat → List Char
  | (k, v), d => quoted k ++ ':' :: (s.link ++ spaced v d)
termination_by structural m => m
end

end Spaced

mutual
theorem spaced_indented : (v : Json) → ∀ d : Nat, spaced .indented v d = v.indented d
  | .null, _ | .bool true, _ | .bool false, _ | .number _, _ | .string _, _ | .array [], _
  | .object [], _ => rfl
  | .array (x :: xs), d => by
    rw [spaced, indented, spaced_indented x, spacedItems_indented xs]
    rfl
  | .object (m :: ms), d => by
    rw [spaced, indented, spacedMember_indented m, spacedMembers_indented ms]
    rfl
termination_by structural v => v
theorem spacedItems_indented : (xs : List Json) → ∀ d : Nat,
    spacedItems .indented xs d = indentedItems xs d
  | [], _ => rfl
  | x :: xs, d => by
    rw [spacedItems, indentedItems, spaced_indented x, spacedItems_indented xs]
    rfl
termination_by structural xs => xs
theorem spacedMembers_indented : (ms : List (String × Json)) → ∀ d : Nat,
    spacedMembers .indented ms d = indentedMembers ms d
  | [], _ => rfl
  | m :: ms, d => by
    rw [spacedMembers, indentedMembers, spacedMember_indented m, spacedMembers_indented ms]
    rfl
termination_by structural ms => ms
theorem spacedMember_indented : (m : String × Json) → ∀ d : Nat,
    spacedMember .indented m d = indentedMember m d
  | (k, v), d => by
    rw [spacedMember, indentedMember, spaced_indented v]
    rfl
termination_by structural m => m
end

mutual
theorem spaced_compact : (v : Json) → ∀ d : Nat, spaced .compact v d = v.compact
  | .null, _ | .bool true, _ | .bool false, _ | .number _, _ | .string _, _ | .array [], _
  | .object [], _ => rfl
  | .array (x :: xs), d => by
    rw [spaced, compact, spaced_compact x, spacedItems_compact xs]
    rfl
  | .object (m :: ms), d => by
    rw [spaced, compact, spacedMember_compact m, spacedMembers_compact ms]
    rfl
termination_by structural v => v
theorem spacedItems_compact : (xs : List Json) → ∀ d : Nat,
    spacedItems .compact xs d = compactItems xs
  | [], _ => rfl
  | x :: xs, d => by
    rw [spacedItems, compactItems, spaced_compact x, spacedItems_compact xs]
    rfl
termination_by structural xs => xs
theorem spacedMembers_compact : (ms : List (String × Json)) → ∀ d : Nat,
    spacedMembers .compact ms d = compactMembers ms
  | [], _ => rfl
  | m :: ms, d => by
    rw [spacedMembers, compactMembers, spacedMember_compact m, spacedMembers_compact ms]
    rfl
termination_by structural ms => ms
theorem spacedMember_compact : (m : String × Json) → ∀ d : Nat,
    spacedMember .compact m d = compactMember m
  | (k, v), d => by
    rw [spacedMember, compactMember, spaced_compact v]
    rfl
termination_by structural m => m
end

/-! ## Values -/

mutual
/-- The value can be read: its whole numbers fit 64 bits, it holds no doubles, and no more than
`depth - 1` brackets open inside each other. -/
def Readable : (v : Json) → (depth : Nat) → Prop
  | .number (.int n), _ => -2 ^ 63 ≤ n ∧ n < 2 ^ 64
  | .number (.float _), _ => False
  | .array xs, depth => 1 < depth ∧ ReadableItems xs (depth - 1)
  | .object ms, depth => 1 < depth ∧ ReadableMembers ms (depth - 1)
  | .null, _ => True
  | .bool _, _ => True
  | .string _, _ => True
termination_by structural v => v
/-- `Readable` for each item. -/
def ReadableItems : (xs : List Json) → (depth : Nat) → Prop
  | [], _ => True
  | x :: xs, depth => Readable x depth ∧ ReadableItems xs depth
termination_by structural xs => xs
/-- `Readable` for each member's value. -/
def ReadableMembers : (ms : List (String × Json)) → (depth : Nat) → Prop
  | [], _ => True
  | m :: ms, depth => ReadableMember m depth ∧ ReadableMembers ms depth
termination_by structural ms => ms
/-- `Readable` for one member's value. -/
def ReadableMember : (m : String × Json) → (depth : Nat) → Prop
  | (_, v), depth => Readable v depth
termination_by structural m => m
end

/-- What can stand at the beginning of a value. -/
def Opens (c : Char) : Prop := isSpace c = false ∧ c ≠ ']' ∧ c ≠ '\x7d'

theorem opens_of_isDigit {c : Char} (h : c.isDigit = true) : Opens c := by
  refine ⟨?_, ?_, ?_⟩
  · by_contra hspace
    simp only [isSpace, Bool.not_eq_false, Bool.or_eq_true, beq_iff_eq] at hspace
    rcases hspace with ((rfl | rfl) | rfl) | rfl <;> exact absurd h (by decide)
  · rintro rfl
    exact absurd h (by decide)
  · rintro rfl
    exact absurd h (by decide)

/-- A whole number begins with a digit or a sign. -/
theorem head_toString (n : Int) :
    ∃ c cs, (toString n).toList = c :: cs ∧ (c.isDigit = true ∨ c = '-') := by
  cases n with
  | ofNat n =>
    rw [show toString (Int.ofNat n) = n.repr from rfl, Nat.toList_repr]
    rcases hd : Nat.toDigits 10 n with _ | ⟨d, ds⟩
    · exact absurd hd Nat.toDigits_ne_nil
    · exact ⟨d, ds, rfl, .inl (Nat.isDigit_of_mem_toDigits (b := 10) (n := n) (by omega) (by omega)
        (by simp [hd]))⟩
  | negSucc n =>
    rw [show toString (Int.negSucc n) = "-" ++ (n + 1).repr from rfl, String.toList_append]
    exact ⟨'-', _, rfl, .inr rfl⟩

theorem exists_spaced_eq {v : Json} {depth : Nat} (s : Spacing) (h : v.Readable depth) (d : Nat) :
    ∃ c cs, spaced s v d = c :: cs ∧ Opens c := by
  have hopens : ∀ c ∈ ['n', 't', 'f', '"', '[', '\x7b', '-'], Opens c := by
    simp [Opens, isSpace]
  cases v with
  | null => exact ⟨_, _, rfl, hopens _ (by simp)⟩
  | bool b => cases b <;> exact ⟨_, _, rfl, hopens _ (by simp)⟩
  | string s => exact ⟨_, _, rfl, hopens _ (by simp)⟩
  | array xs => cases xs <;> exact ⟨_, _, rfl, hopens _ (by simp)⟩
  | object ms => cases ms <;> exact ⟨_, _, rfl, hopens _ (by simp)⟩
  | number n =>
    cases n with
    | float bits => exact absurd h (by simp [Readable])
    | int n =>
      obtain ⟨c, cs, hcs, hc⟩ := head_toString n
      refine ⟨c, cs, hcs, ?_⟩
      rcases hc with hdigit | rfl
      · exact opens_of_isDigit hdigit
      · exact hopens _ (by simp)

theorem value?_number {c : Char} (h : c.isDigit = true ∨ c = '-') (fuel depth : Nat)
    (cs : List Char) :
    value? (fuel + 1) depth (c :: cs) = (number? (c :: cs)).map fun r => (.number r.1, r.2) := by
  have hother : ∀ other ∈ ['n', 't', 'f', '"', '[', '\x7b'], c ≠ other := by
    rcases h with hdigit | rfl
    · intro other hmem hc
      subst hc
      revert hdigit
      revert hmem
      simp only [List.mem_cons, List.not_mem_nil, or_false]
      rintro (rfl | rfl | rfl | rfl | rfl | rfl) <;> decide
    · simp
  have hne : ∀ other ∈ ['n', 't', 'f', '"', '[', '\x7b'], ∀ ds, c :: cs ≠ other :: ds :=
    fun other hmem ds h => hother other hmem (List.cons.inj h).1
  rw [value?]
  · cases number? (c :: cs) <;> rfl
  all_goals exact fun ds => hne _ (by simp) _

theorem value?_array {depth : Nat} (hdepth : 1 < depth) {c : Char} {cs ds : List Char}
    (hskip : skip cs = c :: ds) (hc : c ≠ ']') (fuel : Nat) :
    value? (fuel + 1) depth ('[' :: cs) =
      (items? fuel (depth - 1) (c :: ds)).map fun r => (.array r.1, r.2) := by
  simp only [value?, if_neg (Nat.not_le.2 hdepth), hskip]
  split
  · next h => exact absurd (List.cons.inj h).1 hc
  · cases items? fuel (depth - 1) (c :: ds) <;> rfl

theorem value?_object {depth : Nat} (hdepth : 1 < depth) {c : Char} {cs ds : List Char}
    (hskip : skip cs = c :: ds) (hc : c ≠ '\x7d') (fuel : Nat) :
    value? (fuel + 1) depth ('\x7b' :: cs) =
      (Parser.members? fuel (depth - 1) (c :: ds)).map fun r => (.object r.1, r.2) := by
  simp only [value?, if_neg (Nat.not_le.2 hdepth), hskip]
  split
  · next h => exact absurd (List.cons.inj h).1 hc
  · cases Parser.members? fuel (depth - 1) (c :: ds) <;> rfl

/-- No blank goes on with a number, and neither does what stands behind the blanks. -/
theorem endsNumber_append {bs cs : List Char} (hbs : ∀ c ∈ bs, isSpace c = true)
    (hcs : EndsNumber cs) : EndsNumber (bs ++ cs) := by
  intro c hc
  cases bs with
  | nil => exact hcs c hc
  | cons b bs =>
    obtain rfl := Option.some.inj hc
    have hspace : isSpace b = true := hbs b List.mem_cons_self
    simp only [isSpace, Bool.or_eq_true, beq_iff_eq] at hspace
    rcases hspace with ((rfl | rfl) | rfl) | rfl <;> decide

theorem endsNumber_of_head {c : Char} (h : c ∈ [',', ']', '\x7d']) (cs : List Char) :
    EndsNumber (c :: cs) := by
  rintro _ ⟨⟩
  simp only [List.mem_cons, List.not_mem_nil, or_false] at h
  rcases h with rfl | rfl | rfl <;> decide

theorem endsNumber_items (s : Spacing) (xs : List Json) (d : Nat) (cs : List Char) :
    EndsNumber (spacedItems s xs d ++ cs) := by
  cases xs with
  | nil =>
    rw [spacedItems, List.append_assoc]
    exact endsNumber_append (s.isSpace_gap d) (endsNumber_of_head (by simp) _)
  | cons x xs => exact endsNumber_of_head (by simp) _

theorem endsNumber_members (s : Spacing) (ms : List (String × Json)) (d : Nat) (cs : List Char) :
    EndsNumber (spacedMembers s ms d ++ cs) := by
  cases ms with
  | nil =>
    rw [spacedMembers, List.append_assoc]
    exact endsNumber_append (s.isSpace_gap d) (endsNumber_of_head (by simp) _)
  | cons m ms => exact endsNumber_of_head (by simp) _

theorem length_escape (s : List Char) : s.length ≤ (escape s).length := by
  induction s with
  | nil => exact Nat.le_refl _
  | cons c s ih =>
    have hone : 1 ≤ (escapeChar c).length := by
      unfold escapeChar
      split_ifs <;> simp
    have hcons : escape (c :: s) = escapeChar c ++ escape s := rfl
    rw [hcons, List.length_append, List.length_cons]
    omega

/-- A text in quotes is read as that text. -/
theorem text?_quoted {fuel : Nat} {s : String} (h : (quoted s).length ≤ fuel + 1)
    (cs : List Char) : text? fuel (escape s.toList ++ '"' :: cs) = some (s.toList, cs) := by
  have hlength := length_escape s.toList
  simp only [quoted, List.length_cons, List.length_append, List.length_nil] at h
  exact text?_escape (by omega) cs

section Rest

variable {fuel depth : Nat} {ds rest es cs : List Char} {x : Json} {xs : List Json} {k : String}
  {ms : List (String × Json)}

theorem items?_last (hfirst : value? fuel depth (skip ds) = some (x, rest))
    (hrest : skip rest = ']' :: cs) : items? (fuel + 1) depth ds = some ([x], cs) := by
  simp [items?, hfirst, hrest]

theorem items?_more (hfirst : value? fuel depth (skip ds) = some (x, rest))
    (hrest : skip rest = ',' :: es) (hothers : items? fuel depth es = some (xs, cs)) :
    items? (fuel + 1) depth ds = some (x :: xs, cs) := by
  rw [items?]
  simp [hfirst, hrest, hothers]

theorem members?_last (hk : (quoted k).length ≤ fuel + 1)
    (hname : skip ds = quoted k ++ ':' :: es)
    (hfirst : value? fuel depth (skip es) = some (x, rest)) (hrest : skip rest = '\x7d' :: cs) :
    Parser.members? (fuel + 1) depth ds = some ([(k, x)], cs) := by
  have hread := text?_quoted hk (':' :: es)
  have hcolon : skip (':' :: es) = ':' :: es := rfl
  rw [Parser.members?, hname]
  simp [quoted, hread, hcolon, hfirst, hrest]

theorem members?_more {fs : List Char} (hk : (quoted k).length ≤ fuel + 1)
    (hname : skip ds = quoted k ++ ':' :: es)
    (hfirst : value? fuel depth (skip es) = some (x, rest)) (hrest : skip rest = ',' :: fs)
    (hothers : Parser.members? fuel depth fs = some (ms, cs)) :
    Parser.members? (fuel + 1) depth ds = some ((k, x) :: ms, cs) := by
  have hread := text?_quoted hk (':' :: es)
  have hcolon : skip (':' :: es) = ':' :: es := rfl
  rw [Parser.members?, hname]
  simp [quoted, hread, hcolon, hfirst, hrest, hothers]

end Rest

theorem length_spaced {v : Json} {depth : Nat} (s : Spacing) (h : v.Readable depth) (d : Nat) :
    0 < (spaced s v d).length := by
  obtain ⟨c, cs, hcs, -⟩ := exists_spaced_eq s h d
  rw [hcs]
  exact Nat.succ_pos _

theorem length_spacedItems (s : Spacing) (xs : List Json) (d : Nat) :
    0 < (spacedItems s xs d).length := by
  cases xs <;> simp [spacedItems]

theorem length_spacedMembers (s : Spacing) (ms : List (String × Json)) (d : Nat) :
    0 < (spacedMembers s ms d).length := by
  cases ms <;> simp [spacedMembers]

/-- Blanks before a value are skipped, and nothing of the value is. -/
theorem skip_append_spaced {v : Json} {depth : Nat} (s : Spacing) (h : v.Readable depth) (d : Nat)
    {bs : List Char} (hbs : ∀ c ∈ bs, isSpace c = true) (cs : List Char) :
    skip (bs ++ (spaced s v d ++ cs)) = spaced s v d ++ cs := by
  obtain ⟨c, ds, hc, hspace, -⟩ := exists_spaced_eq s h d
  rw [skip_append hbs, hc, List.cons_append, skip_of_not_isSpace hspace]

theorem skip_spaced {v : Json} {depth : Nat} (s : Spacing) (h : v.Readable depth) (d : Nat)
    (cs : List Char) : skip (spaced s v d ++ cs) = spaced s v d ++ cs :=
  skip_append_spaced s h d (List.forall_mem_nil _) cs

section Reading

variable (s : Spacing)

/-- A list is read once its items are, the first of them from where it begins. -/
theorem value?_spaced_array {fuel depth : Nat} {x : Json} {xs : List Json}
    (h : (Json.array (x :: xs)).Readable depth) (d : Nat) {cs : List Char}
    (hitems : items? fuel (depth - 1) (spaced s x (d + 1) ++ (spacedItems s xs d ++ cs)) =
      some (x :: xs, cs)) :
    value? (fuel + 1) depth (spaced s (.array (x :: xs)) d ++ cs) =
      some (.array (x :: xs), cs) := by
  obtain ⟨hdepth, hx, -⟩ := h
  obtain ⟨c, ds, hc, -, hbracket, -⟩ := exists_spaced_eq s hx (d + 1)
  have hskip := skip_append_spaced s hx (d + 1) (s.isSpace_gap (d + 1)) (spacedItems s xs d ++ cs)
  simp only [hc, List.cons_append] at hskip hitems
  rw [spaced, List.cons_append, List.append_assoc, List.append_assoc, hc, List.cons_append,
    value?_array hdepth hskip hbracket, hitems]
  rfl

/-- An object is read once its members are, the first of them from where its name begins. -/
theorem value?_spaced_object {fuel depth : Nat} {k : String} {v : Json}
    {ms : List (String × Json)} (hdepth : 1 < depth) (d : Nat) {cs : List Char}
    (hmembers : Parser.members? fuel (depth - 1) (quoted k ++ ':' :: (s.link ++
      (spaced s v (d + 1) ++ (spacedMembers s ms d ++ cs)))) = some ((k, v) :: ms, cs)) :
    value? (fuel + 1) depth (spaced s (.object ((k, v) :: ms)) d ++ cs) =
      some (.object ((k, v) :: ms), cs) := by
  have hskip : skip (s.gap (d + 1) ++ '"' :: (escape k.toList ++ ['"'] ++ ':' :: (s.link ++
      (spaced s v (d + 1) ++ (spacedMembers s ms d ++ cs))))) = _ :=
    (skip_append (s.isSpace_gap (d + 1)) _).trans (skip_of_not_isSpace (by decide) _)
  simp only [spaced, spacedMember, quoted, List.cons_append, List.append_assoc] at *
  rw [value?_object hdepth hskip (by decide), hmembers]
  rfl

mutual
/-- A value with blanks between its tokens, and whatever cannot belong to it after that. -/
theorem value?_spaced : (v : Json) → ∀ {fuel depth : Nat}, v.Readable depth → ∀ d : Nat,
    (spaced s v d).length ≤ fuel → ∀ {cs : List Char}, EndsNumber cs →
    value? fuel depth (spaced s v d ++ cs) = some (v, cs)
  | v, 0, _, h, d, hfuel, _, _ => absurd (length_spaced s h d) (Nat.not_lt.2 hfuel)
  | .null, fuel + 1, _, _, _, _, _, _ => rfl
  | .bool true, fuel + 1, _, _, _, _, _, _ => rfl
  | .bool false, fuel + 1, _, _, _, _, _, _ => rfl
  | .number (.float _), fuel + 1, _, h, _, _, _, _ => False.elim h
  | .number (.int n), fuel + 1, _, h, _, _, cs, hcs => by
    obtain ⟨c, ds, hn, hc⟩ := head_toString n
    have hread := number?_int h.1 h.2 hcs
    show value? (fuel + 1) _ ((toString n).toList ++ cs) = _
    rw [hn, List.cons_append] at hread ⊢
    rw [value?_number hc, hread]
    rfl
  | .string t, fuel + 1, _, _, d, hfuel, cs, _ => by
    have ht : (quoted t).length ≤ fuel + 1 := hfuel
    have hread := text?_quoted ht cs
    show value? (fuel + 1) _ (quoted t ++ cs) = _
    simp [quoted, value?, hread]
  | .array [], fuel + 1, depth, h, _, _, _, _ => by
    have hdepth : ¬depth ≤ 1 := Nat.not_le.2 h.1
    simp [spaced, value?, hdepth, skip, isSpace]
  | .array (x :: xs), fuel + 1, depth, h, d, hfuel, cs, _ => by
    have hone := length_spaced s h.2.1 (d + 1)
    have hrest := length_spacedItems s xs d
    simp only [spaced, List.length_cons, List.length_append] at hfuel
    obtain ⟨fuel, rfl⟩ : ∃ k, fuel = k + 1 := Nat.exists_eq_succ_of_ne_zero (by omega)
    refine value?_spaced_array s h d (items?_spaced xs h.2.2 d (by omega) ?_)
    rw [skip_spaced s h.2.1]
    exact value?_spaced x h.2.1 (d + 1) (by omega) (endsNumber_items s xs d cs)
  | .object [], fuel + 1, depth, h, _, _, _, _ => by
    have hdepth : ¬depth ≤ 1 := Nat.not_le.2 h.1
    simp [spaced, value?, hdepth, skip, isSpace]
  | .object ((k, v) :: ms), fuel + 1, depth, h, d, hfuel, cs, _ => by
    obtain ⟨hdepth, hv, hms⟩ := h
    have hrest := length_spacedMembers s ms d
    simp only [spaced, spacedMember, List.length_cons, List.length_append] at hfuel
    obtain ⟨fuel, rfl⟩ : ∃ k, fuel = k + 1 := Nat.exists_eq_succ_of_ne_zero (by omega)
    refine value?_spaced_object s hdepth d (members?_spaced ms hms d (by omega) (by omega)
      (skip_of_not_isSpace (by decide) _) ?_)
    rw [skip_append_spaced s hv _ s.isSpace_link]
    exact value?_spaced v hv (d + 1) (by omega) (endsNumber_members s ms d cs)
termination_by structural v => v
/-- The items of a list after one of them. -/
theorem items?_spaced : (xs : List Json) → ∀ {fuel depth : Nat}, ReadableItems xs depth →
    ∀ d : Nat, (spacedItems s xs d).length ≤ fuel → ∀ {cs ds : List Char} {x : Json},
    value? fuel depth (skip ds) = some (x, spacedItems s xs d ++ cs) →
    items? (fuel + 1) depth ds = some (x :: xs, cs)
  | [], fuel, depth, _, d, _, cs, ds, x, hfirst => by
    refine items?_last hfirst ?_
    rw [spacedItems, List.append_assoc, skip_append (s.isSpace_gap d)]
    exact skip_of_not_isSpace (by decide) _
  | y :: ys, fuel, depth, h, d, hfuel, cs, ds, x, hfirst => by
    have hrest := length_spacedItems s ys d
    simp only [spacedItems, List.length_cons, List.length_append] at hfuel
    obtain ⟨fuel, rfl⟩ : ∃ k, fuel = k + 1 := Nat.exists_eq_succ_of_ne_zero (by omega)
    have hothers : items? (fuel + 1) depth (s.gap (d + 1) ++
        (spaced s y (d + 1) ++ (spacedItems s ys d ++ cs))) = some (y :: ys, cs) := by
      refine items?_spaced ys h.2 d (by omega) ?_
      rw [skip_append_spaced s h.1 _ (s.isSpace_gap _)]
      exact value?_spaced y h.1 (d + 1) (by omega) (endsNumber_items s ys d cs)
    refine items?_more hfirst ?_ hothers
    rw [spacedItems, List.cons_append, List.append_assoc, List.append_assoc]
    exact skip_of_not_isSpace (by decide) _
termination_by structural xs => xs
/-- The members of an object after one of them. -/
theorem members?_spaced : (ms : List (String × Json)) → ∀ {fuel depth : Nat},
    ReadableMembers ms depth → ∀ d : Nat, (spacedMembers s ms d).length ≤ fuel →
    ∀ {cs ds es : List Char} {k : String} {v : Json}, (quoted k).length ≤ fuel →
    skip ds = quoted k ++ ':' :: es →
    value? fuel depth (skip es) = some (v, spacedMembers s ms d ++ cs) →
    Parser.members? (fuel + 1) depth ds = some ((k, v) :: ms, cs)
  | [], fuel, depth, _, d, _, cs, ds, es, k, v, hk, hname, hfirst => by
    refine members?_last (by omega) hname hfirst ?_
    rw [spacedMembers, List.append_assoc, skip_append (s.isSpace_gap d)]
    exact skip_of_not_isSpace (by decide) _
  | (l, v') :: ms, fuel, depth, h, d, hfuel, cs, ds, es, k, v, hk, hname, hfirst => by
    have hrest := length_spacedMembers s ms d
    simp only [spacedMembers, spacedMember, List.length_cons, List.length_append] at hfuel
    obtain ⟨fuel, rfl⟩ : ∃ k, fuel = k + 1 := Nat.exists_eq_succ_of_ne_zero (by omega)
    have hothers : Parser.members? (fuel + 1) depth (s.gap (d + 1) ++ (quoted l ++ ':' :: (s.link ++
        (spaced s v' (d + 1) ++ (spacedMembers s ms d ++ cs))))) = some ((l, v') :: ms, cs) := by
      refine members?_spaced ms h.2 d (by omega) (by omega)
        ((skip_append (s.isSpace_gap _) _).trans (skip_of_not_isSpace (by decide) _)) ?_
      rw [skip_append_spaced s h.1 _ s.isSpace_link]
      exact value?_spaced v' h.1 (d + 1) (by omega) (endsNumber_members s ms d cs)
    refine members?_more (by omega) hname hfirst ?_ hothers
    rw [spacedMembers, spacedMember]
    simp only [List.cons_append, List.append_assoc]
    exact skip_of_not_isSpace (by decide) _
termination_by structural ms => ms
end

/-- A value that is written with blanks between its tokens is read as that value, whatever blanks
follow it. -/
theorem parse?_spaced {v : Json} (h : v.Readable 128) {cs : List Char}
    (hcs : ∀ c ∈ cs, isSpace c = true) {t : String} (ht : t.toList = spaced s v 0 ++ cs) :
    parse? t = some v := by
  have hends : EndsNumber cs := by
    have hnil : EndsNumber [] := nofun
    simpa using endsNumber_append hcs hnil
  have hskip : skip cs = [] := List.dropWhile_eq_nil_iff.2 hcs
  have hlength : (spaced s v 0).length ≤ (spaced s v 0 ++ cs).length + 1 := by
    rw [List.length_append]
    omega
  have hread := value?_spaced s v h 0 hlength hends
  simp only [parse?, ht, skip_spaced s h, hread, hskip]
  rfl

end Reading

/-- **The indented form of a value is read as that value**, if it holds no doubles, its whole
numbers fit 64 bits and its brackets are nested no deeper than the reader allows. -/
theorem parse?_printIndented {v : Json} (h : v.Readable 128) (cs : List Char)
    (hcs : ∀ c ∈ cs, isSpace c = true) :
    parse? (v.printIndented ++ String.ofList cs) = some v := by
  refine parse?_spaced .indented h hcs ?_
  rw [String.toList_append, printIndented, String.toList_ofList, String.toList_ofList,
    spaced_indented]

/-- **The compact form of a value is read as that value**, under the same conditions. -/
theorem parse?_print {v : Json} (h : v.Readable 128) : parse? v.print = some v := by
  refine parse?_spaced .compact h (List.forall_mem_nil _) ?_
  rw [print, String.toList_ofList, List.append_nil, spaced_compact]

/-! ## Lists and maps -/

theorem readableItems_map {α : Type} {write : α → Json} {depth : Nat} {xs : List α} :
    ReadableItems (xs.map write) depth ↔ ∀ x ∈ xs, (write x).Readable depth := by
  induction xs with
  | nil => simp [ReadableItems]
  | cons x xs ih => simp [ReadableItems, ih]

theorem readableMembers_map {α : Type} {write : α → Json} {depth : Nat}
    {xs : List (String × α)} :
    ReadableMembers (xs.map fun e => (e.1, write e.2)) depth ↔
      ∀ e ∈ xs, (write e.2).Readable depth := by
  induction xs with
  | nil => simp [ReadableMembers]
  | cons x xs ih => simp [ReadableMembers, ReadableMember, ih]

theorem readable_strings (xs : List String) {depth : Nat} (h : 1 < depth) :
    (strings xs).Readable depth :=
  ⟨h, readableItems_map.mpr fun _ _ => trivial⟩

theorem readable_ofMap {α : Type} {write : α → Json} {depth : Nat} (h : 1 < depth)
    (hwrite : ∀ a, (write a).Readable (depth - 1)) (m : SortedMap α) :
    (ofMap write m).Readable depth :=
  ⟨h, readableMembers_map.mpr fun e _ => hwrite e.2⟩

/-- A list is read from the list of its items, if they are read as they are written. -/
theorem list?_map {α : Type} {read : Json → Option α} {write : α → Json} {xs : List α}
    (h : ∀ x ∈ xs, read (write x) = some x) : list? read (.array (xs.map write)) = some xs := by
  have hitems : (xs.map write).mapM read = some xs := by
    induction xs with
    | nil => rfl
    | cons x xs ih =>
      obtain ⟨hx, hxs⟩ := List.forall_mem_cons.mp h
      simp [List.mapM_cons, hx, ih hxs]
  exact hitems

theorem list?_strings (xs : List String) : list? string? (strings xs) = some xs :=
  list?_map fun _ _ => rfl

/-- A map is read from the object of its bindings, if its values are read as they are written. -/
theorem map?_ofMap {α : Type} {read : Json → Option α} {write : α → Json} {m : SortedMap α}
    (h : ∀ e ∈ m.entries, read (write e.2) = some e.2) : map? read (ofMap write m) = some m := by
  have hbindings : ∀ xs : List (String × α), (∀ e ∈ xs, read (write e.2) = some e.2) →
      (xs.map fun e => (e.1, write e.2)).mapM
        (fun e : String × Json => (read e.2).map (e.1, ·)) = some xs := by
    intro xs hxs
    induction xs with
    | nil => rfl
    | cons x xs ih =>
      obtain ⟨hx, hxs⟩ := List.forall_mem_cons.mp hxs
      simp [List.mapM_cons, hx, ih hxs]
  rw [map?, show (ofMap write m).members? = some (m.entries.map fun e => (e.1, write e.2)) from rfl,
    Option.bind_some, hbindings _ h, Option.map_some, SortedMap.ofList_entries]

end StagedCodegen.Json
