import Mathlib.Data.List.Basic
import Mathlib.Data.List.Induction
import StagedCodegen.Text.Numeral

/-!
# How numbers are written

A number is written with a minus or without a sign, with no zero too many at its front, and without
a power of ten; the digits behind a point do not end in a zero (`Text.Numeral.Written`). Numbers are
also read from other texts, such as `+5`, `010` or `1.10`, but not written as these.

Main statements: `Text.Numeral.toString_eq_iff`, `Text.Numeral.written_write`.
-/

namespace StagedCodegen.Text.Numeral

open Decimal

variable {n : Nat} {c : Char} {cs ds : List Char} {s : String}

/-! ## Digits -/

/-- The digits of a number that is not zero do not begin with a zero. -/
theorem head?_toDigits (h : 0 < n) : (Nat.toDigits 10 n).head? ≠ some '0' := by
  induction n using Nat.strongRecOn with
  | _ n ih =>
    by_cases hn : n < 10
    · have hdigit : ∀ k < 10, 0 < k → Nat.digitChar k ≠ '0' := by decide
      rw [Nat.toDigits_of_lt_base hn]
      exact fun hzero => hdigit n hn h (Option.some.inj hzero)
    · rw [Nat.toDigits_of_base_le (by omega) (by omega),
        List.head?_append_of_ne_nil _ Nat.toDigits_ne_nil]
      exact ih (n / 10) (by omega) (by omega)

theorem getLast?_toDigits (n : Nat) :
    (Nat.toDigits 10 n).getLast? = some (Nat.digitChar (n % 10)) := by
  by_cases hn : n < 10
  · rw [Nat.toDigits_of_lt_base hn, Nat.mod_eq_of_lt hn, List.getLast?_singleton]
  · rw [Nat.toDigits_of_base_le (by omega) (by omega), List.getLast?_concat]

theorem digitChar_eq_self (h : c.isDigit = true) : Nat.digitChar (c.toNat - 48) = c := by
  have hc : 48 ≤ c.toNat ∧ c.toNat ≤ 57 := Char.isDigit_iff_toNat.mp h
  apply Char.toNat_inj.mp
  rw [Nat.toNat_digitChar_of_lt_ten (by omega)]
  omega

/-- Digits with no zero too many at their front. -/
structure Whole (ds : List Char) : Prop where
  ne_nil : ds ≠ []
  digits : ∀ c ∈ ds, c.isDigit = true
  zero : ds.head? = some '0' → ds = ['0']

theorem whole_toDigits (n : Nat) : Whole (Nat.toDigits 10 n) where
  ne_nil := Nat.toDigits_ne_nil
  digits _ hc := Nat.isDigit_of_mem_toDigits (by omega) (by omega) hc
  zero hhead := by
    rcases Nat.eq_zero_or_pos n with rfl | hpos
    · exact Nat.toDigits_zero 10
    · exact absurd hhead (head?_toDigits hpos)

theorem value_concat (ds : List Char) (c : Char) :
    value (ds ++ [c]) = 10 * value ds + (c.toNat - 48) := by
  rw [value, List.foldl_append]
  rfl

/-- What digits stand for is written as these digits. -/
theorem Whole.toDigits_value (h : Whole ds) : Nat.toDigits 10 (value ds) = ds := by
  induction ds using List.reverseRecOn with
  | nil => exact absurd rfl h.ne_nil
  | append_singleton ds c ih =>
    have hc : c.isDigit = true := h.digits c (by simp)
    have hlt : c.toNat - 48 < 10 := by
      have hc : 48 ≤ c.toNat ∧ c.toNat ≤ 57 := Char.isDigit_iff_toNat.mp hc
      omega
    have hlast : Nat.toDigits 10 (c.toNat - 48) = [c] := by
      rw [Nat.toDigits_of_lt_base hlt, digitChar_eq_self hc]
    rcases eq_or_ne ds [] with rfl | hne
    · rw [value_concat, show value [] = 0 from rfl, Nat.mul_zero, Nat.zero_add, hlast]
      rfl
    · have hhead : ds.head? ≠ some '0' := by
        intro hzero
        have happend : (ds ++ [c]).head? = some '0' :=
          (List.head?_append_of_ne_nil ds hne).trans hzero
        exact hne (List.append_eq_singleton_iff.mp (h.zero happend) |>.elim (·.1) (by simp))
      have hds : Whole ds :=
        ⟨hne, fun d hd => h.digits d (List.mem_append_left [c] hd), fun hzero => absurd hzero hhead⟩
      have hpos : 0 < value ds := by
        refine Nat.pos_of_ne_zero fun hzero => hhead ?_
        rw [← ih hds, hzero]
        rfl
      calc Nat.toDigits 10 (value (ds ++ [c]))
          = Nat.toDigits 10 (value ds) ++ Nat.toDigits 10 (c.toNat - 48) := by
            rw [value_concat, Nat.toDigits_append_toDigits (by omega) hpos hlt]
        _ = ds ++ [c] := by rw [ih hds, hlast]

theorem toDigits_value_eq_iff : Nat.toDigits 10 (value ds) = ds ↔ Whole ds :=
  ⟨fun h => h ▸ whole_toDigits (value ds), Whole.toDigits_value⟩

/-! ## Written numbers -/

/-- A minus or nothing. -/
def signed (minus : Bool) (cs : List Char) : List Char := if minus then '-' :: cs else cs

/-- A point with digits behind it that do not end in a zero, or nothing. -/
inductive Fraction : List Char → Prop
  /-- Nothing. -/
  | none : Fraction []
  /-- A point and digits. -/
  | digits {ds : List Char} (hne : ds ≠ []) (hds : ∀ c ∈ ds, c.isDigit = true)
      (hlast : ds.getLast? ≠ some '0') : Fraction ('.' :: ds)

/-- The forms in which numbers are written. -/
inductive Written : List Char → Prop
  /-- An infinity, or what is no number. -/
  | word {cs : List Char} (h : cs ∈ ["inf".toList, "-inf".toList, "NaN".toList]) : Written cs
  /-- A sign, a whole number, and what stands behind its point. -/
  | number (minus : Bool) {ds part : List Char} (hds : Whole ds) (hpart : Fraction part) :
      Written (signed minus (ds ++ part))

theorem mem_signed {minus : Bool} (h : c ∈ signed minus cs) : c = '-' ∨ c ∈ cs := by
  cases minus with
  | true => exact List.mem_cons.mp h
  | false => exact .inr h

/-- There is no plus in a written number, and no power of ten. -/
theorem Written.isDigit_or_mem (h : Written cs) (hc : c ∈ cs) :
    c.isDigit = true ∨ c ∈ "-.infNa".toList := by
  cases h with
  | word h =>
    have hwords : ∀ w ∈ ["inf".toList, "-inf".toList, "NaN".toList],
        ∀ c ∈ w, c ∈ "-.infNa".toList := by simp
    exact .inr (hwords cs h c hc)
  | number minus hds hpart =>
    rcases mem_signed hc with rfl | hc
    · exact .inr (by decide)
    rcases List.mem_append.mp hc with hc | hc
    · exact .inl (hds.digits c hc)
    · cases hpart with
      | none => cases hc
      | digits hne hdigits hlast =>
        rcases List.mem_cons.mp hc with rfl | hc
        · exact .inr (by decide)
        · exact .inl (hdigits c hc)

/-- A written number with a point does not end in a zero. -/
theorem Written.getLast?_ne_zero (h : Written cs) (hpoint : '.' ∈ cs) : cs.getLast? ≠ some '0' := by
  cases h with
  | word h =>
    have hwords : ∀ w ∈ ["inf".toList, "-inf".toList, "NaN".toList], w.getLast? ≠ some '0' := by
      decide
    exact hwords cs h
  | number minus hds hpart =>
    cases hpart with
    | none =>
      rw [List.append_nil] at hpoint
      rcases mem_signed hpoint with h | h
      · exact absurd h (by decide)
      · exact absurd (hds.digits _ h) (by decide)
    | @digits part hne hdigits hlast =>
      have hend : ∀ before : List Char, (before ++ '.' :: part).getLast? = part.getLast? := by
        intro before
        rw [List.getLast?_append_of_ne_nil _ (List.cons_ne_nil _ _), ← List.singleton_append,
          List.getLast?_append_of_ne_nil _ hne]
      cases minus with
      | true =>
        rw [signed, if_pos rfl, ← List.cons_append, hend]
        exact hlast
      | false =>
        rw [signed, if_neg Bool.false_ne_true, hend]
        exact hlast

/-- Digits behind a minus or without a sign are written so if no zero is too many. -/
theorem written_signed_iff (minus : Bool) (hds : ∀ c ∈ ds, c.isDigit = true) :
    Written (signed minus ds) ↔ Whole ds := by
  refine ⟨fun h => ?_, fun h => ?_⟩
  · generalize hcs : signed minus ds = cs at h
    cases h with
    | word h =>
      have hwords : ∀ w ∈ ["inf".toList, "-inf".toList, "NaN".toList],
          ∃ c ∈ w, c ≠ '-' ∧ c.isDigit = false := by simp
      obtain ⟨c, hc, hminus, hdigit⟩ := hwords cs h
      rcases mem_signed (hcs ▸ hc) with h | h
      · exact absurd h hminus
      · exact absurd (hds c h) (by simp [hdigit])
    | @number minus' whole part hwhole hpart =>
      have hnominus : ∀ {xs ys : List Char}, (∀ c ∈ xs, c.isDigit = true) → xs ≠ '-' :: ys := by
        rintro xs ys hxs rfl
        exact absurd (hxs '-' List.mem_cons_self) (by decide)
      have heq : ds = whole ++ part := by
        cases minus <;> cases minus'
        · exact hcs
        · exact absurd hcs (hnominus hds)
        · obtain ⟨w, ws, rfl⟩ := List.exists_cons_of_ne_nil hwhole.ne_nil
          have hw : w.isDigit = true := hwhole.digits w List.mem_cons_self
          obtain rfl : '-' = w := (List.cons.inj hcs).1
          exact absurd hw (by decide)
        · exact (List.cons.inj hcs).2
      cases hpart with
      | none => rwa [heq, List.append_nil]
      | digits hne hdigits hlast =>
        have hpoint : Char.isDigit '.' = true := hds '.' (by rw [heq]; simp)
        exact absurd hpoint (by decide)
  · rw [← List.append_nil ds]
    exact .number minus h .none

/-! ## Whole numbers that are read -/

/-- A text without its sign, and what this one is. -/
theorem sign_cases (cs : List Char) :
    (∃ ds, cs = '-' :: ds ∧ sign cs = (true, ds)) ∨
      (∃ ds, cs = '+' :: ds ∧ sign cs = (false, ds)) ∨ sign cs = (false, cs) := by
  cases cs with
  | nil => exact .inr (.inr rfl)
  | cons c ds =>
    by_cases hminus : c = '-'
    · subst hminus
      exact .inl ⟨ds, rfl, rfl⟩
    · by_cases hplus : c = '+'
      · subst hplus
        exact .inr (.inl ⟨ds, rfl, rfl⟩)
      · exact .inr (.inr (by simp [sign, hminus, hplus]))

theorem natural?_eq_some (h : natural? ds = some n) :
    ds ≠ [] ∧ (∀ c ∈ ds, c.isDigit = true) ∧ n = value ds := by
  rw [natural?] at h
  split at h
  · next hds =>
    rw [Bool.and_eq_true, List.all_eq_true] at hds
    exact ⟨fun hnil => by simp [hnil] at hds, hds.2, (Option.some.inj h).symm⟩
  · cases h

/-- A whole number is read from digits, and it is negative if there is a minus. -/
theorem integer?_eq_some {i : Int} (h : integer? s = some i) :
    ∃ minus ds, sign s.toList = (minus, ds) ∧ ds ≠ [] ∧ (∀ c ∈ ds, c.isDigit = true) ∧
      i = if minus then -(value ds : Int) else value ds := by
  rw [integer?] at h
  rcases hsign : sign s.toList with ⟨minus, ds⟩
  simp only [hsign] at h
  obtain ⟨n, hn, h⟩ := Option.bind_eq_some_iff.mp h
  obtain ⟨hne, hds, rfl⟩ := natural?_eq_some hn
  obtain ⟨-, h⟩ := Option.ite_none_right_eq_some.mp h
  exact ⟨minus, ds, rfl, hne, hds, (Option.some.inj h).symm⟩

theorem toList_toString_natCast (n : Nat) : (toString (n : Int)).toList = Nat.toDigits 10 n :=
  Nat.toList_repr

theorem toList_toString_neg (h : 0 < n) :
    (toString (-(n : Int))).toList = '-' :: Nat.toDigits 10 n := by
  obtain ⟨m, rfl⟩ : ∃ m, n = m + 1 := ⟨n - 1, by omega⟩
  have htext : toString (-((m + 1 : Nat) : Int)) = "-" ++ (m + 1).repr := rfl
  rw [htext, String.toList_append, Nat.toList_repr]
  rfl

/-- Zero has no sign; every other number has the digits that it has without its minus. -/
theorem toList_toString_neg_eq_iff :
    (toString (-(value ds : Int))).toList = '-' :: ds ↔ Whole ds ∧ ds ≠ ['0'] := by
  rcases Nat.eq_zero_or_pos (value ds) with hzero | hpos
  · have hdigits : Whole ds → ds = ['0'] := fun hwhole => by
      rw [← hwhole.toDigits_value, hzero, Nat.toDigits_zero]
    have hlist : (toString (-((0 : Nat) : Int))).toList = ['0'] := rfl
    rw [hzero, hlist]
    exact iff_of_false (fun h => absurd (List.cons.inj h).1 (by decide)) fun h => h.2 (hdigits h.1)
  · have hnozero : ds ≠ ['0'] := by
      rintro rfl
      exact absurd hpos (by decide)
    rw [toList_toString_neg hpos, List.cons.injEq, toDigits_value_eq_iff]
    simp [hnozero]

theorem not_written_plus : ¬Written ('+' :: cs) := fun h =>
  absurd (h.isDigit_or_mem List.mem_cons_self) (by decide)

/-- A whole number is written as the text that it is read from if that is written so at all: minus
zero is not. -/
theorem toString_eq_iff {i : Int} (h : integer? s = some i) :
    toString i = s ↔ Written s.toList ∧ s ≠ "-0" := by
  obtain ⟨minus, ds, hsign, hne, hds, rfl⟩ := integer?_eq_some h
  have hminuszero : s = "-0" ↔ s.toList = ['-', '0'] := String.toList_inj.symm
  rw [Ne, hminuszero, ← String.toList_inj]
  rcases sign_cases s.toList with ⟨ds', hs, hs'⟩ | ⟨ds', hs, hs'⟩ | hs'
  · obtain ⟨rfl, rfl⟩ : true = minus ∧ ds' = ds := Prod.mk.inj (hs'.symm.trans hsign)
    have hwritten : Written s.toList ↔ Whole ds' := hs ▸ written_signed_iff true hds
    rw [hwritten, hs, if_pos rfl, toList_toString_neg_eq_iff, List.cons.injEq, eq_self_iff_true,
      true_and]
  · obtain ⟨rfl, rfl⟩ : false = minus ∧ ds' = ds := Prod.mk.inj (hs'.symm.trans hsign)
    rw [if_neg Bool.false_ne_true, toList_toString_natCast, hs]
    refine iff_of_false (fun h => ?_) fun h => not_written_plus h.1
    have hdigit : Char.isDigit '+' = true :=
      (whole_toDigits (value ds')).digits '+' (by rw [h]; exact List.mem_cons_self)
    exact absurd hdigit (by decide)
  · obtain ⟨rfl, rfl⟩ : false = minus ∧ s.toList = ds := Prod.mk.inj (hs'.symm.trans hsign)
    have hwritten : Written s.toList ↔ Whole s.toList := written_signed_iff false hds
    rw [if_neg Bool.false_ne_true, toList_toString_natCast, toDigits_value_eq_iff, hwritten]
    refine (and_iff_left fun hzero => ?_).symm
    exact absurd (hds '-' (by rw [hzero]; exact List.mem_cons_self)) (by decide)

theorem written_toString (i : Int) : Written (toString i).toList := by
  rcases Int.eq_nat_or_neg i with ⟨n, rfl | rfl⟩
  · rw [toList_toString_natCast]
    exact (written_signed_iff false (whole_toDigits n).digits).mpr (whole_toDigits n)
  · rcases Nat.eq_zero_or_pos n with rfl | hpos
    · exact (written_signed_iff false (whole_toDigits 0).digits).mpr (whole_toDigits 0)
    · rw [toList_toString_neg hpos]
      exact (written_signed_iff true (whole_toDigits n).digits).mpr (whole_toDigits n)

/-! ## Doubles -/

/-- The zeros at the end of the digits of a number. -/
def zerosAtEnd (n : Nat) : Nat := ((Nat.toDigits 10 n).reverse.takeWhile (· == '0')).length

theorem zerosAtEnd_of_mod_ne_zero (h : n % 10 ≠ 0) : zerosAtEnd n = 0 := by
  have hdigit : Nat.digitChar (n % 10) ≠ '0' := mt Nat.digitChar_eq_zero.mp h
  have hlast : (Nat.toDigits 10 n).reverse.head? = some (Nat.digitChar (n % 10)) := by
    rw [List.head?_reverse, getLast?_toDigits]
  obtain ⟨cs, hcs⟩ := List.head?_eq_some_iff.mp hlast
  rw [zerosAtEnd, hcs, List.takeWhile_cons_of_neg (by simpa using hdigit), List.length_nil]

theorem zerosAtEnd_of_mod_eq_zero (hpos : 0 < n) (h : n % 10 = 0) :
    zerosAtEnd n = zerosAtEnd (n / 10) + 1 := by
  rw [zerosAtEnd, Nat.toDigits_of_base_le (by omega) (by omega), h, List.reverse_concat,
    List.takeWhile_cons_of_pos (by decide), List.length_cons, zerosAtEnd]

/-- Without the zeros at its end, a number does not end in a zero. -/
theorem div_pow_zerosAtEnd (h : 0 < n) : n / Nat.pow 10 (zerosAtEnd n) % 10 ≠ 0 := by
  induction n using Nat.strongRecOn with
  | _ n ih =>
    by_cases hzero : n % 10 = 0
    · rw [zerosAtEnd_of_mod_eq_zero h hzero, Nat.pow_eq, Nat.pow_succ', ← Nat.div_div_eq_div_mul]
      exact ih (n / 10) (by omega) (by omega)
    · rwa [zerosAtEnd_of_mod_ne_zero hzero, Nat.pow_eq, Nat.pow_zero, Nat.div_one]

theorem trim_cases (d : Digits) : d.trim = ⟨0, 0⟩ ∨ d.trim.digits % 10 ≠ 0 := by
  rw [Digits.trim]
  split
  · exact .inl rfl
  · next h => exact .inr (div_pow_zerosAtEnd (Nat.pos_of_ne_zero h))

theorem isDigit_of_mem_zeros {k : Nat} (hc : c ∈ List.replicate k '0') : c.isDigit = true := by
  rw [List.eq_of_mem_replicate hc]
  decide

/-- Digits that do not end in a zero are a whole number and what stands behind its point, wherever
this is put. -/
theorem place_eq_append (hds : Whole ds) (hlast : ds.getLast? ≠ some '0') (position : Int) :
    ∃ whole part, Whole whole ∧ Fraction part ∧
      (plain.place ds position).toList = whole ++ part := by
  have hhead : ds.head? ≠ some '0' := fun h => by
    rw [hds.zero h] at hlast
    exact hlast rfl
  rw [Layout.place]
  split
  · refine ⟨['0'], '.' :: (List.replicate (-position).toNat '0' ++ ds), whole_toDigits 0,
      .digits (by simp [hds.ne_nil]) (fun c hc => ?_) ?_, ?_⟩
    · exact (List.mem_append.mp hc).elim isDigit_of_mem_zeros (hds.digits c)
    · rwa [List.getLast?_append_of_ne_nil _ hds.ne_nil]
    · rw [String.toList_append, String.toList_ofList, String.toList_ofList]
      rfl
  · next hposition =>
    split
    · refine ⟨ds ++ List.replicate (position.toNat - ds.length) '0', [],
        ⟨by simp [hds.ne_nil], fun c hc => ?_, fun h => ?_⟩, .none, ?_⟩
      · exact (List.mem_append.mp hc).elim (hds.digits c) isDigit_of_mem_zeros
      · rw [List.head?_append_of_ne_nil _ hds.ne_nil] at h
        exact absurd h hhead
      · rw [String.toList_append, String.toList_ofList]
        rfl
    · next hlength =>
      have hdrop : ds.drop position.toNat ≠ [] := by
        rw [Ne, List.drop_eq_nil_iff]
        exact hlength
      refine ⟨ds.take position.toNat, '.' :: ds.drop position.toNat,
        ⟨?_, fun c hc => hds.digits c (List.mem_of_mem_take hc), fun h => ?_⟩,
        .digits hdrop (fun c hc => hds.digits c (List.mem_of_mem_drop hc)) ?_, ?_⟩
      · rw [Ne, List.take_eq_nil_iff, not_or]
        exact ⟨by omega, hds.ne_nil⟩
      · rw [List.head?_take, if_neg (by omega)] at h
        exact absurd h hhead
      · rwa [List.getLast?_drop, if_neg hlength]
      · rw [String.toList_append, String.toList_append, String.toList_ofList, String.toList_ofList,
          String.toList_ofList, List.append_assoc]
        rfl

theorem toList_sign_append (minus : Bool) (s : String) :
    ((if minus then "-" else "") ++ s).toList = signed minus s.toList := by
  cases minus <;> rw [String.toList_append] <;> rfl

/-- Doubles are written in the form of numbers. -/
theorem written_write (bits : UInt64) : Written (plain.write bits).toList := by
  rw [Layout.write]
  split
  · exact .word (by decide)
  · rw [toList_sign_append]
    cases isNegative bits <;> exact .word (by decide)
  · rw [String.append_assoc, toList_sign_append]
    exact (written_signed_iff _ (whole_toDigits 0).digits).mpr (whole_toDigits 0)
  · next m q narrow _ _ =>
    have hpositional : ∀ position, plain.positional position = true := fun _ => rfl
    simp only [hpositional, if_true]
    rw [toList_sign_append]
    -- Digits that are all zero stand before the point.
    rcases trim_cases ((Target.of m q narrow).search (Target.of m q narrow).position 17 1) with
      h | h
    · rw [shortest, h]
      exact (written_signed_iff _ (whole_toDigits 0).digits).mpr (whole_toDigits 0)
    · have hlast : (Nat.toDigits 10 (shortest m q narrow).digits).getLast? ≠ some '0' := by
        rw [getLast?_toDigits]
        exact fun hzero => h (Nat.digitChar_eq_zero.mp (Option.some.inj hzero))
      obtain ⟨whole, part, hwhole, hpart, htext⟩ := place_eq_append (whole_toDigits _) hlast
        ((Nat.toDigits 10 (shortest m q narrow).digits).length + (shortest m q narrow).exponent)
      rw [htext]
      exact .number _ hwhole hpart

end StagedCodegen.Text.Numeral
