import Mathlib.Data.List.Lex
import Mathlib.Data.String.Basic

/-!
# Texts by their bytes

Texts are compared character by character, and programs compare them byte by byte. In UTF-8 this is
the same: the bytes of a lesser character do not only come first, they differ from those of the
greater one before either of them ends (`Text.diverge_utf8EncodeChar`), so that whatever follows
does not matter. Nor does a text begin with another by its bytes alone
(`Text.bytes_isPrefix_iff`).

Main statement: `Text.bytes_lt_iff`.
-/

namespace StagedCodegen.Text

/-- The bytes of a text in UTF-8. -/
def bytes (s : String) : List UInt8 := s.toUTF8.data.toList

theorem bytes_eq (s : String) : bytes s = s.toList.flatMap String.utf8EncodeChar := by
  rw [bytes, String.toUTF8_eq_toByteArray, ← String.utf8Encode_toList, List.utf8Encode,
    List.toList_data_toByteArray]

/-- The bytes differ somewhere, and where they do so first, that of the first list is less. -/
def Diverge : List UInt8 → List UInt8 → Prop
  | x :: xs, y :: ys => x < y ∨ x = y ∧ Diverge xs ys
  | _, _ => False

variable {xs ys : List UInt8} {c d : Char} {cs ds : List Char} {s t : String}

/-- What follows does not matter. -/
theorem Diverge.append_lt (h : Diverge xs ys) (us vs : List UInt8) : xs ++ us < ys ++ vs := by
  induction xs generalizing ys with
  | nil => exact h.elim
  | cons x xs ih =>
    rcases ys with _ | ⟨y, ys⟩
    · exact h.elim
    · rcases h with hlt | ⟨rfl, hrest⟩
      · exact .rel hlt
      · exact .cons (ih hrest)

theorem diverge_cons {x y : UInt8} (h : x < y) : Diverge (x :: xs) (y :: ys) := Or.inl h

theorem Diverge.append (h : Diverge xs ys) (us vs : List UInt8) :
    Diverge (xs ++ us) (ys ++ vs) := by
  induction xs generalizing ys with
  | nil => exact h.elim
  | cons x xs ih =>
    rcases ys with _ | ⟨y, ys⟩
    · exact h.elim
    · exact h.imp_right fun hrest => ⟨hrest.1, ih hrest.2⟩

theorem Diverge.append_left (h : Diverge xs ys) (us : List UInt8) :
    Diverge (us ++ xs) (us ++ ys) := by
  induction us with
  | nil => exact h
  | cons u us ih => exact Or.inr ⟨rfl, ih⟩

/-! ## Characters -/

theorem ofNat_lt {m n : Nat} (hlt : m < n) (hn : n < 256) : UInt8.ofNat m < UInt8.ofNat n := by
  rw [UInt8.lt_iff_toNat_lt, UInt8.toNat_ofNat', UInt8.toNat_ofNat']
  omega

/-- Numbers that are written in one byte. -/
theorem diverge_byte (size base : Nat) (hbase : size + base ≤ 256) (v w : Nat) (hlt : v < w)
    (hw : w < size) :
    Diverge [UInt8.ofNat (v % size + base)] [UInt8.ofNat (w % size + base)] := by
  rw [Nat.mod_eq_of_lt hw, Nat.mod_eq_of_lt (hlt.trans hw)]
  exact diverge_cons (ofNat_lt (by omega) (by omega))

/-- Numbers that are written with one digit to the base 64 more. -/
theorem diverge_digit {f : Nat → List UInt8} {size : Nat}
    (h : ∀ v w, v < w → w < size → Diverge (f v) (f w)) (v w : Nat) (hlt : v < w)
    (hw : w < 64 * size) : Diverge (f (v / 64) ++ [UInt8.ofNat (v % 64 + 0x80)])
      (f (w / 64) ++ [UInt8.ofNat (w % 64 + 0x80)]) := by
  rcases (Nat.div_le_div_right hlt.le : v / 64 ≤ w / 64).lt_or_eq with hfirst | hsame
  · exact (h _ _ hfirst (by omega)).append _ _
  · rw [hsame]
    exact (diverge_cons (ofNat_lt (by omega) (by omega))).append_left _

/-- A character with more bytes begins with a greater one. If there are as many, the bytes hold the
digits of the code point to the base 64. -/
theorem diverge_utf8EncodeChar (h : c < d) :
    Diverge (String.utf8EncodeChar c) (String.utf8EncodeChar d) := by
  have hlt : c.val.toNat < d.val.toNat := h
  have hd : d.val.toNat < 0x110000 := by
    have hvalid := d.valid
    simp only [UInt32.isValidChar, Nat.isValidChar] at hvalid
    omega
  have hdigits : ∀ n : Nat, n / 4096 = n / 64 / 64 ∧ n / 262144 = n / 64 / 64 / 64 := fun n =>
    ⟨by rw [Nat.div_div_eq_div_mul], by rw [Nat.div_div_eq_div_mul, Nat.div_div_eq_div_mul]⟩
  have hlead : ∀ {m n : Nat} {xs ys : List UInt8}, m < n → n < 256 →
      Diverge (UInt8.ofNat m :: xs) (UInt8.ofNat n :: ys) :=
    fun hlt hn => diverge_cons (ofNat_lt hlt hn)
  have htwo := diverge_digit (diverge_byte 32 0xc0 (by decide))
  have hthree := diverge_digit (diverge_digit (diverge_byte 16 0xe0 (by decide)))
  have hfour := diverge_digit (diverge_digit (diverge_digit (diverge_byte 8 0xf0 (by decide))))
  unfold String.utf8EncodeChar
  generalize c.val.toNat = v at *
  generalize d.val.toNat = w at *
  simp only [hdigits]
  -- the second character has no fewer bytes than the first
  by_cases hv₁ : v ≤ 0x7f
  · rw [if_pos hv₁]
    split_ifs <;> exact hlead (by omega) (by omega)
  rw [if_neg hv₁, if_neg (show ¬w ≤ 0x7f by omega)]
  by_cases hv₂ : v ≤ 0x7ff
  · rw [if_pos hv₂]
    split_ifs
    · exact htwo v w hlt (by omega)
    · exact hlead (by omega) (by omega)
    · exact hlead (by omega) (by omega)
  rw [if_neg hv₂, if_neg (show ¬w ≤ 0x7ff by omega)]
  by_cases hv₃ : v ≤ 0xffff
  · rw [if_pos hv₃]
    split_ifs
    · exact hthree v w hlt (by omega)
    · exact hlead (by omega) (by omega)
  rw [if_neg hv₃, if_neg (show ¬w ≤ 0xffff by omega)]
  exact hfour v w hlt (by omega)

/-- Lists of characters are in the order of their bytes. -/
theorem flatMap_utf8EncodeChar_lt (h : cs < ds) :
    cs.flatMap String.utf8EncodeChar < ds.flatMap String.utf8EncodeChar := by
  induction h with
  | @nil d ds =>
    obtain ⟨y, ys, hd⟩ := List.exists_cons_of_ne_nil (String.utf8EncodeChar_ne_nil (c := d))
    rw [List.flatMap_cons, hd]
    exact .nil
  | @rel c cs d ds hlt =>
    rw [List.flatMap_cons, List.flatMap_cons]
    exact (diverge_utf8EncodeChar hlt).append_lt _ _
  | @cons c cs ds _ ih =>
    rw [List.flatMap_cons, List.flatMap_cons]
    exact List.append_left_lt ih

/-- Texts are in the order of their bytes. -/
theorem bytes_lt_iff : bytes s < bytes t ↔ s < t := by
  have hmono : ∀ {s t : String}, s < t → bytes s < bytes t := fun h => by
    rw [bytes_eq, bytes_eq]
    exact flatMap_utf8EncodeChar_lt (String.lt_iff.mp h)
  refine ⟨fun h => ?_, hmono⟩
  rcases lt_trichotomy s t with hlt | rfl | hgt
  · exact hlt
  · exact absurd h (List.lt_irrefl _)
  · exact absurd h (List.lt_asymm (hmono hgt))

/-! ## Beginnings -/

theorem bytes_append (s t : String) : bytes (s ++ t) = bytes s ++ bytes t := by
  rw [bytes_eq, bytes_eq, bytes_eq, String.toList_append, List.flatMap_append]

/-- A text begins with another if its bytes do: they cannot end within a character. -/
theorem bytes_isPrefix_iff : bytes s <+: bytes t ↔ s.toList <+: t.toList := by
  constructor
  · rintro ⟨rest, hrest⟩
    refine List.isPrefix_of_utf8Encode_append_eq_utf8Encode ⟨rest.toArray⟩ ?_
    rw [String.utf8Encode_toList, String.utf8Encode_toList]
    refine ByteArray.ext (Array.toList_inj.mp ?_)
    rw [ByteArray.data_append, Array.toList_append]
    exact hrest
  · rintro ⟨cs, hcs⟩
    rw [bytes_eq, bytes_eq, ← hcs, List.flatMap_append]
    exact List.prefix_append _ _

/-- Different texts have different bytes. -/
theorem bytes_inj : bytes s = bytes t ↔ s = t := by
  refine ⟨fun h => ?_, congrArg bytes⟩
  have hst : s.toList <+: t.toList := bytes_isPrefix_iff.mp (h ▸ List.prefix_rfl)
  have hts : t.toList <+: s.toList := bytes_isPrefix_iff.mp (h ▸ List.prefix_rfl)
  exact String.toList_inj.mp (hst.eq_of_length (le_antisymm hst.length_le hts.length_le))

end StagedCodegen.Text
