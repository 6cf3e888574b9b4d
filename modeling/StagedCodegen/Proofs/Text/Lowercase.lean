import StagedCodegen.Text.Lowercase

/-!
# Small letters stay small

No small letter is a capital: the small letters of a run lie beside every run of capitals, or
between the capitals of one that alternates with its small letters (`Text.Lowercase.Run.beside`). So
what is in small letters stays as it is when it is put in small letters once more.

Main statement: `Text.lowercase_lowercase`.
-/

namespace StagedCodegen.Text

namespace Lowercase

/-! ## The table -/

/-- No small letter of the first run is a capital of the second: they lie apart, or they
alternate. -/
def Run.beside (r q : Run) : Bool :=
  (r.small + (r.last - r.first)).blt q.first || q.last.blt r.small ||
    (q.stride.beq 2 && (r.stride.beq 2 || r.first.beq r.last) && ((r.small + q.first) % 2).beq 1)

/-- The small letters of a run are characters. None of them is a capital of ASCII, a capital sigma
or the one capital that becomes two characters; and no capital of the run is a small sigma or the
mark that this one leaves. -/
structure Run.Settled (r : Run) : Prop where
  valid : r.small + (r.last - r.first) < 0xd800 ∨
    0xdfff < r.small ∧ r.small + (r.last - r.first) < 0x110000
  small : 0x5a < r.small
  sigma : r.small + (r.last - r.first) < 0x3a3 ∨ 0x3a3 < r.small
  dotted : r.small + (r.last - r.first) < 0x130 ∨ 0x130 < r.small
  special : ∀ n ∈ [0x307, 0x3c2, 0x3c3], r.last < n ∨ n < r.first

instance (r : Run) : Decidable r.Settled :=
  decidable_of_iff (_ ∧ _ ∧ _ ∧ _ ∧ _)
    ⟨fun ⟨hvalid, hsmall, hsigma, hdotted, hspecial⟩ => ⟨hvalid, hsmall, hsigma, hdotted, hspecial⟩,
      fun h => ⟨h.valid, h.small, h.sigma, h.dotted, h.special⟩⟩

/-- The runs of a line. -/
def lineRuns (l : List Char) : List Run :=
  (split ' ' l).filterMap fun e =>
    match (split '.' e).map (Hex.valueIn 16) with
    | [a, b, k, s] => some ⟨a, b, k, s⟩
    | _ => none

theorem cons_eq_map {l : String} {ls : List String} {cs : List Char} {css : List (List Char)}
    (hl : l = String.ofList cs) (hls : ls = css.map String.ofList) :
    l :: ls = (cs :: css).map String.ofList := by
  rw [hl, hls, List.map_cons]

/-- Each run is settled, and beside all others. -/
def settled (rs : List Run) : Bool := rs.all fun r => decide r.Settled && rs.all r.beside

/-- Lines are taken as lists of characters, which are read faster than texts. -/
theorem settled_of_lines {css : List (List Char)} (hruns : runs = css.map String.ofList)
    (h : settled (css.flatMap lineRuns) = true) : settled table = true := by
  have htable : table = css.flatMap lineRuns := by
    rw [table, hruns, List.flatMap_map]
    simp only [String.toList_ofList]
    rfl
  rwa [htable]

set_option maxRecDepth 2000 in
theorem settled_table : settled table = true := by
  apply settled_of_lines
  case hruns =>
    unfold runs
    dsimp only
    repeat apply cons_eq_map rfl
    exact List.map_nil.symm
  case h => decide +kernel

theorem settled_of_mem {r : Run} (hr : r ∈ table) :
    r.Settled ∧ ∀ q ∈ table, r.beside q = true := by
  have hall := List.all_eq_true.mp settled_table r hr
  rw [Bool.and_eq_true, decide_eq_true_iff, List.all_eq_true] at hall
  exact hall

/-! ## Characters -/

/-- A capital becomes a small letter of its run. -/
theorem Run.small?_eq_some {n m : Nat} {r : Run} (h : r.small? n = some m) :
    r.first ≤ n ∧ n ≤ r.last ∧ (n - r.first) % r.stride = 0 ∧ m = r.small + (n - r.first) := by
  unfold small? at h
  split at h
  · next hn => exact ⟨hn.1, hn.2.1, hn.2.2, (Option.some.inj h).symm⟩
  · cases h

theorem Run.small?_eq_none_of_beside {n m : Nat} {r q : Run} (h : r.beside q = true)
    (hm : r.small? n = some m) : q.small? m = none := by
  obtain ⟨hfirst, hlast, hstride, rfl⟩ := small?_eq_some hm
  refine if_neg ?_
  rintro ⟨hfirst', hlast', hstride'⟩
  simp only [beside, Bool.or_eq_true, Bool.and_eq_true, Nat.blt_eq, Nat.beq_eq] at h
  rcases h with (h | h) | ⟨⟨hq, hr⟩, hodd⟩
  · omega
  · omega
  · rw [hq] at hstride'
    rcases hr with hr | hr
    · rw [hr] at hstride
      omega
    · omega

theorem findSome?_small?_eq_none {n : Nat} (h : ∀ r ∈ table, r.small? n = none) :
    table.findSome? (Run.small? n) = none := List.findSome?_eq_none_iff.mpr h

theorem ofChar_eq_self {c : Char} (hascii : ¬c.toNat < 0x80) (hdotted : c.toNat ≠ 0x130)
    (h : table.findSome? (Run.small? c.toNat) = none) : ofChar c = [c] := by
  unfold ofChar
  simp only
  rw [if_neg hascii, if_neg hdotted, h]

/-- The character stays as it is in small letters. -/
structure Stays (c : Char) : Prop where
  sigma : c.toNat ≠ 0x3a3
  ofChar : ofChar c = [c]

theorem ofChar_of_ascii {c : Char} (h : c.toNat < 0x80) : ofChar c = [c.toLower] := if_pos h

theorem toLower_of_lt {c : Char} (h : 0x5a < c.toNat) : c.toLower = c := by
  refine dif_neg fun hc => ?_
  have hlast : c.toNat ≤ 0x5a := UInt32.le_iff_toNat_le.mp hc.2
  omega

theorem stays_toLower {c : Char} (h : c.toNat < 0x80) : Stays c.toLower := by
  by_cases hc : c.val ≥ 'A'.val ∧ c.val ≤ 'Z'.val
  · have hfirst : 0x41 ≤ c.val.toNat := UInt32.le_iff_toNat_le.mp hc.1
    have hlast : c.val.toNat ≤ 0x5a := UInt32.le_iff_toNat_le.mp hc.2
    have hsmall : c.toLower.toNat = c.val.toNat + 0x20 := by
      have hdistance : ('a'.val - 'A'.val).toNat = 0x20 := rfl
      have hlower : c.toLower.val = c.val + ('a'.val - 'A'.val) := congrArg Char.val (dif_pos hc)
      rw [Char.toNat, hlower, UInt32.toNat_add, hdistance]
      omega
    refine ⟨by omega, ?_⟩
    rw [ofChar_of_ascii (by omega), toLower_of_lt (by omega)]
  · have hself : c.toLower = c := dif_neg hc
    rw [hself]
    refine ⟨by omega, ?_⟩
    rw [ofChar_of_ascii h, hself]

theorem stays_special : ∀ n ∈ [0x307, 0x3c2, 0x3c3], Stays (Char.ofNat n) := by
  intro n hn
  have hnone : table.findSome? (Run.small? n) = none := by
    refine findSome?_small?_eq_none fun r hr => if_neg ?_
    rintro ⟨hfirst, hlast, -⟩
    rcases (settled_of_mem hr).1.special n hn with h | h <;> omega
  have hvalues : n = 0x307 ∨ n = 0x3c2 ∨ n = 0x3c3 := by simpa using hn
  rcases hvalues with rfl | rfl | rfl
  all_goals exact ⟨by decide, ofChar_eq_self (by decide) (by decide) hnone⟩

theorem stays_small {c : Char} {m : Nat} (h : table.findSome? (Run.small? c.toNat) = some m) :
    Stays (Char.ofNat m) := by
  obtain ⟨r, hr, hm⟩ := List.exists_of_findSome?_eq_some h
  obtain ⟨hsettled, hbeside⟩ := settled_of_mem hr
  obtain ⟨hfirst, hlast, -, hmr⟩ := Run.small?_eq_some hm
  have hvalid : m.isValidChar := by
    rcases hsettled.valid with h | h
    · exact .inl (by omega)
    · exact .inr (by omega)
  have htoNat : (Char.ofNat m).toNat = m := by
    rw [Char.ofNat, dif_pos hvalid]
    rfl
  have hsmall := hsettled.small
  have hsigma := hsettled.sigma
  have hdotted := hsettled.dotted
  refine ⟨by omega, ?_⟩
  by_cases hascii : m < 0x80
  · rw [ofChar_of_ascii (by omega), toLower_of_lt (by omega)]
  · refine ofChar_eq_self (by omega) (by omega) ?_
    rw [htoNat]
    exact findSome?_small?_eq_none fun q hq => Run.small?_eq_none_of_beside (hbeside q hq) hm

/-- What a character other than the capital sigma becomes stays as it is. -/
theorem stays_of_mem_ofChar {c d : Char} (hc : c.toNat ≠ 0x3a3) (hd : d ∈ ofChar c) : Stays d := by
  by_cases hascii : c.toNat < 0x80
  · rw [ofChar_of_ascii hascii, List.mem_singleton] at hd
    exact hd ▸ stays_toLower hascii
  · by_cases hdotted : c.toNat = 0x130
    · rw [ofChar] at hd
      rw [if_neg hascii, if_pos hdotted] at hd
      rcases List.mem_cons.mp hd with rfl | hd
      · exact ⟨by decide, by decide⟩
      · rw [List.mem_singleton.mp hd]
        exact stays_special _ (by simp)
    · rcases htable : table.findSome? (Run.small? c.toNat) with _ | m
      · have hself := ofChar_eq_self hascii hdotted htable
        rw [hself, List.mem_singleton] at hd
        exact hd ▸ ⟨hc, hself⟩
      · rw [ofChar] at hd
        rw [if_neg hascii, if_neg hdotted, htable, List.mem_singleton] at hd
        exact hd ▸ stays_small htable

/-! ## Texts -/

theorem stays_of_mem_ofChars {before : Option Char} {cs : List Char} {d : Char}
    (hd : d ∈ ofChars before cs) : Stays d := by
  induction cs generalizing before with
  | nil => exact absurd hd List.not_mem_nil
  | cons c cs ih =>
    rw [ofChars] at hd
    rcases List.mem_append.mp hd with hd | hd
    · split at hd
      · split at hd <;> rw [List.mem_singleton.mp hd]
        · exact stays_special _ (by simp)
        · exact stays_special _ (by simp)
      · next hc => exact stays_of_mem_ofChar hc hd
    · exact ih hd

theorem ofChars_eq_self {cs : List Char} (h : ∀ c ∈ cs, Stays c) (before : Option Char) :
    ofChars before cs = cs := by
  induction cs generalizing before with
  | nil => rfl
  | cons c cs ih =>
    obtain ⟨hc, hcs⟩ := List.forall_mem_cons.mp h
    rw [ofChars, ih hcs, if_neg hc.sigma, hc.ofChar, List.singleton_append]

end Lowercase

/-- What is in small letters stays as it is. -/
@[simp]
theorem lowercase_lowercase (s : String) : lowercase (lowercase s) = lowercase s := by
  rw [lowercase, lowercase, String.toList_ofList,
    Lowercase.ofChars_eq_self fun c hc => Lowercase.stays_of_mem_ofChars hc]

end StagedCodegen.Text
