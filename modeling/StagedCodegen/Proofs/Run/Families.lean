import Mathlib.Order.Defs.Unbundled
import StagedCodegen.Proofs.Text.Bytes
import StagedCodegen.Run.Fragments

/-!
# Families

How families lie to each other. A key belongs to a family if it goes on after the family's name with
a point, so the families around a key are beginnings of it, and of two beginnings the longer one
goes on after the shorter: families that share a key are nested (`keyInFamily_nested`). Among
required families, therefore, each has at most one next around it (`Encloses`), and they form a
forest.

A program finds the point among bytes. It looks for it only where the bytes go on
(`keyInFamilyBytes?_eq`), and since a text begins with another when its bytes do, it finds the same.

Main statement: `families_form_forest`.
-/

namespace StagedCodegen

open Text (bytes)

variable {key family inner outer a b : String} {families registered ran : List String}

/-! ## The test on bytes -/

/-- The question whether a key belongs to a family, asked of their bytes: they are the same, or
those of the key are more, begin with those of the family and go on with a point. There is no answer
if a byte is looked at that is not there. -/
def keyInFamilyBytes? (key family : List UInt8) : Option Bool :=
  if key = family then some true
  else if family.length < key.length ∧ family <+: key then
    key[family.length]?.map (· == 0x2e)
  else some false

theorem keyInFamily_iff_bytes : keyInFamily key family = true ↔
    bytes key = bytes family ∨ bytes family ++ [0x2e] <+: bytes key := by
  have hpoint : bytes family ++ [0x2e] = bytes (family ++ ".") := by
    rw [Text.bytes_append]
    rfl
  rw [keyInFamily_iff, Text.bytes_inj, hpoint, Text.bytes_isPrefix_iff, String.toList_append]
  refine or_congr_right (exists_congr fun rest => ?_)
  rw [eq_comm, List.append_assoc]
  rfl

/-- The byte that is looked at is there, and the answer is the right one. -/
theorem keyInFamilyBytes?_eq (key family : String) :
    keyInFamilyBytes? (bytes key) (bytes family) = some (keyInFamily key family) := by
  unfold keyInFamilyBytes?
  split
  · next heq => rw [keyInFamily_iff_bytes.mpr (.inl heq)]
  · next hne =>
    split
    · next hlonger =>
      obtain ⟨hlength, rest, hrest⟩ := hlonger
      rcases rest with _ | ⟨byte, rest⟩
      · exact absurd (by simpa using hrest.symm) hne
      · have hbyte : (bytes key)[(bytes family).length]? = some byte := by simp [← hrest]
        have hpoint : (byte == 0x2e) = keyInFamily key family := by
          rw [Bool.eq_iff_iff, keyInFamily_iff_bytes, or_iff_right hne, ← hrest,
            List.prefix_append_right_inj, List.cons_prefix_cons, beq_iff_eq]
          simp [eq_comm]
        rw [hbyte, Option.map_some, hpoint]
    · next hshort =>
      have hnot : ¬keyInFamily key family = true := by
        rw [keyInFamily_iff_bytes, or_iff_right hne]
        intro hbegins
        have hlength := hbegins.length_le
        rw [List.length_append, List.length_singleton] at hlength
        exact hshort ⟨hlength, (List.prefix_append _ _).trans hbegins⟩
      rw [Bool.not_eq_true] at hnot
      rw [hnot]

/-! ## The order of families -/

theorem keyInFamily_refl (key : String) : keyInFamily key key = true :=
  keyInFamily_iff.mpr (.inl rfl)

theorem isPrefix_of_keyInFamily (h : keyInFamily key family = true) :
    family.toList <+: key.toList := by
  rcases keyInFamily_iff.mp h with rfl | ⟨rest, hrest⟩
  · exact List.prefix_rfl
  · exact hrest ▸ List.prefix_append _ _

theorem keyInFamily_antisymm (hab : keyInFamily a b = true) (hba : keyInFamily b a = true) :
    a = b := by
  have hle := (isPrefix_of_keyInFamily hab).length_le
  have hbegins := isPrefix_of_keyInFamily hba
  exact String.toList_inj.mp (hbegins.eq_of_length (le_antisymm hbegins.length_le hle))

/-- Of two names that a key goes on after with a point, what the one has more begins with a
point. -/
theorem keyInFamily_of_more {more r q : List Char} (h : a.toList = b.toList ++ more)
    (hpoint : '.' :: q = more ++ '.' :: r) : keyInFamily a b = true := by
  refine keyInFamily_iff.mpr ?_
  rcases more with _ | ⟨c, more⟩
  · exact .inl (String.toList_inj.mp (by simpa using h))
  · obtain rfl := (List.cons.inj hpoint).1
    exact .inr ⟨more, h⟩

/-- Two families of one key are nested. -/
theorem keyInFamily_nested (ha : keyInFamily key a = true) (hb : keyInFamily key b = true) :
    keyInFamily a b = true ∨ keyInFamily b a = true := by
  rcases keyInFamily_iff.mp ha with rfl | ⟨r, hr⟩
  · exact .inl hb
  rcases keyInFamily_iff.mp hb with rfl | ⟨q, hq⟩
  · exact .inr ha
  rcases List.append_eq_append_iff.mp (hr.symm.trans hq) with
    ⟨more, hmore, hpoint⟩ | ⟨more, hmore, hpoint⟩
  · exact .inr (keyInFamily_of_more hmore hpoint)
  · exact .inl (keyInFamily_of_more hmore hpoint)

theorem isPartialOrder_keyInFamily :
    IsPartialOrder String fun key family => keyInFamily key family = true where
  refl := keyInFamily_refl
  trans _ _ _ := keyInFamily_trans
  antisymm _ _ := keyInFamily_antisymm

/-! ## The forest of families -/

/-- Of the given families, `outer` is the innermost one around `family`. -/
structure Encloses (families : List String) (family outer : String) : Prop where
  /-- It is one of them. -/
  mem : outer ∈ families
  /-- It is another family. -/
  ne : outer ≠ family
  /-- The family lies in it. -/
  around : keyInFamily family outer = true
  /-- Every other of them in which the family lies has it inside as well. -/
  innermost : ∀ other ∈ families, other ≠ family → keyInFamily family other = true →
    keyInFamily outer other = true

theorem Encloses.unique (h : Encloses families family a) (h' : Encloses families family b) :
    a = b :=
  keyInFamily_antisymm (h.innermost b h'.mem h'.ne h'.around) (h'.innermost a h.mem h.ne h.around)

/-- One family more does not matter if it lies around the innermost one. -/
theorem Encloses.cons {first : String} (h : Encloses families family outer)
    (hfirst : first ≠ family → keyInFamily family first = true → keyInFamily outer first = true) :
    Encloses (first :: families) family outer where
  mem := List.mem_cons_of_mem first h.mem
  ne := h.ne
  around := h.around
  innermost other hother hne haround := by
    rcases List.mem_cons.mp hother with rfl | hother
    · exact hfirst hne haround
    · exact h.innermost other hother hne haround

/-- The first family is the innermost one if it lies in all the others. -/
theorem encloses_first {first : String} (hne : first ≠ family)
    (haround : keyInFamily family first = true)
    (h : ∀ other ∈ families, other ≠ family → keyInFamily family other = true →
      keyInFamily first other = true) : Encloses (first :: families) family first where
  mem := List.mem_cons_self
  ne := hne
  around := haround
  innermost other hother hother' haround' := by
    rcases List.mem_cons.mp hother with rfl | hother
    · exact keyInFamily_refl _
    · exact h other hother hother' haround'

/-- A family that lies in some other one has an innermost one around it. -/
theorem exists_encloses (h : ∃ outer ∈ families, outer ≠ family ∧ keyInFamily family outer = true) :
    ∃ outer, Encloses families family outer := by
  induction families with
  | nil => simp at h
  | cons first families ih =>
    by_cases hrest : ∃ outer ∈ families, outer ≠ family ∧ keyInFamily family outer = true
    · obtain ⟨outer, houter⟩ := ih hrest
      by_cases hfirst : first ≠ family ∧ keyInFamily family first = true
      · -- both lie around the family, so one of them lies in the other
        rcases keyInFamily_nested hfirst.2 houter.around with hin | hin
        · exact ⟨first, encloses_first hfirst.1 hfirst.2 fun other hother hne haround =>
            keyInFamily_trans hin (houter.innermost other hother hne haround)⟩
        · exact ⟨outer, houter.cons fun _ _ => hin⟩
      · exact ⟨outer, houter.cons fun hne haround => absurd ⟨hne, haround⟩ hfirst⟩
    · obtain ⟨outer, hmem, hne, haround⟩ := h
      rcases List.mem_cons.mp hmem with rfl | hmem
      · exact ⟨outer, encloses_first hne haround fun other hother hother' haround' =>
          absurd ⟨other, hother, hother', haround'⟩ hrest⟩
      · exact absurd ⟨outer, hmem, hne, haround⟩ hrest

/-! ## Required families -/

/-- Once a member of a family has run, nothing more is required for the sake of it or of a family
around it. -/
theorem idleFamily?_filter (h : ∃ key ∈ ran, keyInFamily key inner = true) :
    idleFamily? registered ran families =
      idleFamily? registered ran (families.filter fun outer => !keyInFamily inner outer) := by
  obtain ⟨key, hran, hkey⟩ := h
  unfold idleFamily?
  induction families with
  | nil => rfl
  | cons outer families ih =>
    by_cases hin : keyInFamily inner outer = true
    · have hmember : ran.any (keyInFamily · outer) = true :=
        List.any_eq_true.mpr ⟨key, hran, keyInFamily_trans hkey hin⟩
      rw [List.filter_cons_of_neg (by simp [hin]), ← ih, List.findSome?_cons]
      simp [hmember]
    · rw [List.filter_cons_of_pos (by simpa using hin), List.findSome?_cons, List.findSome?_cons,
        ih]

/-- **Families form a forest.** The test on bytes always has an answer, and it is whether the key
belongs to the family. To belong to a family is a partial order of keys, and two families of one key
are nested. So each of the required families that lies in another has just one next around it, and
once a member of a family has run, that family and all around it are satisfied: the check says what
it says without them. -/
theorem families_form_forest :
    (∀ key family,
      keyInFamilyBytes? (bytes key) (bytes family) = some (keyInFamily key family)) ∧
    IsPartialOrder String (fun key family => keyInFamily key family = true) ∧
    (∀ key a b, keyInFamily key a = true → keyInFamily key b = true →
      keyInFamily a b = true ∨ keyInFamily b a = true) ∧
    (∀ families family,
      (∃ outer ∈ families, outer ≠ family ∧ keyInFamily family outer = true) →
      ∃! outer, Encloses families family outer) ∧
    ∀ registered ran families inner, (∃ key ∈ ran, keyInFamily key inner = true) →
      idleFamily? registered ran families =
        idleFamily? registered ran (families.filter fun outer => !keyInFamily inner outer) := by
  refine ⟨keyInFamilyBytes?_eq, isPartialOrder_keyInFamily, fun _ _ _ => keyInFamily_nested,
    fun families family h => ?_, fun _ _ _ _ => idleFamily?_filter⟩
  obtain ⟨outer, houter⟩ := exists_encloses h
  exact ⟨outer, houter, fun _ hother => hother.unique houter⟩

end StagedCodegen
