import StagedCodegen.Text.Composition

/-!
# Composing texts piece by piece

A slash is composed with nothing, and no mark is moved past it. So a text with slashes is composed
by composing what lies between them (`composeChars_slash`). Nothing else becomes a point or a slash
either, and none of them is lost (`filter_composeChars`).

What this needs of the tables is read off their lines: all numbers in them come after the signs of
punctuation with the point and the slash, and no character is composed from anything and a character
before the combining marks (`apt`).

Main statements: `composeChars_joinWith`, `composeChars_eq_self`.
-/

namespace StagedCodegen.Text

namespace Composition

/-! ## What the tables hold -/

/-- A bound on the numbers of characters, by which the keys of pairs are told apart. -/
def limit : Nat := 0x200000

/-- A number that stands in a table: it comes after the point and the slash. -/
def InTables (n : Nat) : Prop := 0x30 ≤ n ∧ n < limit

instance (n : Nat) : Decidable (InTables n) := inferInstanceAs (Decidable (_ ∧ _))

/-- The numbers of an entry are those of characters in tables, and it does not compose something
with a character before the combining marks. -/
def apt : List Nat → Bool
  | [c, a, b] => [c, a, b].all (InTables ·) && 0x300 ≤ b
  | e => 2 ≤ e.length && e.all (InTables ·)

theorem apt_chars {l : String} (cs : List Char) (hl : l = String.ofList cs)
    (h : ((split ' ' cs).map fun e => (split '.' e).map (Hex.valueIn 16)).all apt = true) :
    (entries [l]).all apt = true := by
  subst hl
  simpa [entries] using h

set_option maxRecDepth 2000 in
theorem apt_composites : ∀ l ∈ composites, (entries [l]).all apt = true := by
  unfold composites
  repeat refine List.forall_mem_cons.mpr ⟨apt_chars _ rfl (by decide +kernel), ?_⟩
  exact List.forall_mem_nil _

set_option maxRecDepth 2000 in
theorem apt_replaced : ∀ l ∈ replaced, (entries [l]).all apt = true := by
  unfold replaced
  repeat refine List.forall_mem_cons.mpr ⟨apt_chars _ rfl (by decide +kernel), ?_⟩
  exact List.forall_mem_nil _

theorem apt_of_lines {ls : List String} (h : ∀ l ∈ ls, (entries [l]).all apt = true) {e : List Nat}
    (he : e ∈ entries ls) : apt e = true := by
  obtain ⟨l, hl, he⟩ := List.mem_flatMap.mp he
  refine List.all_eq_true.mp (h l hl) e ?_
  simpa [entries] using he

theorem inTables_of_apt {e : List Nat} (h : apt e = true) : 2 ≤ e.length ∧ ∀ n ∈ e, InTables n := by
  unfold apt at h
  split at h <;> rw [Bool.and_eq_true] at h
  · exact ⟨by simp, by simpa using h.1⟩
  · exact ⟨by simpa using h.1, by simpa using h.2⟩

theorem apt_pair {c a b : Nat} (h : apt [c, a, b] = true) :
    InTables c ∧ InTables a ∧ b < limit ∧ 0x300 ≤ b := by
  have hall := (inTables_of_apt h).2
  refine ⟨hall c (by simp), hall a (by simp), (hall b (by simp)).2, ?_⟩
  simp only [apt, Bool.and_eq_true, decide_eq_true_eq] at h
  exact h.2

/-! ## Looking up -/

theorem mem_of_lastUpTo {table : Array (Nat × List Nat)} {k fuel lo hi : Nat} {e : Nat × List Nat}
    (h : lastUpTo table k fuel lo hi = some e) : e ∈ table.toList := by
  fun_induction lastUpTo table k fuel lo hi with
  | case1 | case2 | case4 => cases h
  | case3 =>
    obtain ⟨e', he', h⟩ := Option.bind_eq_some_iff.mp h
    split at h
    · cases h
      exact Array.mem_toList_iff.mpr (Array.mem_of_getElem? he')
    · cases h
  | case5 _ _ _ _ _ _ _ _ _ ih | case6 _ _ _ _ _ _ _ _ _ ih => exact ih h

theorem mem_of_find? {es : List (Nat × List Nat)} {k : Nat} {v : List Nat}
    (h : find? (sorted es) k = some v) : (k, v) ∈ es := by
  obtain ⟨⟨k', v'⟩, hlast, h⟩ := Option.bind_eq_some_iff.mp h
  split at h
  · next hk =>
    cases h
    cases hk
    exact List.mem_mergeSort.mp (mem_of_lastUpTo hlast)
  · cases h

/-- Two characters that are composed to something stand in the table. -/
theorem exists_entry {a b c : Nat} (h : find? pairTable (pairKey a b) = some [c]) :
    ∃ a' b', pairKey a' b' = pairKey a b ∧ apt [c, a', b'] = true := by
  obtain ⟨e, he, hkey⟩ := List.mem_filterMap.mp (mem_of_find? h)
  split at hkey
  · next c' a' b' =>
    obtain ⟨hab, hc⟩ := Prod.mk.inj (Option.some.inj hkey)
    obtain rfl : c' = c := (List.cons.inj hc).1
    exact ⟨a', b', hab, apt_of_lines apt_composites he⟩
  · cases hkey

/-- Two characters that are neither those of a syllable nor in the table are not composed. -/
theorem pair?_eq_none {a b : Nat} (hsyllable : syllable? a b = none)
    (hentry : ∀ c a' b', apt [c, a', b'] = true → pairKey a' b' ≠ pairKey a b) :
    pair? a b = none := by
  rw [pair?, hsyllable]
  -- the search in the table is put aside, or it would be run
  generalize hfind : find? pairTable (pairKey a b) = found
  rcases found with _ | _ | ⟨c, _ | _⟩
  · rfl
  · rfl
  · obtain ⟨a', b', hkey, hapt⟩ := exists_entry hfind
    exact absurd hkey (hentry c a' b' hapt)
  · rfl

/-- Nothing is composed of two characters of which the second comes before the combining marks. -/
theorem pair?_of_lt {a b : Nat} (hb : b < 0x300) : pair? a b = none := by
  refine pair?_eq_none (by rw [syllable?, if_neg (by omega), if_neg (by omega)]) ?_
  intro c a' b' hapt hkey
  have hpair := apt_pair hapt
  simp only [pairKey, InTables, limit] at hkey hpair
  omega

/-- Nothing is composed of a character that comes before those in the tables, and another one. -/
theorem pair?_of_low {a b : Nat} (ha : a < 0x30) (hb : b < limit) : pair? a b = none := by
  refine pair?_eq_none (by rw [syllable?, if_neg (by omega), if_neg (by omega)]) ?_
  intro c a' b' hapt hkey
  have hpair := apt_pair hapt
  simp only [pairKey, InTables, limit] at hkey hpair hb
  omega

theorem le_of_syllable? {a b c : Nat} (h : syllable? a b = some c) : 0x30 ≤ c := by
  unfold syllable? at h
  split at h
  · have hc := Option.some.inj h
    omega
  · split at h
    · have hc := Option.some.inj h
      omega
    · cases h

/-- What two characters are composed to stands in the tables. -/
theorem le_of_pair? {a b c : Nat} (h : pair? a b = some c) : 0x30 ≤ c := by
  rw [pair?] at h
  generalize hsyllable : syllable? a b = syllable at h
  generalize hfind : find? pairTable (pairKey a b) = found at h
  rcases syllable with _ | d
  · rcases found with _ | _ | ⟨d, _ | _⟩ <;> cases h
    obtain ⟨a', b', -, hapt⟩ := exists_entry hfind
    exact (apt_pair hapt).1.1
  · cases h
    exact le_of_syllable? hsyllable

/-! ## Taking apart -/

theorem inTables_of_syllableParts? {c : Nat} {ps : List Nat} (h : syllableParts? c = some ps) :
    ps ≠ [] ∧ ∀ n ∈ ps, InTables n := by
  unfold syllableParts? at h
  split at h
  · cases h
    refine ⟨by simp, fun n hn => ?_⟩
    simp only [List.mem_append, List.mem_cons, List.not_mem_nil, or_false, InTables, limit] at hn ⊢
    split at hn <;> simp at hn <;> omega
  · cases h

theorem inTables_of_partsTable {c : Nat} {ps : List Nat} (h : find? partsTable c = some ps) :
    ps ≠ [] ∧ ∀ n ∈ ps, InTables n := by
  have hentry : ∀ ls, (∀ l ∈ ls, (entries [l]).all apt = true) → (c, ps) ∈ byFirst ls →
      ps ≠ [] ∧ ∀ n ∈ ps, InTables n := by
    intro ls hls hmem
    obtain ⟨e, he, hfirst⟩ := List.mem_filterMap.mp hmem
    split at hfirst
    · cases hfirst
      obtain ⟨hlength, hall⟩ := inTables_of_apt (apt_of_lines hls he)
      refine ⟨?_, fun n hn => hall n (List.mem_cons_of_mem c hn)⟩
      rintro rfl
      simp at hlength
    · cases hfirst
  rcases List.mem_append.mp (mem_of_find? h) with hmem | hmem
  · exact hentry composites apt_composites hmem
  · exact hentry replaced apt_replaced hmem

theorem inTables_of_parts? {c : Nat} {ps : List Nat} (h : parts? c = some ps) :
    ps ≠ [] ∧ ∀ n ∈ ps, InTables n := by
  rw [parts?] at h
  generalize hsyllable : syllableParts? c = syllable at h
  generalize htable : find? partsTable c = found at h
  split at h
  · cases h
  · rcases syllable with _ | ps'
    · simp only at h
      exact inTables_of_partsTable (htable.trans h)
    · cases h
      exact inTables_of_syllableParts? hsyllable

/-- A character is taken apart into itself or into characters of the tables. -/
theorem takeApart_spec (depth c : Nat) : takeApart parts? depth c ≠ [] ∧
    ∀ n ∈ takeApart parts? depth c, n = c ∨ InTables n := by
  induction depth generalizing c with
  | zero => simp [takeApart]
  | succ depth ih =>
    rw [takeApart]
    generalize hparts : parts? c = found
    rcases found with _ | ps
    · simp
    · obtain ⟨hne, hall⟩ := inTables_of_parts? hparts
      obtain ⟨m, hm⟩ := List.exists_mem_of_ne_nil ps hne
      refine ⟨fun hnil => (ih m).1 (List.flatMap_eq_nil_iff.mp hnil m hm), fun n hn => .inr ?_⟩
      obtain ⟨m, hm, hn⟩ := List.mem_flatMap.mp hn
      rcases (ih m).2 n hn with rfl | htables
      · exact hall n hm
      · exact htables

theorem lt_limit_of_takeApart {depth c : Nat} (hc : c < limit) :
    ∀ n ∈ takeApart parts? depth c, n < limit := by
  intro n hn
  rcases (takeApart_spec depth c).2 n hn with rfl | htables
  · exact hc
  · exact htables.2

theorem takeApart_of_lt {depth c : Nat} (hc : c < 0xc0) : takeApart parts? depth c = [c] := by
  have hparts : parts? c = none := if_pos hc
  cases depth with
  | zero => rfl
  | succ depth => rw [takeApart, hparts]

theorem markClass_of_lt {c : Nat} (hc : c < 0x300) : markClass c = 0 := if_pos hc

theorem insertMark_base (c : Nat) (ds : List (Nat × Nat)) :
    insertMark (c, 0) ds = (c, 0) :: ds := by
  cases ds <;> simp [insertMark]

/-- No mark is put before a character that is none. -/
theorem insertMark_append (c : Nat × Nat) (b : Nat) (ds es : List (Nat × Nat)) :
    insertMark c (ds ++ (b, 0) :: es) = insertMark c ds ++ (b, 0) :: es := by
  induction ds with
  | nil => simp [insertMark]
  | cons d ds ih =>
    rw [List.cons_append, insertMark, insertMark, ih]
    split <;> rfl

theorem mem_insertMark {c e : Nat × Nat} {ds : List (Nat × Nat)} :
    e ∈ insertMark c ds ↔ e = c ∨ e ∈ ds := by
  induction ds with
  | nil => simp [insertMark]
  | cons d ds ih =>
    rw [insertMark]
    split
    · rw [List.mem_cons, ih, List.mem_cons, or_left_comm]
    · exact List.mem_cons

/-- Characters in order before marks: what `apart` makes of characters that were taken apart. -/
def inOrder (cs : List (Nat × Nat)) (before : List (Nat × Nat)) : List (Nat × Nat) :=
  cs.foldl (fun acc c => insertMark c acc) before

theorem inOrder_append (cs : List (Nat × Nat)) (b : Nat) (ds es : List (Nat × Nat)) :
    inOrder cs (ds ++ (b, 0) :: es) = inOrder cs ds ++ (b, 0) :: es := by
  induction cs generalizing ds with
  | nil => rfl
  | cons c cs ih =>
    rw [inOrder, List.foldl_cons, insertMark_append]
    exact ih _

theorem mem_inOrder {cs before : List (Nat × Nat)} {e : Nat × Nat} :
    e ∈ inOrder cs before ↔ e ∈ cs ∨ e ∈ before := by
  induction cs generalizing before with
  | nil => simp [inOrder]
  | cons c cs ih =>
    rw [inOrder, List.foldl_cons, ← inOrder, ih, mem_insertMark, List.mem_cons, or_left_comm,
      or_assoc]

/-- Characters taken apart, each with its class. -/
def parts (cs : List Nat) : List (Nat × Nat) :=
  (cs.flatMap (takeApart parts? 8)).map fun c => (c, markClass c)

theorem apart_eq (cs : List Nat) : apart cs = (inOrder (parts cs) []).reverse := rfl

theorem apart_slash (xs ys : List Nat) :
    apart (xs ++ 0x2f :: ys) = apart xs ++ (0x2f, 0) :: apart ys := by
  have hparts : parts (xs ++ 0x2f :: ys) = parts xs ++ (0x2f, 0) :: parts ys := by
    simp [parts, takeApart_of_lt, markClass_of_lt]
  have horder := inOrder_append (parts ys) 0x2f [] (inOrder (parts xs) [])
  rw [apart_eq, apart_eq, apart_eq, hparts, inOrder, List.foldl_append, List.foldl_cons,
    insertMark_base, ← inOrder, ← inOrder]
  rw [List.nil_append] at horder
  rw [horder, List.reverse_append, List.reverse_cons, List.append_assoc, List.singleton_append]

theorem lt_limit_of_apart {cs : List Nat} (h : ∀ c ∈ cs, c < limit) :
    ∀ e ∈ apart cs, e.1 < limit := by
  intro e he
  rw [apart_eq, List.mem_reverse] at he
  rcases mem_inOrder.mp he with he | he
  · obtain ⟨n, hn, rfl⟩ := List.mem_map.mp he
    obtain ⟨c, hc, hn⟩ := List.mem_flatMap.mp hn
    exact lt_limit_of_takeApart (h c hc) n hn
  · exact absurd he List.not_mem_nil

/-! ## Putting together -/

/-- What comes after a slash is put together as if the slash were not there. -/
theorem together_slash {ys : List (Nat × Nat)} (h : ∀ e ∈ ys, e.1 < limit)
    (marks : List (Nat × Nat)) : together (some ⟨0x2f, marks⟩) ys =
      0x2f :: (marks.reverse.map (·.1) ++ together none ys) := by
  induction ys generalizing marks with
  | nil => simp [together, Base.flush]
  | cons e ys ih =>
    obtain ⟨c, k⟩ := e
    have hnone : (if (Base.mk 0x2f marks).isOpen k then pair? 0x2f c else none) = none := by
      split
      · exact pair?_of_low (by decide) (h (c, k) List.mem_cons_self)
      · rfl
    have hys : ∀ e ∈ ys, e.1 < limit := fun e he => h e (List.mem_cons_of_mem _ he)
    rw [together, together, hnone]
    simp only
    split
    · simp [Base.flush]
    · rw [ih hys]
      simp

/-- Nothing is put together across a slash. -/
theorem together_append (b : Option Base) (xs : List (Nat × Nat)) {ys : List (Nat × Nat)}
    (h : ∀ e ∈ ys, e.1 < limit) :
    together b (xs ++ (0x2f, 0) :: ys) = together b xs ++ 0x2f :: together none ys := by
  have hslash := together_slash h []
  fun_induction together b xs with
  | case1 => simpa [together] using hslash
  | case2 b =>
    have hnone : (if b.isOpen 0 then pair? b.base 0x2f else none) = none := by
      split
      · exact pair?_of_lt (by omega)
      · rfl
    rw [List.nil_append, together, hnone]
    simpa using hslash
  | case3 c rest ih => simpa [together] using ih
  | case4 c k rest hk ih => simpa [together, hk] using ih
  | case5 b c k rest d hpair ih => simpa [together, hpair] using ih
  | case6 b c rest hpair ih => simpa [together, hpair] using ih
  | case7 b c k rest hpair hk ih => simpa [together, hpair, hk] using ih

/-- Characters before the marks are put together to themselves. -/
theorem together_of_lt {cs : List Nat} (h : ∀ c ∈ cs, c < 0x300) (b : Nat) :
    together (some ⟨b, []⟩) (cs.map fun c => (c, 0)) = b :: cs := by
  induction cs generalizing b with
  | nil => rfl
  | cons c cs ih =>
    have hnone : (if (Base.mk b []).isOpen 0 then pair? b c else none) = none := by
      split
      · exact pair?_of_lt (h c List.mem_cons_self)
      · rfl
    rw [List.map_cons, together, hnone]
    simp [Base.flush, ih fun c' hc' => h c' (List.mem_cons_of_mem c hc')]

/-! ## Whole texts -/

/-- The characters of a text, composed. -/
def composeChars (cs : List Char) : List Char :=
  (together none (apart (cs.map Char.toNat))).map Char.ofNat

theorem toNat_lt_limit (c : Char) : c.toNat < limit := by
  have hvalid := c.valid
  simp only [UInt32.isValidChar, Nat.isValidChar] at hvalid
  simp only [limit, Char.toNat]
  omega

theorem apart_lt_limit (cs : List Char) : ∀ e ∈ apart (cs.map Char.toNat), e.1 < limit := by
  refine lt_limit_of_apart fun n hn => ?_
  obtain ⟨c, -, rfl⟩ := List.mem_map.mp hn
  exact toNat_lt_limit c

/-- Texts on both sides of a slash are composed on their own. -/
theorem composeChars_slash (xs ys : List Char) :
    composeChars (xs ++ '/' :: ys) = composeChars xs ++ '/' :: composeChars ys := by
  have hslash : ('/' : Char).toNat = 0x2f := rfl
  rw [composeChars, List.map_append, List.map_cons, hslash, apart_slash,
    together_append none _ (apart_lt_limit ys),
    List.map_append, List.map_cons]
  rfl

/-- Characters before the marks stay as they are, in their order. -/
theorem apart_of_lt {cs : List Nat} (h : ∀ c ∈ cs, c < 0xc0) :
    apart cs = cs.map fun c => (c, 0) := by
  have hparts : parts cs = cs.map fun c => (c, 0) := by
    induction cs with
    | nil => rfl
    | cons c cs ih =>
      have hc : c < 0xc0 := h c List.mem_cons_self
      rw [parts, List.flatMap_cons, takeApart_of_lt hc, List.map_append, ← parts,
        ih fun d hd => h d (List.mem_cons_of_mem c hd)]
      simp [markClass_of_lt (c := c) (by omega)]
  have horder : ∀ (cs : List Nat) before, inOrder (cs.map fun c => (c, 0)) before =
      (cs.map fun c => (c, 0)).reverse ++ before := by
    intro cs
    induction cs with
    | nil => exact fun before => rfl
    | cons c cs ih =>
      intro before
      rw [List.map_cons, inOrder, List.foldl_cons, insertMark_base, ← inOrder, ih]
      simp
  rw [apart_eq, hparts, horder, List.append_nil, List.reverse_reverse]

theorem composeChars_of_lt {cs : List Char} (h : ∀ c ∈ cs, c.toNat < 0xc0) :
    composeChars cs = cs := by
  have hchars : (cs.map Char.toNat).map Char.ofNat = cs := by
    rw [List.map_map]
    exact List.map_id'' (fun c => Char.ofNat_toNat c) cs
  have hlow : ∀ n ∈ cs.map Char.toNat, n < 0xc0 := by simpa using h
  have htogether : together none ((cs.map Char.toNat).map fun c => (c, 0)) = cs.map Char.toNat := by
    generalize cs.map Char.toNat = ns at hlow
    cases ns with
    | nil => rfl
    | cons n ns =>
      rw [List.map_cons, together, if_pos rfl, together_of_lt]
      exact fun m hm => Nat.lt_trans (hlow m (List.mem_cons_of_mem n hm)) (by decide)
  rw [composeChars, apart_of_lt hlow, htogether, hchars]

/-- Pieces that are joined are composed each on its own. -/
theorem composeChars_joinWith (ps : List (List Char)) :
    composeChars (joinWith ['/'] ps) = joinWith ['/'] (ps.map composeChars) := by
  induction ps with
  | nil => exact composeChars_of_lt fun c hc => absurd hc List.not_mem_nil
  | cons s ps ih =>
    by_cases hne : ps = []
    · subst hne
      rfl
    · have hmap : ps.map composeChars ≠ [] := by simpa using hne
      rw [joinWith_cons hne, List.singleton_append, composeChars_slash, ih, List.map_cons,
        joinWith_cons hmap, List.singleton_append]

/-! ## Points and slashes -/

/-- A point or a slash. -/
def isPathSign (n : Nat) : Bool := n == 0x2e || n == 0x2f

theorem lt_of_isPathSign {n : Nat} (h : isPathSign n = true) : n < 0x30 := by
  simp only [isPathSign, Bool.or_eq_true, beq_iff_eq] at h
  omega

theorem isPathSign_of_le {n : Nat} (h : 0x30 ≤ n) : isPathSign n = false := by
  rw [← Bool.not_eq_true]
  exact fun hsign => absurd (lt_of_isPathSign hsign) (Nat.not_lt.mpr h)

/-- The points and slashes among characters that have their classes. -/
def pathSigns (es : List (Nat × Nat)) : List Nat := (es.map (·.1)).filter isPathSign

theorem filter_takeApart (depth c : Nat) :
    (takeApart parts? depth c).filter isPathSign = [c].filter isPathSign := by
  by_cases hc : c < 0x30
  · rw [takeApart_of_lt (by omega)]
  · have hnone : ∀ n, (n = c ∨ InTables n) → ¬isPathSign n = true := by
      rintro n (rfl | htables) <;> rw [Bool.not_eq_true]
      · exact isPathSign_of_le (Nat.not_lt.mp hc)
      · exact isPathSign_of_le htables.1
    rw [List.filter_eq_nil_iff.mpr fun n hn => hnone n ((takeApart_spec depth c).2 n hn),
      List.filter_cons_of_neg (hnone c (.inl rfl)), List.filter_nil]

theorem pathSigns_insertMark {c : Nat × Nat} (h : isPathSign c.1 = true → c.2 = 0)
    (ds : List (Nat × Nat)) : pathSigns (insertMark c ds) = pathSigns (c :: ds) := by
  by_cases hc : isPathSign c.1 = true
  · obtain ⟨n, k⟩ := c
    obtain rfl : k = 0 := h hc
    rw [insertMark_base]
  -- a mark goes somewhere among the others, and is none of those that are kept
  · induction ds with
    | nil => rfl
    | cons d ds ih =>
      rw [insertMark]
      split
      · simp only [pathSigns, List.map_cons, List.filter_cons, hc] at ih ⊢
        rw [ih]
        simp
      · rfl

theorem pathSigns_inOrder {cs : List (Nat × Nat)} (h : ∀ e ∈ cs, isPathSign e.1 = true → e.2 = 0)
    (before : List (Nat × Nat)) :
    pathSigns (inOrder cs before) = (pathSigns cs).reverse ++ pathSigns before := by
  induction cs generalizing before with
  | nil => rfl
  | cons c cs ih =>
    rw [inOrder, List.foldl_cons, ← inOrder, ih fun e he => h e (List.mem_cons_of_mem c he),
      pathSigns_insertMark (h c List.mem_cons_self)]
    simp only [pathSigns, List.map_cons, List.filter_cons]
    split <;> simp

/-- Points and slashes are neither taken apart nor moved. -/
theorem pathSigns_apart (cs : List Nat) : pathSigns (apart cs) = cs.filter isPathSign := by
  have hclass : ∀ e ∈ parts cs, isPathSign e.1 = true → e.2 = 0 := by
    intro e he hsign
    obtain ⟨n, -, rfl⟩ := List.mem_map.mp he
    exact markClass_of_lt (Nat.lt_trans (lt_of_isPathSign hsign) (by decide))
  have hparts : pathSigns (parts cs) = cs.filter isPathSign := by
    have hfirst : (parts cs).map (·.1) = cs.flatMap (takeApart parts? 8) := by
      simp [parts, Function.comp_def]
    rw [pathSigns, hfirst]
    clear hclass hfirst
    induction cs with
    | nil => rfl
    | cons c cs ih =>
      rw [List.flatMap_cons, List.filter_append, filter_takeApart, ih, ← List.filter_append,
        List.singleton_append]
  have horder := pathSigns_inOrder hclass []
  rw [hparts] at horder
  rw [apart_eq, pathSigns, List.map_reverse, List.filter_reverse, ← pathSigns, horder]
  simp [pathSigns]

/-- Where something is no point or slash before taking apart, something is none afterwards. -/
theorem exists_apart {cs : List Nat} (h : ∃ n ∈ cs, isPathSign n = false) :
    ∃ n ∈ (apart cs).map (·.1), isPathSign n = false := by
  obtain ⟨n, hn, hsign⟩ := h
  obtain ⟨hne, hall⟩ := takeApart_spec 8 n
  obtain ⟨m, hm⟩ := List.exists_mem_of_ne_nil _ hne
  have hpart : (m, markClass m) ∈ parts cs :=
    List.mem_map_of_mem (List.mem_flatMap.mpr ⟨n, hn, hm⟩)
  refine ⟨m, List.mem_map.mpr ⟨(m, markClass m), ?_, rfl⟩, ?_⟩
  · rw [apart_eq, List.mem_reverse]
    exact mem_inOrder.mpr (.inl hpart)
  · rcases hall m hm with rfl | htables
    · exact hsign
    · exact isPathSign_of_le htables.1

/-- Nothing is composed to or with a point or a slash. -/
theorem isPathSign_of_pair? {a b c : Nat} (h : pair? a b = some c) (hb : b < limit) :
    isPathSign a = false ∧ isPathSign b = false ∧ isPathSign c = false := by
  refine ⟨isPathSign_of_le ?_, isPathSign_of_le ?_, isPathSign_of_le (le_of_pair? h)⟩
  · refine Nat.le_of_not_lt fun ha => ?_
    rw [pair?_of_low ha hb] at h
    cases h
  · refine Nat.le_of_not_lt fun hlow => ?_
    rw [pair?_of_lt (by omega)] at h
    cases h

/-- The characters that wait to be joined, and those after them. -/
def waiting (b : Option Base) (es : List (Nat × Nat)) : List Nat :=
  b.elim [] Base.flush ++ es.map (·.1)

theorem filter_together (b : Option Base) {es : List (Nat × Nat)} (h : ∀ e ∈ es, e.1 < limit) :
    (together b es).filter isPathSign = (waiting b es).filter isPathSign := by
  fun_induction together b es with
  | case1 | case2 => simp [waiting]
  | case3 c rest ih =>
    rw [ih fun e he => h e (List.mem_cons_of_mem _ he)]
    simp [waiting, Base.flush]
  | case4 c k rest hk ih =>
    rw [List.filter_cons, ih fun e he => h e (List.mem_cons_of_mem _ he)]
    simp [waiting, List.filter_cons]
  | case5 b c k rest d hpair ih =>
    obtain ⟨hb, hc, hd⟩ : isPathSign b.base = false ∧ isPathSign c = false ∧
        isPathSign d = false := by
      split at hpair
      · exact isPathSign_of_pair? hpair (h (c, k) List.mem_cons_self)
      · cases hpair
    rw [ih fun e he => h e (List.mem_cons_of_mem _ he)]
    simp [waiting, Base.flush, hb, hc, hd]
  | case6 b c rest hpair ih =>
    rw [List.filter_append, ih fun e he => h e (List.mem_cons_of_mem _ he), ← List.filter_append]
    simp [waiting, Base.flush]
  | case7 b c k rest hpair hk ih =>
    rw [ih fun e he => h e (List.mem_cons_of_mem _ he)]
    simp [waiting, Base.flush]

/-- Where something is no point or slash before composing, something is none afterwards. -/
theorem exists_together (b : Option Base) {es : List (Nat × Nat)}
    (h : ∃ n ∈ waiting b es, isPathSign n = false) :
    ∃ n ∈ together b es, isPathSign n = false := by
  fun_induction together b es with
  | case1 => simp [waiting] at h
  | case2 => simpa [waiting] using h
  | case3 c rest ih => exact ih (by simpa [waiting, Base.flush] using h)
  | case4 c k rest hk ih =>
    obtain ⟨n, hn, hsign⟩ := h
    rcases List.mem_cons.mp hn with rfl | hn
    · exact ⟨n, List.mem_cons_self, hsign⟩
    · obtain ⟨m, hm, hsign⟩ := ih ⟨n, hn, hsign⟩
      exact ⟨m, List.mem_cons_of_mem c hm, hsign⟩
  | case5 b c k rest d hpair ih =>
    refine ih ⟨d, by simp [waiting, Base.flush], isPathSign_of_le ?_⟩
    split at hpair
    · exact le_of_pair? hpair
    · cases hpair
  | case6 b c rest hpair ih =>
    obtain ⟨n, hn, hsign⟩ := h
    rcases List.mem_append.mp hn with hn | hn
    · exact ⟨n, List.mem_append_left _ hn, hsign⟩
    · obtain ⟨m, hm, hsign⟩ := ih ⟨n, by simpa [waiting, Base.flush] using hn, hsign⟩
      exact ⟨m, List.mem_append_right _ hm, hsign⟩
  | case7 b c k rest hpair hk ih =>
    obtain ⟨n, hn, hsign⟩ := h
    exact ih ⟨n, by simpa [waiting, Base.flush, or_assoc] using hn, hsign⟩

theorem isPathSign_ofNat (n : Nat) : isPathSign (Char.ofNat n).toNat = isPathSign n := by
  by_cases hn : n.isValidChar
  · rw [Char.ofNat, dif_pos hn]
    exact congrArg isPathSign (UInt32.toNat_ofNatLT ..)
  -- a number that is no character counts as that of the first one
  · have hle : 0x30 ≤ n := by
      simp only [Nat.isValidChar] at hn
      omega
    rw [Char.ofNat, dif_neg hn, isPathSign_of_le hle]
    rfl

/-- What a text is composed to holds the same points and slashes in the same order. -/
theorem filter_composeChars (cs : List Char) :
    (composeChars cs).filter (isPathSign ·.toNat) = cs.filter (isPathSign ·.toNat) := by
  have hkeep : (fun c : Char => isPathSign c.toNat) ∘ Char.ofNat = isPathSign :=
    funext isPathSign_ofNat
  rw [composeChars, List.filter_map, hkeep, filter_together none (apart_lt_limit cs), waiting,
    Option.elim_none, List.nil_append, ← pathSigns, pathSigns_apart]
  rw [List.filter_map, List.map_map]
  exact List.map_id'' (fun c => Char.ofNat_toNat c) _

/-- A text that is composed to points and slashes only is composed already. -/
theorem composeChars_eq_self {cs : List Char}
    (h : ∀ c ∈ composeChars cs, isPathSign c.toNat = true) : composeChars cs = cs := by
  have hkeep : ∀ c ∈ cs, isPathSign c.toNat = true := by
    intro c hc
    rw [← Bool.not_eq_false]
    intro hother
    obtain ⟨n, hn, hother⟩ :=
      exists_together none (exists_apart ⟨c.toNat, List.mem_map_of_mem hc, hother⟩)
    have hsign := h _ (List.mem_map_of_mem hn)
    rw [isPathSign_ofNat, hother] at hsign
    cases hsign
  have hfilter := filter_composeChars cs
  rwa [List.filter_eq_self.mpr h, List.filter_eq_self.mpr hkeep] at hfilter

/-- How a text is composed, whatever its characters are. -/
theorem compose_eq (s : String) : compose s = String.ofList (composeChars s.toList) := by
  rw [compose]
  split
  · next hlow =>
    rw [composeChars_of_lt, String.ofList_toList]
    simpa using hlow
  · rfl

end Composition

/-- A text is composed just if its characters are. -/
theorem compose_eq_self_iff {s : String} :
    compose s = s ↔ Composition.composeChars s.toList = s.toList := by
  rw [Composition.compose_eq, ← String.toList_inj, String.toList_ofList]

end StagedCodegen.Text
