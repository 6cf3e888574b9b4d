import StagedCodegen.Proofs.Disk.Walk

/-!
# What operations change

An operation on the path of a place changes what stands at that place and nothing else, as long as
the way down to it is clear: whatever exists on it is no link (`Disk.Clear`). A directory tree stays
one (`Disk.IsTree`). Making directories adds directories on the way and nothing else
(`Disk.grows_of_makeDirsFrom`).
-/

namespace StagedCodegen

namespace Disk

variable {d d' : Disk} {P Q X : Place} {s : String} {followLast : Bool} {r : Located}

/-! ## Trees -/

theorem mem_of_lookup {n : Node} (h : d.lookup P = some n) (hne : P ≠ []) :
    (P, n) ∈ d.entries := by
  rcases P with _ | ⟨s, P⟩
  · exact absurd rfl hne
  · obtain ⟨before, after, hentries, -⟩ := List.lookup_eq_some_iff.mp h
    simp [hentries]

/-- Everything but the root stands in a directory. -/
def IsTree (d : Disk) : Prop :=
  ∀ P s n, d.lookup (P ++ [s]) = some n → d.lookup P = some .dir

theorem isTree_of_entries (h : ∀ e ∈ d.entries, d.lookup e.1.dropLast = some .dir) :
    d.IsTree := by
  intro P s n hlookup
  have hdir := h (P ++ [s], n) (mem_of_lookup hlookup (List.concat_ne_nil s P))
  rwa [List.dropLast_concat] at hdir

theorem IsTree.reaches {n : Node} (h : d.IsTree) (hP : d.lookup P = some n) : d.Reaches P := by
  induction P using List.reverseRecOn generalizing n with
  | nil => exact fun Q hQ hne => absurd (List.prefix_nil.mp hQ) hne
  | append_singleton P s ih =>
    have hdir := h P s n hP
    exact ((ih hdir).opens hdir).reaches_concat s

/-- A tree in which something is put into a directory is a tree, unless a directory had to give
way. -/
theorem IsTree.set (h : d.IsTree) (hX : d.lookup X = some .dir) (n : Node)
    (hdir : d.lookup (X ++ [s]) ≠ some .dir) : (d.set (X ++ [s]) n).IsTree := by
  have hne : X ++ [s] ≠ [] := List.concat_ne_nil s X
  intro P t m hP
  rw [lookup_set d hne] at hP ⊢
  have hlookup : d.lookup P = some .dir := by
    split at hP
    · next heq => rw [List.append_inj_left' heq rfl, hX]
    · exact h P t m hP
  rw [if_neg, hlookup]
  rintro rfl
  exact hdir hlookup

/-- A tree from which something other than a directory is taken is a tree. -/
theorem IsTree.erase (h : d.IsTree) (hne : P ≠ []) (hdir : d.lookup P ≠ some .dir) :
    (d.erase P).IsTree := by
  intro Q t m hQ
  rw [lookup_erase d hne] at hQ ⊢
  split at hQ
  · cases hQ
  · have hlookup := h Q t m hQ
    rw [if_neg, hlookup]
    rintro rfl
    exact hdir hlookup

/-! ## The way to a place -/

/-- Whatever exists on the way down to a directory is no link. -/
def Clear (d : Disk) (X : Place) : Prop :=
  ∀ Q, Q <+: X → d.exists_ (Place.path Q) = true → ∀ t, d.lookup Q ≠ some (.link t)

/-- There is no link on the way down to a directory. -/
def Straight (d : Disk) (X : Place) : Prop := ∀ Q, Q <+: X → ∀ t, d.lookup Q ≠ some (.link t)

theorem straight_of_entries (h : ∀ e ∈ d.entries, e.1 <+: X → ∀ t, e.2 ≠ .link t) :
    d.Straight X := by
  intro Q hQ t hlink
  by_cases hne : Q = []
  · subst hne
    cases hlink
  · exact h (Q, .link t) (mem_of_lookup hlink hne) hQ t rfl

theorem Straight.clear (h : d.Straight X) : d.Clear X := fun Q hQ _ => h Q hQ

theorem Opens.straight (h : d.Opens X) : d.Straight X := by
  intro Q hQ t hlink
  rw [h Q hQ] at hlink
  cases hlink

theorem Straight.of_isPrefix (h : d.Straight X) (hP : P <+: X) : d.Straight P :=
  fun Q hQ => h Q (hQ.trans hP)

theorem Straight.set {n : Node} (h : d.Straight X) (hne : P ≠ []) (hn : ∀ t, n ≠ .link t) :
    (d.set P n).Straight X := by
  intro Q hQ t hlink
  rw [lookup_set d hne] at hlink
  split at hlink
  · exact hn t (Option.some.inj hlink)
  · exact h Q hQ t hlink

theorem Clear.of_isPrefix (h : d.Clear X) (hP : P <+: X) : d.Clear P :=
  fun Q hQ => h Q (hQ.trans hP)

theorem exists_of_locate {R : Place} {n : Node} {p : Path}
    (h : d.locate true p = .ok (.found R n)) : d.exists_ p = true := by
  rw [exists_, node?, h]
  rfl

/-- On a clear way the path of a place leads to this place. -/
theorem place_of_locate (hclear : d.Clear X) (hnamed : (X ++ [s]).Named)
    (h : d.locate followLast (Place.path (X ++ [s])) = .ok r)
    (hlast : followLast = true → ∀ t, d.lookup (X ++ [s]) ≠ some (.link t)) :
    r.place = X ++ [s] ∧ d.Opens X := by
  have hplace : r.place = X ++ [s] := by
    refine (walks_of_locate hnamed h).place_eq ?_
    intro ms hms hne hall t
    rw [List.nil_append]
    rcases List.prefix_concat_iff.mp hms with rfl | hX
    · exact hlast (hall rfl) t
    · have hms' : ms ≠ X ++ [s] := by
        rintro rfl
        exact not_concat_isPrefix hX
      obtain ⟨R, hR⟩ := exists_of_isPrefix hnamed h hms hms'
      exact hclear ms hX (exists_of_locate hR) t
  refine ⟨hplace, ?_⟩
  cases real_of_locate hnamed h with
  | found named reaches lookup last =>
    intro Q hQ
    rw [Located.place] at hplace
    refine reaches Q ?_ ?_ <;> rw [hplace]
    · exact hQ.trans (List.prefix_append X [s])
    · rintro rfl
      exact not_concat_isPrefix hQ
  | vacant named opens lookup =>
    rw [Located.place] at hplace
    rwa [List.append_inj_left' hplace rfl] at opens

theorem found_of_locate {n : Node} (hclear : d.Clear X) (hnamed : (X ++ [s]).Named)
    (h : d.locate followLast (Place.path (X ++ [s])) = .ok (.found P n))
    (hlast : followLast = true → ∀ t, d.lookup (X ++ [s]) ≠ some (.link t)) :
    P = X ++ [s] ∧ d.lookup (X ++ [s]) = some n ∧ d.Opens X := by
  obtain ⟨hplace, hopens⟩ := place_of_locate hclear hnamed h hlast
  obtain rfl : P = X ++ [s] := hplace
  cases real_of_locate hnamed h with
  | found named reaches lookup last => exact ⟨rfl, lookup, hopens⟩

theorem vacant_of_locate {t : String} (hclear : d.Clear X) (hnamed : (X ++ [s]).Named)
    (h : d.locate followLast (Place.path (X ++ [s])) = .ok (.vacant P t))
    (hlast : followLast = true → ∀ t, d.lookup (X ++ [s]) ≠ some (.link t)) :
    P = X ∧ t = s ∧ d.lookup (X ++ [s]) = none ∧ d.Opens X := by
  obtain ⟨hplace, hopens⟩ := place_of_locate hclear hnamed h hlast
  obtain ⟨rfl, rfl⟩ : P = X ∧ t = s := by simpa [Located.place] using hplace
  cases real_of_locate hnamed h with
  | vacant named opens lookup => exact ⟨rfl, rfl, lookup, hopens⟩

/-! ## Single operations -/

/-- A directory is made at a place where nothing was. -/
theorem makeDir_eq_ok (hclear : d.Clear X) (hnamed : (X ++ [s]).Named)
    (h : d.makeDir (Place.path (X ++ [s])) = .ok d') :
    d' = d.set (X ++ [s]) .dir ∧ d.Opens X ∧ d.lookup (X ++ [s]) = none := by
  rw [makeDir, Place.withoutEndSlashes_path hnamed] at h
  split at h
  · cases h
  · next P t hlocate =>
    obtain ⟨rfl, rfl, hlookup, hopens⟩ := vacant_of_locate hclear hnamed hlocate nofun
    exact ⟨(Except.ok.inj h).symm, hopens, hlookup⟩
  · cases h

/-- The root directory is there already. -/
theorem makeDir_root (d : Disk) : d.makeDir (Place.path []) = .error (.of .alreadyExists) := by
  rw [makeDir, Place.withoutEndSlashes_path Place.named_nil, locate_root]

/-- Something other than a directory is taken away from its place. -/
theorem unlink_eq_ok (hclear : d.Clear X) (hnamed : (X ++ [s]).Named)
    (h : d.unlink (Place.path (X ++ [s])) = .ok d') :
    d' = d.erase (X ++ [s]) ∧ d.lookup (X ++ [s]) ≠ some .dir := by
  rw [unlink] at h
  split at h
  · cases h
  · next P n hdir hlocate =>
    obtain ⟨rfl, hlookup, -⟩ := found_of_locate hclear hnamed hlocate nofun
    refine ⟨(Except.ok.inj h).symm, ?_⟩
    rw [hlookup]
    exact fun heq => hdir (Option.some.inj heq)
  · cases h
  · cases h

/-- What stands at one place, other than a directory, comes to another, where there was no
directory. -/
theorem rename_eq_ok {t : String} (hclear : d.Clear X) (hs : (X ++ [s]).Named)
    (ht : (X ++ [t]).Named)
    (h : d.rename (Place.path (X ++ [s])) (Place.path (X ++ [t])) = .ok d') :
    ∃ n, d' = (d.erase (X ++ [s])).set (X ++ [t]) n ∧ d.Opens X ∧
      d.lookup (X ++ [s]) = some n ∧ n ≠ .dir ∧ d.lookup (X ++ [t]) ≠ some .dir := by
  rw [rename] at h
  split at h
  · cases h
  · cases h
  · cases h
  · cases h
  · cases h
  · next P n Q m hn hm hsource htarget =>
    obtain ⟨rfl, hlookup, hopens⟩ := found_of_locate hclear hs hsource nofun
    obtain ⟨rfl, hlookup', -⟩ := found_of_locate hclear ht htarget nofun
    refine ⟨n, (Except.ok.inj h).symm, hopens, hlookup, hn, ?_⟩
    rw [hlookup']
    exact fun heq => hm (Option.some.inj heq)
  · next P n Q u hn hsource htarget =>
    obtain ⟨rfl, hlookup, hopens⟩ := found_of_locate hclear hs hsource nofun
    obtain ⟨rfl, rfl, hlookup', -⟩ := vacant_of_locate hclear ht htarget nofun
    exact ⟨n, (Except.ok.inj h).symm, hopens, hlookup, hn, by simp [hlookup']⟩

/-! ## Making directories -/

/-- Nothing changes but that directories are added on the way down to a place. -/
def Grows (d d' : Disk) (P : Place) : Prop :=
  ∀ Q, d'.lookup Q = d.lookup Q ∨ (d.lookup Q = none ∧ d'.lookup Q = some .dir ∧ Q <+: P)

theorem Grows.refl (d : Disk) (P : Place) : d.Grows d P := fun _ => .inl rfl

theorem Grows.trans {d'' : Disk} (h : d.Grows d' P) (h' : d'.Grows d'' Q) (hPQ : P <+: Q) :
    d.Grows d'' Q := by
  intro R
  rcases h R with hR | ⟨hnone, hdir, hR⟩ <;> rcases h' R with hR' | ⟨hnone', hdir', hR'⟩
  · exact .inl (hR'.trans hR)
  · exact .inr ⟨hR.symm.trans hnone', hdir', hR'⟩
  · exact .inr ⟨hnone, hR'.trans hdir, hR.trans hPQ⟩
  · exact .inr ⟨hnone, hdir', hR'⟩

theorem Grows.straight (h : d.Grows d' P) (hX : d.Straight X) : d'.Straight X := by
  intro Q hQ t hlink
  rcases h Q with hQ' | ⟨-, hdir, -⟩
  · exact hX Q hQ t (hQ'.symm.trans hlink)
  · rw [hdir] at hlink
    cases hlink

theorem grows_of_set_dir (hlookup : d.lookup (X ++ [s]) = none) :
    d.Grows (d.set (X ++ [s]) .dir) (X ++ [s]) := by
  intro Q
  rw [lookup_set d (List.concat_ne_nil s X)]
  split
  · next heq => exact .inr ⟨by rw [heq, hlookup], rfl, heq ▸ List.prefix_refl Q⟩
  · exact .inl rfl

/-- What can become of the tree when directories are made: it stays as it is, or one directory is
made, perhaps after those above it. -/
theorem makeDirsFrom_cases (fuel : Nat) (d : Disk) (p : Path) :
    (makeDirsFrom fuel d p).2 = d ∨ d.makeDir p = .ok (makeDirsFrom fuel d p).2 ∨
      ∃ fuel' parent, fuel = fuel' + 1 ∧ p.parent? = some parent ∧
        ((makeDirsFrom fuel d p).2 = (makeDirsFrom fuel' d parent).2 ∨
          (makeDirsFrom fuel' d parent).2.makeDir p = .ok (makeDirsFrom fuel d p).2) := by
  rcases hresult : makeDirsFrom fuel d p with ⟨r, d'⟩
  unfold makeDirsFrom at hresult
  split at hresult
  · cases hresult
    exact .inl rfl
  · split at hresult
    · next d'' hmake =>
      cases hresult
      exact .inr (.inl hmake)
    · split at hresult
      · split at hresult
        · next fuel' parent hparent =>
          refine .inr (.inr ⟨fuel', parent, rfl, hparent, ?_⟩)
          rcases hparents : makeDirsFrom fuel' d parent with ⟨e | ⟨⟩, d''⟩ <;>
            simp only [hparents] at hresult
          · cases hresult
            exact .inl rfl
          · split at hresult
            · next d''' hmake =>
              cases hresult
              exact .inr hmake
            · split at hresult <;> cases hresult <;> exact .inl rfl
        · cases hresult
          exact .inl rfl
      · split at hresult <;> cases hresult <;> exact .inl rfl

theorem grows_of_makeDir (htree : d.IsTree) (hX : d.Straight X) (hnamed : X.Named)
    (h : d.makeDir X.path = .ok d') : d.Grows d' X ∧ d'.IsTree := by
  rcases List.eq_nil_or_concat' X with rfl | ⟨Y, s, rfl⟩
  · rw [makeDir_root] at h
    cases h
  · have hY : d.Straight Y := hX.of_isPrefix (List.prefix_append Y [s])
    obtain ⟨rfl, hopens, hlookup⟩ := makeDir_eq_ok hY.clear hnamed h
    exact ⟨grows_of_set_dir hlookup, htree.set hopens.lookup .dir (by simp [hlookup])⟩

/-- On a way without links, directories are made on the way and nothing else. -/
theorem grows_of_makeDirsFrom (fuel : Nat) (htree : d.IsTree) (hX : d.Straight X)
    (hnamed : X.Named) : d.Grows (makeDirsFrom fuel d X.path).2 X ∧
      (makeDirsFrom fuel d X.path).2.IsTree := by
  induction fuel using Nat.strongRecOn generalizing X with
  | ind fuel ih =>
    rcases makeDirsFrom_cases fuel d X.path with hsame | hmake | ⟨fuel', parent, rfl, hparent, hd⟩
    · rw [hsame]
      exact ⟨.refl d X, htree⟩
    · exact grows_of_makeDir htree hX hnamed hmake
    · rcases List.eq_nil_or_concat' X with rfl | ⟨Y, s, rfl⟩
      · cases hparent
      · -- the directories above are made first, and then this one in what has become of the tree
        have habove : Y <+: Y ++ [s] := List.prefix_append Y [s]
        obtain rfl := Option.some.inj ((Place.parent?_path hnamed).symm.trans hparent)
        obtain ⟨hgrows, htree'⟩ := ih fuel' fuel'.lt_succ_self (hX.of_isPrefix habove)
          (hnamed.of_isPrefix habove)
        rcases hd with hsame | hmake
        · rw [hsame]
          exact ⟨hgrows.trans (.refl _ _) habove, htree'⟩
        · obtain ⟨hgrows', htree''⟩ := grows_of_makeDir htree' (hgrows.straight hX) hnamed hmake
          exact ⟨hgrows.trans hgrows' habove, htree''⟩

/-- Where no single directory can be made, nothing changes. -/
theorem makeDirsFrom_of_blocked (fuel : Nat) (hnamed : X.Named)
    (h : ∀ Q, Q <+: X → ∀ d', d.makeDir (Place.path Q) ≠ .ok d') :
    (makeDirsFrom fuel d X.path).2 = d := by
  induction fuel using Nat.strongRecOn generalizing X with
  | ind fuel ih =>
    rcases makeDirsFrom_cases fuel d X.path with hsame | hmake | ⟨fuel', parent, rfl, hparent, hd⟩
    · exact hsame
    · exact absurd hmake (h X (List.prefix_refl X) _)
    · rcases List.eq_nil_or_concat' X with rfl | ⟨Y, s, rfl⟩
      · cases hparent
      · have habove : Y <+: Y ++ [s] := List.prefix_append Y [s]
        obtain rfl := Option.some.inj ((Place.parent?_path hnamed).symm.trans hparent)
        have hsame := ih fuel' fuel'.lt_succ_self (hnamed.of_isPrefix habove)
          fun Q hQ => h Q (hQ.trans habove)
        rw [hsame] at hd
        exact hd.resolve_right (h _ (List.prefix_refl _) _)

/-- Where all directories are there, none is made. -/
theorem makeDirsFrom_of_opens (fuel : Nat) (hnamed : X.Named) (hopens : d.Opens X) :
    (makeDirsFrom fuel d X.path).2 = d := by
  refine makeDirsFrom_of_blocked fuel hnamed fun Q hQ d' hmake => ?_
  rcases List.eq_nil_or_concat' Q with rfl | ⟨Y, s, rfl⟩
  · rw [makeDir_root] at hmake
    cases hmake
  · have hY : d.Clear Y := (hopens.of_isPrefix ((List.prefix_append Y [s]).trans hQ)).straight.clear
    obtain ⟨-, -, hnone⟩ := makeDir_eq_ok hY (hnamed.of_isPrefix hQ) hmake
    rw [hopens _ hQ] at hnone
    cases hnone

/-- Behind a link that leads nowhere no directory can be made, nor before it. -/
theorem makeDir_ne_ok_of_link {t : Path} (htree : d.IsTree) (hclear : d.Clear X)
    (hnamed : X.Named) (hP : P <+: X) (hlink : d.lookup P = some (.link t)) (hQ : Q <+: X) :
    d.makeDir Q.path ≠ .ok d' := by
  intro hmake
  rcases List.eq_nil_or_concat' Q with rfl | ⟨Y, s, rfl⟩
  · rw [makeDir_root] at hmake
    cases hmake
  · -- the directory would be new, and above it would be directories only
    have hY : Y <+: X := (List.prefix_append Y [s]).trans hQ
    obtain ⟨-, hopens, hnone⟩ := makeDir_eq_ok (hclear.of_isPrefix hY) (hnamed.of_isPrefix hQ) hmake
    rcases List.prefix_or_prefix_of_prefix hP hQ with hPQ | hQP
    · rcases List.prefix_concat_iff.mp hPQ with rfl | hPY
      · rw [hnone] at hlink
        cases hlink
      · rw [hopens P hPY] at hlink
        cases hlink
    · by_cases heq : Y ++ [s] = P
      · rw [← heq, hnone] at hlink
        cases hlink
      · rw [htree.reaches hlink _ hQP heq] at hnone
        cases hnone

end Disk

end StagedCodegen
