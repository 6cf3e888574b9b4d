import StagedCodegen.Proofs.Writes.Steady

/-!
# Writes that fail

Before a file is replaced, directories are made above it, and these stay whatever happens. Then its
neighbour is written. If that goes well, the neighbour can be put in place of the file as well: only
a directory would be in the way, and it was seen when the file was read, unless it was made since;
but the directory of the file, if it was made, is empty (`Disk.empty_of_makeDirsFrom`). So nothing
that fails comes after the first change to a file.

Main statement: through whatever links it goes, a write that fails has added directories and done
nothing else (`World.adds_of_writeFile`).
-/

namespace StagedCodegen

namespace Disk

variable {d d' d'' : Disk} {P X : Place} {s : String} {c : ByteArray} {f : Failure}

/-! ## Added directories -/

/-- Nothing changes but that directories are added. -/
def Adds (d d' : Disk) : Prop :=
  ∀ Q, d'.lookup Q = d.lookup Q ∨ (d.lookup Q = none ∧ d'.lookup Q = some .dir)

theorem Adds.refl (d : Disk) : d.Adds d := fun _ => .inl rfl

theorem Adds.trans (h : d.Adds d') (h' : d'.Adds d'') : d.Adds d'' := by
  intro Q
  rcases h Q with hQ | ⟨hnone, hdir⟩ <;> rcases h' Q with hQ' | ⟨hnone', hdir'⟩
  · exact .inl (hQ'.trans hQ)
  · exact .inr ⟨hQ.symm.trans hnone', hdir'⟩
  · exact .inr ⟨hnone, hQ'.trans hdir⟩
  · exact .inr ⟨hnone, hdir'⟩

theorem Grows.adds (h : d.Grows d' P) : d.Adds d' :=
  fun Q => (h Q).imp_right fun ⟨hnone, hdir, _⟩ => ⟨hnone, hdir⟩

/-- Below what is missing, everything is. -/
theorem IsTree.lookup_concat (h : d.IsTree) (hP : d.lookup P = none) (s : String) :
    d.lookup (P ++ [s]) = none := by
  rw [Option.eq_none_iff_forall_ne_some]
  intro n hn
  cases hP.symm.trans (h P s n hn)

/-! ## Making directories through links -/

/-- A directory is made in the one that the names before the last lead to. -/
theorem exists_of_makeDir (hX : X.Named) (h : d.makeDir X.path = .ok d') :
    ∃ Y s F, X = Y ++ [s] ∧ d' = d.set (F ++ [s]) .dir ∧ d.Stands Y F .dir ∧
      d.lookup (F ++ [s]) = none := by
  rcases List.eq_nil_or_concat' X with rfl | ⟨Y, s, rfl⟩
  · rw [makeDir_root] at h
    cases h
  · rw [makeDir, Place.withoutEndSlashes_path hX] at h
    split at h
    · cases h
    · next F t hlocate =>
      have hwalks := walks_of_locate hX hlocate
      rw [List.map_append] at hwalks
      obtain ⟨G, hops, -, hY, hlast⟩ := hwalks.append (by simp) (opens_nil d)
      cases hlast with
      | vacant short there => exact ⟨Y, s, _, rfl, (Except.ok.inj h).symm, ⟨40, hY⟩, there⟩
      | enter short there on => cases on
      | follow short there inner on => cases inner rfl
    · cases h

theorem adds_of_makeDir (htree : d.IsTree) (hX : X.Named) (h : d.makeDir X.path = .ok d') :
    d.Adds d' ∧ d'.IsTree := by
  obtain ⟨Y, s, F, rfl, rfl, hY, hnone⟩ := exists_of_makeDir hX h
  have hF : d.lookup F = some .dir := hY.lookup (hX.of_isPrefix (List.prefix_append Y [s]))
  exact ⟨(grows_of_set_dir hnone).adds, htree.set hF .dir (by simp [hnone])⟩

/-- Whatever links are on the way, directories are made and nothing else. -/
theorem adds_of_makeDirsFrom (fuel : Nat) (htree : d.IsTree) (hX : X.Named) :
    d.Adds (makeDirsFrom fuel d X.path).2 ∧ (makeDirsFrom fuel d X.path).2.IsTree := by
  induction fuel using Nat.strongRecOn generalizing X with
  | ind fuel ih =>
    rcases makeDirsFrom_cases fuel d X.path with hsame | hmake | ⟨fuel', parent, rfl, hparent, hd⟩
    · rw [hsame]
      exact ⟨.refl d, htree⟩
    · exact adds_of_makeDir htree hX hmake
    · rcases List.eq_nil_or_concat' X with rfl | ⟨Y, s, rfl⟩
      · cases hparent
      · obtain rfl := Option.some.inj ((Place.parent?_path hX).symm.trans hparent)
        obtain ⟨hadds, htree'⟩ := ih fuel' fuel'.lt_succ_self
          (hX.of_isPrefix (List.prefix_append Y [s]))
        rcases hd with hsame | hmake
        · rw [hsame]
          exact ⟨hadds, htree'⟩
        · obtain ⟨hadds', htree''⟩ := adds_of_makeDir htree' hX hmake
          exact ⟨hadds.trans hadds', htree''⟩

/-- What a place leads to, if it is a directory, has nothing in it. -/
def Empty (d : Disk) (X : Place) : Prop :=
  ∀ F, d.Stands X F .dir → ∀ s, d.lookup (F ++ [s]) = none

/-- A directory that was made is empty. -/
theorem empty_of_makeDir (htree : d.IsTree) (hX : X.Named) (h : d.makeDir X.path = .ok d') :
    d'.Empty X := by
  obtain ⟨Y, s, F, rfl, rfl, hY, hnone⟩ := exists_of_makeDir hX h
  have hne : F ++ [s] ≠ [] := List.concat_ne_nil s F
  have hYnamed : Y.Named := hX.of_isPrefix (List.prefix_append Y [s])
  -- the names before the last lead to the same directory as before
  have hsteady : d.Steady (d.set (F ++ [s]) .dir) := by
    refine ⟨rfl, fun P hP => ?_, fun P t => ?_⟩ <;> rw [lookup_set d hne]
    · split
      · rfl
      · exact hP
    · split
      · next heq => simp [heq, hnone]
      · rfl
  intro G hG t
  obtain ⟨F', hops, hF', hlast⟩ := hG.split (List.cons_ne_nil s [])
  obtain ⟨rfl, -⟩ := (hY.steady hYnamed hsteady).unique hF'
  have hG : G = F ++ [s] := hlast.place_eq fun ms hms hne' _ u hlink => by
    obtain rfl : ms = [s] := (List.prefix_cons_iff.mp hms).elim (absurd · hne')
      fun ⟨_, heq, hnil⟩ => by rw [heq, List.prefix_nil.mp hnil]
    rw [lookup_set d hne, if_pos rfl] at hlink
    cases hlink
  rw [hG, lookup_set d hne, if_neg (by simp)]
  exact htree.lookup_concat hnone t

/-- Nothing stands below what is missing. -/
theorem Empty.concat (h : d.Empty X) (s : String) : d.Empty (X ++ [s]) := by
  intro F hF
  obtain ⟨G, hops, hG, hlast⟩ := hF.split (List.cons_ne_nil s [])
  have hnone := h G hG s
  cases hlast with
  | enter short there on => cases hnone.symm.trans there
  | follow short there inner on => cases hnone.symm.trans there

/-- Directories that are made are there already, or the last one is made, perhaps after those above
it, or it is found once these are made. -/
theorem makeDirsFrom_ok_cases {fuel : Nat} {p : Path} (h : makeDirsFrom fuel d p = (.ok (), d')) :
    d' = d ∨ d.makeDir p = .ok d' ∨ ∃ fuel' parent d₁, fuel = fuel' + 1 ∧
      p.parent? = some parent ∧ makeDirsFrom fuel' d parent = (.ok (), d₁) ∧
      (d' = d₁ ∨ d₁.makeDir p = .ok d') := by
  unfold makeDirsFrom at h
  split at h
  · cases h
    exact .inl rfl
  · split at h
    · next hmake =>
      cases h
      exact .inr (.inl hmake)
    · split at h
      · split at h
        · next fuel' parent hparent =>
          refine .inr (.inr ⟨fuel', parent, ?_⟩)
          rcases hparents : makeDirsFrom fuel' d parent with ⟨e | ⟨⟩, d₁⟩ <;>
            simp only [hparents] at h
          · cases h
          · refine ⟨d₁, rfl, hparent, rfl, ?_⟩
            split at h
            · next hmake =>
              cases h
              exact .inr hmake
            · split at h <;> cases h
              exact .inl rfl
        · cases h
      · split at h <;> cases h
        exact .inl rfl

/-- Directories are there already, or the last of them is empty. -/
theorem empty_of_makeDirsFrom (fuel : Nat) (htree : d.IsTree) (hX : X.Named)
    (h : makeDirsFrom fuel d X.path = (.ok (), d')) : d' = d ∨ d'.Empty X := by
  induction fuel using Nat.strongRecOn generalizing X d' with
  | ind fuel ih =>
    rcases makeDirsFrom_ok_cases h with hsame | hmake | ⟨fuel', parent, d₁, rfl, hparent, hd₁, hd⟩
    · exact .inl hsame
    · exact .inr (empty_of_makeDir htree hX hmake)
    · rcases List.eq_nil_or_concat' X with rfl | ⟨Y, s, rfl⟩
      · cases hparent
      · obtain rfl := Option.some.inj ((Place.parent?_path hX).symm.trans hparent)
        have hY : Place.Named Y := hX.of_isPrefix (List.prefix_append Y [s])
        have htree₁ : d₁.IsTree := by
          have hparents := (adds_of_makeDirsFrom fuel' htree hY).2
          rwa [hd₁] at hparents
        rcases hd with rfl | hmake
        · exact (ih fuel' fuel'.lt_succ_self hY hd₁).imp_right fun hempty => hempty.concat s
        · exact .inr (empty_of_makeDir htree₁ hX hmake)

/-! ## Replacing through links -/

theorem makeDirs_of_makeRoomFor (hnamed : (X ++ [s]).Named)
    (h : d.makeRoomFor (Place.path (X ++ [s])) = (.ok (), d')) :
    d.makeDirs X.path = (.ok (), d') := by
  rw [makeRoomFor, Place.parent?_path hnamed] at h
  simp only at h
  split at h <;> cases h
  assumption

/-- A file is written where the path leads: to a name in a directory that is that of a file or of
nothing. -/
theorem exists_of_write (hP : P.Named) (h : d.write P.path c = .ok d') :
    ∃ r Y u, d.locate true P.path = .ok r ∧ r.place = Y ++ [u] ∧ d' = d.set (Y ++ [u]) (.file c) ∧
      d.lookup Y = some .dir ∧ d.lookup (Y ++ [u]) ≠ some .dir ∧
      ∀ t, d.lookup (Y ++ [u]) ≠ some (.link t) := by
  obtain ⟨r, hlocate, hdir⟩ := locate_of_write h
  have hreal := real_of_locate hP hlocate
  obtain rfl : d' = d.set r.place (.file c) :=
    Except.ok.inj (h.symm.trans (write_of_locate hreal hlocate hdir))
  obtain ⟨Y, u, hYu, hY, hnotdir⟩ := hreal.parent hdir
  rw [hYu] at hnotdir ⊢
  refine ⟨r, Y, u, hlocate, hYu, rfl, hY, hnotdir, fun t hlink => ?_⟩
  rw [← hYu] at hlink
  cases hreal with
  | found named reaches lookup last => exact last rfl t (Option.some.inj (lookup.symm.trans hlink))
  | vacant named opens lookup => cases lookup.symm.trans hlink

/-- Writing a file changes no directory and no link. -/
theorem steady_of_write (hP : P.Named) (h : d.write P.path c = .ok d') : d.Steady d' := by
  obtain ⟨-, Y, u, -, -, rfl, -, hnotdir, hnotlink⟩ := exists_of_write hP h
  refine ⟨rfl, fun Q hQ => ?_, fun Q t => ?_⟩ <;> rw [lookup_set d (List.concat_ne_nil u Y)]
  · rw [if_neg, hQ]
    rintro rfl
    exact hnotdir hQ
  · split
    · next heq => simp [heq, hnotlink t]
    · rfl

theorem isTree_of_write (htree : d.IsTree) (hP : P.Named) (h : d.write P.path c = .ok d') :
    d'.IsTree := by
  obtain ⟨-, Y, u, -, -, rfl, hY, hnotdir, -⟩ := exists_of_write hP h
  exact htree.set hY _ hnotdir

section Concat

variable {F : Place} {followLast : Bool} {r : Located} (hnamed : (X ++ [s]).Named)
  (husable : Usable (Place.path (X ++ [s])))
  (hX : d.Walks true 40 [] (X.map .name) (.found F .dir))

include hnamed husable hX

/-- Under one more name is found what this name leads to where the others lead to. -/
theorem locate_of_last (hlast : d.Walks followLast 0 F [.name s] r) :
    d.locate followLast (Place.path (X ++ [s])) = .ok r := by
  refine locate_of_walks hnamed husable ?_
  rw [List.map_append]
  exact hX.trans hlast (List.cons_ne_nil _ [])

theorem locate_concat (hshort : s.utf8ByteSize ≤ 255) :
    d.locate false (Place.path (X ++ [s])) = .ok (match d.lookup (F ++ [s]) with
      | none => .vacant F s
      | some n => .found (F ++ [s]) n) := by
  refine locate_of_last hnamed husable hX ?_
  rcases hlookup : d.lookup (F ++ [s]) with _ | (_ | c | t)
  · exact .vacant hshort hlookup
  · exact .enter hshort hlookup (.stay hlookup)
  · exact .file hshort hlookup
  · exact .link hshort hlookup rfl

/-- A directory cannot be read. -/
theorem refuses_of_dir (hdir : d.lookup (F ++ [s]) = some .dir) (hshort : s.utf8ByteSize ≤ 255) :
    d.Refuses (Place.path (X ++ [s])) := by
  refine ⟨.of .isADirectory, ?_, by decide⟩
  rw [read, locate_of_last hnamed husable hX (.enter hshort hdir (.stay hdir))]

end Concat

/-- What is no directory can be moved to where none is. -/
theorem exists_rename {p q : Path} {A : Place} {n : Node} {r : Located}
    (hp : d.locate false p = .ok (.found A n)) (hn : n ≠ .dir) (hq : d.locate false q = .ok r)
    (hr : ∀ B, r ≠ .found B .dir) : ∃ d', d.rename p q = .ok d' := by
  rw [rename, hp, hq]
  rcases n with _ | c | t
  · exact absurd rfl hn
  all_goals
    rcases r with ⟨B, _ | c | t⟩ | ⟨B, u⟩
    · exact absurd rfl (hr B)
    all_goals exact ⟨_, rfl⟩

/-- A tree in which something other than a directory is moved to where none is is a tree. -/
theorem IsTree.move {A Y : Place} {u : String} {n : Node} (h : d.IsTree)
    (hA : d.lookup A = some n) (hn : n ≠ .dir) (hY : d.lookup Y = some .dir)
    (hYu : d.lookup (Y ++ [u]) ≠ some .dir) : ((d.erase A).set (Y ++ [u]) n).IsTree := by
  have hAdir : d.lookup A ≠ some .dir := fun hdir => hn (Option.some.inj (hA.symm.trans hdir))
  have hne : A ≠ [] := by
    rintro rfl
    exact hAdir rfl
  refine (h.erase hne hAdir).set ?_ n ?_ <;> rw [lookup_erase d hne]
  · rwa [if_neg]
    rintro rfl
    exact hAdir hY
  · split
    · nofun
    · exact hYu

theorem isTree_of_rename {Q : Place} (htree : d.IsTree) (hP : P.Named) (hQ : Q.Named)
    (h : d.rename P.path Q.path = .ok d') : d'.IsTree := by
  rw [rename] at h
  split at h
  · cases h
  · cases h
  · cases h
  · cases h
  · cases h
  · next A n B m hn hm hsource htarget =>
    obtain rfl := Except.ok.inj h
    cases real_of_locate hP hsource with
    | found named reaches lookup last =>
      cases real_of_locate hQ htarget with
      | found named' reaches' lookup' last' =>
        obtain ⟨Y, u, rfl⟩ : ∃ (Y : Place) (u : String), B = Y ++ [u] := by
          refine (List.eq_nil_or_concat' B).resolve_left ?_
          rintro rfl
          exact hm (Option.some.inj lookup').symm
        refine htree.move lookup hn (reaches'.opens_of_concat).lookup ?_
        rw [lookup']
        exact fun hdir => hm (Option.some.inj hdir)
  · next A n B u hn hsource htarget =>
    obtain rfl := Except.ok.inj h
    cases real_of_locate hP hsource with
    | found named reaches lookup last =>
      cases real_of_locate hQ htarget with
      | vacant named' opens' lookup' =>
        exact htree.move lookup hn opens'.lookup (by simp [lookup'])

/-- What was written is found where it was written, unless this is behind a link, which is found
then. -/
theorem exists_neighbour_of_write {F : Place} {t : String}
    (hnamed : (X ++ [t]).Named) (hX : d.Stands X F .dir)
    (h : d.write (Place.path (X ++ [t])) c = .ok d') :
    ∃ n, d'.lookup (F ++ [t]) = some n ∧ n ≠ .dir := by
  have hsteady := steady_of_write hnamed h
  obtain ⟨r, Y, u, hlocate, hplace, rfl, -, hnotdir, -⟩ := exists_of_write hnamed h
  have hwalks := walks_of_locate hnamed hlocate
  rw [List.map_append] at hwalks
  obtain ⟨G, hops, -, hG, hlast⟩ := hwalks.append (List.cons_ne_nil _ []) (opens_nil d)
  obtain ⟨rfl, -⟩ := hX.unique ⟨40, hG⟩
  have hwritten : (d.set (Y ++ [u]) (.file c)).lookup r.place = some (.file c) := by
    rw [hplace, lookup_set d (List.concat_ne_nil u Y), if_pos rfl]
  cases hlast with
  | vacant short there | file short there => exact ⟨.file c, hwritten, Node.noConfusion⟩
  | enter short there on =>
    cases on
    exact absurd (hplace ▸ there) hnotdir
  | link short there last => cases last
  | follow short there inner on => exact ⟨_, (hsteady.link _ _).mpr there, Node.noConfusion⟩

/-- Once the neighbour is written it takes the place of the file, unless a directory is there. -/
theorem exists_rename_of_write (hnamed : (X ++ [s]).Named)
    (husable : Usable (Place.path (X ++ [s])))
    (hdir : ∀ F, d.Walks true 40 [] (X.map .name) (.found F .dir) → s.utf8ByteSize ≤ 255 →
      d.lookup (F ++ [s]) ≠ some .dir)
    (h : d.write (Place.path (X ++ [temporaryName s])) c = .ok d') :
    ∃ d'', d'.rename (Place.path (X ++ [temporaryName s])) (Place.path (X ++ [s])) = .ok d'' := by
  have hneighbour := named_neighbour hnamed
  have hsteady := steady_of_write hneighbour h
  obtain ⟨r, Y, u, hlocate, -, hset, -⟩ := exists_of_write hneighbour h
  have hwalks := walks_of_locate hneighbour hlocate
  rw [List.map_append] at hwalks
  obtain ⟨F, hops, hopens, hX, hlast⟩ := hwalks.append (List.cons_ne_nil _ []) (opens_nil d)
  have hshort : (temporaryName s).utf8ByteSize ≤ 255 := hlast.short (by simp)
  have hshort' : s.utf8ByteSize ≤ 255 := by
    rw [temporaryName, String.utf8ByteSize_append] at hshort
    omega
  -- the names before the last lead to the same directory as before
  have hX' := hX.steady hsteady (hsteady.dir F hopens.lookup) fun t => Node.noConfusion
  obtain ⟨n, hn, hnd⟩ := exists_neighbour_of_write hneighbour ⟨40, hX⟩ h
  have hsource := locate_concat hneighbour (usable_of_locate hlocate) hX' hshort
  rw [hn] at hsource
  refine exists_rename hsource hnd (locate_concat hnamed husable hX' hshort') fun B hB => ?_
  split at hB
  · cases hB
  · next m hm =>
    cases hB
    rw [hset, lookup_set d (List.concat_ne_nil u Y)] at hm
    split at hm
    · cases hm
    · exact hdir F hX hshort' hm

/-- A path at which something may be written is one that the operating system takes. -/
theorem usable_of_not_refuses (h : ¬d.Refuses P.path) : Usable P.path := by
  have hne : P.path.text.isEmpty = false := by
    rw [← Bool.not_eq_true, String.isEmpty_iff, ← String.toList_inj, Place.toList_path]
    simp
  have hread : ∀ e, d.locate true P.path = .error e → d.read P.path = .error e := by
    intro e he
    rw [read, he]
  rw [Refuses, not_exists] at h
  by_cases hnul : '\x00' ∈ P.path.text.toList
  · exact absurd ⟨hread _ (by simp [locate, hne, hnul]), by decide⟩ (h (.of .badName))
  · by_cases hlong : 4095 < P.path.text.utf8ByteSize
    · exact absurd ⟨hread _ (by simp [locate, hne, hnul, hlong]), by decide⟩ (h (.of .nameTooLong))
    · exact ⟨hne, hnul, Nat.not_lt.mp hlong⟩

/-- Whatever links are on the way, a tree in which a file was replaced is a tree. -/
theorem isTree_of_replace (htree : d.IsTree) (hnamed : (X ++ [s]).Named)
    (h : d.replace (Place.path (X ++ [s])) c = (.ok (), d')) : d'.IsTree := by
  obtain ⟨d₁, d₂, hroom, hwrite, hrename⟩ := exists_steps_of_replace h
  rw [temporaryPath_path hnamed] at hwrite hrename
  have hneighbour := named_neighbour hnamed
  have htree₁ : d₁.IsTree := by
    have hmade := (adds_of_makeDirsFrom X.path.components.length htree
      (hnamed.of_isPrefix (List.prefix_append X [s]))).2
    rwa [← makeDirs, ← makeRoomFor_snd hnamed, hroom] at hmade
  exact isTree_of_rename (isTree_of_write htree₁ hneighbour hwrite) hneighbour hnamed hrename

/-- Where a file or nothing was found, there is no directory once room is made. -/
theorem lookup_ne_dir_of_makeDirs {d₁ : Disk} {F : Place} (htree : d.IsTree)
    (hnamed : (X ++ [s]).Named) (hread : ¬d.Refuses (Place.path (X ++ [s])))
    (hmake : d.makeDirs X.path = (.ok (), d₁)) (hshort : s.utf8ByteSize ≤ 255)
    (hF : d₁.Walks true 40 [] (X.map .name) (.found F .dir)) :
    d₁.lookup (F ++ [s]) ≠ some .dir := by
  intro hdir
  rcases empty_of_makeDirsFrom _ htree (hnamed.of_isPrefix (List.prefix_append X [s])) hmake with
    rfl | hempty
  · exact hread (refuses_of_dir hnamed (usable_of_not_refuses hread) hF hdir hshort)
  · cases (hempty F ⟨40, hF⟩ s).symm.trans hdir

/-- Where a file cannot be replaced, though it or nothing was found, only directories are added. -/
theorem adds_of_replace (htree : d.IsTree) (hnamed : (X ++ [s]).Named)
    (hread : ¬d.Refuses (Place.path (X ++ [s])))
    (h : d.replace (Place.path (X ++ [s])) c = (.error f, d')) : d.Adds d' := by
  have hX : Place.Named X := hnamed.of_isPrefix (List.prefix_append X [s])
  have hmade := (adds_of_makeDirsFrom X.path.components.length htree hX).1
  rw [← makeDirs, ← makeRoomFor_snd hnamed] at hmade
  cases replacing_of_eq h with
  | crowded room | unwritten room => rwa [room] at hmade
  | written room write conclusion =>
    rw [temporaryPath_path hnamed] at write
    -- the neighbour was written, so it could be put in place of the file
    have hmake := makeDirs_of_makeRoomFor hnamed room
    obtain ⟨d₃, hrename⟩ := exists_rename_of_write hnamed (usable_of_not_refuses hread)
      (fun F hF hshort => lookup_ne_dir_of_makeDirs htree hnamed hread hmake hshort hF) write
    rw [← temporaryPath_path hnamed] at hrename
    cases conclusion with
    | withdrawn rename | left rename => cases hrename.symm.trans rename

theorem exists_io_of_makeRoomFor {p : Path} (h : d.makeRoomFor p = (.error f, d')) :
    ∃ q e, f = .io q e := by
  rw [makeRoomFor] at h
  split at h
  · cases h
  · split at h <;> cases h
    exact ⟨_, _, rfl⟩

/-- What a file cannot be replaced for is a file operation. -/
theorem exists_io_of_replace {p : Path} (h : d.replace p c = (.error f, d')) :
    ∃ q e, f = .io q e := by
  cases replacing_of_eq h with
  | crowded room => exact exists_io_of_makeRoomFor room
  | unwritten => exact ⟨_, _, rfl⟩
  | written _ _ conclusion =>
    cases conclusion with
    | withdrawn | left => exact ⟨_, _, rfl⟩

end Disk

/-! ## Writes through links -/

namespace World

variable {κ : Type} {dryRun : Bool} {w w' : World κ} {P : Place} {c : ByteArray} {f : Failure}
  {r : WriteRecord}

/-- What a write fails for is a file operation. -/
theorem exists_io_of_writeFile {p : Path} (h : writeFile dryRun p c w = (.error f, w')) :
    ∃ q e, f = .io q e := by
  cases writing_of_eq h with
  | @refused _ e => exact ⟨p, e, rfl⟩
  | failed _ replace => exact Disk.exists_io_of_replace replace

theorem isTree_of_writeFile (htree : w.disk.IsTree) (hP : P.Named) (hne : P ≠ [])
    (h : writeFile dryRun P.path c w = (.ok r, w')) : w'.disk.IsTree := by
  obtain ⟨X, s, rfl⟩ : ∃ (X : Place) (s : String), P = X ++ [s] :=
    (List.eq_nil_or_concat' P).resolve_left hne
  cases writing_of_eq h with
  | unchanged | skipped => exact htree
  | written _ replace => exact Disk.isTree_of_replace htree hP replace

/-- A write that fails has added directories and done nothing else, whatever links are on the
way. -/
theorem adds_of_writeFile (htree : w.disk.IsTree) (hP : P.Named) (hne : P ≠ [])
    (h : writeFile dryRun P.path c w = (.error f, w')) :
    w' = { w with disk := w'.disk } ∧ w.disk.Adds w'.disk := by
  obtain ⟨X, s, rfl⟩ : ∃ (X : Place) (s : String), P = X ++ [s] :=
    (List.eq_nil_or_concat' P).resolve_left hne
  cases writing_of_eq h with
  | refused => exact ⟨rfl, .refl _⟩
  | failed lacks replace => exact ⟨rfl, Disk.adds_of_replace htree hP lacks.not_refuses replace⟩

end World

end StagedCodegen
