import StagedCodegen.Proofs.Disk.Reach
import StagedCodegen.Writes

/-!
# Replacing one file

A file is replaced by way of a neighbour in the same directory. On a clear way down to that
directory everything happens in it or in directories that were missing, but for one thing: what is
written to the neighbour goes where the neighbour leads, which is somewhere else if it is a link.

Main statements: a file inside a directory is replaced without a trace outside, if its neighbour
leads nowhere but inside (`Disk.keptOutside_of_replace`), and if it leads anywhere else, then what
is written stays there (`Disk.exists_written_outside`).
-/

namespace StagedCodegen

/-! ## The neighbour -/

/-- The name of the neighbour of a file. -/
def temporaryName (s : String) : String := s ++ ".genpipe.tmp"

theorem isName_temporaryName {s : String} (h : Path.IsName s.toList) :
    Path.IsName (temporaryName s).toList := by
  have hlist : (temporaryName s).toList = s.toList ++ ".genpipe.tmp".toList := by
    simp [temporaryName]
  have hlength : 2 < (temporaryName s).toList.length := by
    rw [hlist, List.length_append]
    have hend : ".genpipe.tmp".toList.length = 12 := by decide
    omega
  refine ⟨?_, ?_, ?_, ?_⟩
  · intro h; rw [h] at hlength; simp at hlength
  · intro h; rw [h] at hlength; simp at hlength
  · intro h; rw [h] at hlength; simp at hlength
  · rw [hlist, List.mem_append, not_or]
    exact ⟨h.slash_notMem, by decide⟩

theorem temporaryPath_path {X : Place} {s : String} (h : (X ++ [s]).Named) :
    temporaryPath (Place.path (X ++ [s])) = Place.path (X ++ [temporaryName s]) := by
  rw [temporaryPath, Place.fileName?_path h, Option.getD_some]
  exact Place.withFileName_path h (isName_temporaryName (h s (by simp)))

namespace Disk

variable {d d' d'' : Disk} {B P Q X : Place} {s : String} {c : ByteArray}

/-! ## Outside a directory -/

/-- Nothing that stands outside a directory changes; at most directories above it are added. -/
def KeptOutside (d d' : Disk) (B : Place) : Prop :=
  ∀ Q, ¬B <+: Q →
    d'.lookup Q = d.lookup Q ∨ (d.lookup Q = none ∧ d'.lookup Q = some .dir ∧ Q <+: B)

theorem KeptOutside.refl (d : Disk) (B : Place) : d.KeptOutside d B := fun _ _ => .inl rfl

theorem KeptOutside.trans (h : d.KeptOutside d' B) (h' : d'.KeptOutside d'' B) :
    d.KeptOutside d'' B := by
  intro Q hQ
  rcases h Q hQ with hsame | ⟨hnone, hdir, hQB⟩ <;>
    rcases h' Q hQ with hsame' | ⟨hnone', hdir', hQB'⟩
  · exact .inl (hsame'.trans hsame)
  · exact .inr ⟨hsame.symm.trans hnone', hdir', hQB'⟩
  · exact .inr ⟨hnone, hsame'.trans hdir, hQB⟩
  · exact .inr ⟨hnone, hdir', hQB'⟩

/-- A file that stands outside stood there before. -/
theorem KeptOutside.lookup_eq (h : d.KeptOutside d' B) (hQ : ¬B <+: Q)
    (hfile : d'.lookup Q = some (.file c)) : d.lookup Q = some (.file c) := by
  rcases h Q hQ with hsame | ⟨-, hdir, -⟩
  · exact hsame.symm.trans hfile
  · cases hdir.symm.trans hfile

/-- What stood outside stands there still. -/
theorem KeptOutside.stays {n : Node} (h : d.KeptOutside d' B) (hQ : ¬B <+: Q)
    (hn : d.lookup Q = some n) : d'.lookup Q = some n := by
  rcases h Q hQ with hsame | ⟨hnone, -, -⟩
  · rw [hsame, hn]
  · cases hnone.symm.trans hn

/-- Everything is inside the root directory. -/
theorem keptOutside_root (d d' : Disk) : d.KeptOutside d' [] :=
  fun _ hQ => absurd List.nil_prefix hQ

theorem KeptOutside.set (h : d.KeptOutside d' B) (hP : B <+: P) (hne : P ≠ []) (n : Node) :
    d.KeptOutside (d'.set P n) B := by
  intro Q hQ
  have hQP : Q ≠ P := fun heq => hQ (heq ▸ hP)
  rw [lookup_set d' hne, if_neg hQP]
  exact h Q hQ

theorem KeptOutside.erase (h : d.KeptOutside d' B) (hP : B <+: P) (hne : P ≠ []) :
    d.KeptOutside (d'.erase P) B := by
  intro Q hQ
  have hQP : Q ≠ P := fun heq => hQ (heq ▸ hP)
  rw [lookup_erase d' hne, if_neg hQP]
  exact h Q hQ

theorem Grows.keptOutside (h : d.Grows d' X) (hB : B <+: X) : d.KeptOutside d' B := by
  intro Q hQ
  rcases h Q with hsame | ⟨hnone, hdir, hQX⟩
  · exact .inl hsame
  · have hnested := List.prefix_or_prefix_of_prefix hQX hB
    exact .inr ⟨hnone, hdir, hnested.resolve_right hQ⟩

/-! ## Replacing -/

theorem makeRoomFor_snd (h : (X ++ [s]).Named) :
    (d.makeRoomFor (Place.path (X ++ [s]))).2 = (d.makeDirs X.path).2 := by
  rw [makeRoomFor, Place.parent?_path h]
  simp only
  split <;> next h => rw [h]

/-- What can come of putting the written neighbour of a file in its place, and the tree that this
leaves. -/
inductive Concluding (d : Disk) (p : Path) : Except Failure Unit → Disk → Prop where
  /-- The neighbour takes the place of the file. -/
  | renamed {d' : Disk} (rename : d.rename (temporaryPath p) p = .ok d') :
      Concluding d p (.ok ()) d'
  /-- It cannot, and is taken away again. -/
  | withdrawn {d' : Disk} {e : IoError} (rename : d.rename (temporaryPath p) p = .error e)
      (unlink : d.unlink (temporaryPath p) = .ok d') : Concluding d p (.error (.io p e)) d'
  /-- It cannot, and stays. -/
  | left {e e' : IoError} (rename : d.rename (temporaryPath p) p = .error e)
      (unlink : d.unlink (temporaryPath p) = .error e') : Concluding d p (.error (.io p e)) d

/-- What can come of replacing a file, and the tree that this leaves. -/
inductive Replacing (d : Disk) (p : Path) (c : ByteArray) : Except Failure Unit → Disk → Prop where
  /-- No room can be made for it. -/
  | crowded {d' : Disk} {f : Failure} (room : d.makeRoomFor p = (.error f, d')) :
      Replacing d p c (.error f) d'
  /-- The neighbour cannot be written. -/
  | unwritten {d' : Disk} {e : IoError} (room : d.makeRoomFor p = (.ok (), d'))
      (write : d'.write (temporaryPath p) c = .error e) :
      Replacing d p c (.error (.io (temporaryPath p) e)) d'
  /-- The neighbour is written, and then it depends on whether it can take the place. -/
  | written {d₁ d₂ d' : Disk} {result : Except Failure Unit}
      (room : d.makeRoomFor p = (.ok (), d₁)) (write : d₁.write (temporaryPath p) c = .ok d₂)
      (conclusion : d₂.Concluding p result d') : Replacing d p c result d'

theorem replacing_of_eq {p : Path} {result : Except Failure Unit}
    (h : d.replace p c = (result, d')) : d.Replacing p c result d' := by
  unfold replace at h
  rcases hroom : d.makeRoomFor p with ⟨f | ⟨⟩, d₁⟩ <;> simp only [hroom] at h
  · cases h
    exact .crowded hroom
  rcases hwrite : d₁.write (temporaryPath p) c with e | d₂ <;> simp only [hwrite] at h
  · cases h
    exact .unwritten hroom hwrite
  refine .written hroom hwrite ?_
  rcases hrename : d₂.rename (temporaryPath p) p with e | d₃ <;> simp only [hrename] at h
  · rcases hunlink : d₂.unlink (temporaryPath p) with e' | d₃ <;> simp only [hunlink] at h
    · cases h
      exact .left hrename hunlink
    · cases h
      exact .withdrawn hrename hunlink
  · cases h
    exact .renamed hrename

/-- A file that is replaced goes through its neighbour, after directories were made. -/
theorem exists_steps_of_replace {p : Path} (h : d.replace p c = (.ok (), d')) :
    ∃ d₁ d₂, d.makeRoomFor p = (.ok (), d₁) ∧ d₁.write (temporaryPath p) c = .ok d₂ ∧
      d₂.rename (temporaryPath p) p = .ok d' := by
  cases replacing_of_eq h with
  | written room write conclusion =>
    cases conclusion with
    | renamed rename => exact ⟨_, _, room, write, rename⟩

/-- If the neighbour can be written, that is not yet the end. -/
theorem concluding_of_write {p : Path} {d₁ d₂ : Disk} (hroom : d.makeRoomFor p = (.ok (), d₁))
    (hwrite : d₁.write (temporaryPath p) c = .ok d₂) :
    d₂.Concluding p (d.replace p c).1 (d.replace p c).2 := by
  rcases hreplace : d.replace p c with ⟨result, d'⟩
  cases replacing_of_eq hreplace with
  | crowded room => cases hroom.symm.trans room
  | unwritten room write =>
    cases hroom.symm.trans room
    cases hwrite.symm.trans write
  | written room write conclusion =>
    cases hroom.symm.trans room
    cases hwrite.symm.trans write
    exact conclusion

/-- What is written to the neighbour of a file goes inside a directory. -/
def NeighbourInside (d : Disk) (B : Place) (p : Path) : Prop :=
  ∀ r, d.locate true (temporaryPath p) = .ok r → (∀ R, r ≠ .found R .dir) → B <+: r.place

theorem named_neighbour (hnamed : (X ++ [s]).Named) : (X ++ [temporaryName s]).Named :=
  (hnamed.of_isPrefix (List.prefix_append X [s])).concat (isName_temporaryName (hnamed s (by simp)))

theorem neighbourInside_of_not_link (hclear : d.Clear X) (hnamed : (X ++ [s]).Named)
    (hB : B <+: X) (hlink : ∀ t, d.lookup (X ++ [temporaryName s]) ≠ some (.link t)) :
    d.NeighbourInside B (Place.path (X ++ [s])) := by
  intro r hlocate _
  rw [temporaryPath_path hnamed] at hlocate
  have hplace := place_of_locate hclear (named_neighbour hnamed) hlocate fun _ => hlink
  rw [hplace.1]
  exact hB.trans (List.prefix_append X _)

/-- A file is written to where the path leads. -/
theorem write_of_locate {p : Path} {r : Located} (hreal : d.Real true r)
    (h : d.locate true p = .ok r) (hdir : ∀ P, r ≠ .found P .dir) :
    d.write p c = .ok (d.set r.place (.file c)) := by
  rw [write, h]
  cases hreal with
  | @found P n named reaches lookup last =>
    cases n with
    | dir => exact absurd rfl (hdir P)
    | file c' => rfl
    | link t => exact absurd rfl (last rfl t)
  | vacant named opens lookup => rfl

theorem locate_of_write {p : Path} (h : d.write p c = .ok d') :
    ∃ r, d.locate true p = .ok r ∧ ∀ P, r ≠ .found P .dir := by
  rw [write] at h
  split at h
  · next P c' hlocate => exact ⟨_, hlocate, by simp⟩
  · cases h
  · next P u hlocate => exact ⟨_, hlocate, by simp⟩
  · cases h

/-- Where something is written there was no directory, but one to put it into. -/
theorem Real.parent {r : Located} (h : d.Real true r) (hdir : ∀ P, r ≠ .found P .dir) :
    ∃ Y u, r.place = Y ++ [u] ∧ d.lookup Y = some .dir ∧ d.lookup r.place ≠ some .dir := by
  cases h with
  | @found P n named reaches lookup last =>
    have hn : n ≠ .dir := fun heq => hdir P (by rw [heq])
    rcases List.eq_nil_or_concat' P with rfl | ⟨Y, u, rfl⟩
    · exact absurd (Option.some.inj lookup).symm hn
    · refine ⟨Y, u, rfl, reaches Y (List.prefix_append Y [u]) (by simp), ?_⟩
      rw [Located.place, lookup]
      exact fun heq => hn (Option.some.inj heq)
  | @vacant P u named opens lookup =>
    refine ⟨P, u, rfl, opens.lookup, ?_⟩
    rw [Located.place, lookup]
    simp

/-- What a link leads to is not the link itself. -/
theorem Real.place_ne_of_link {t : Path} {r : Located} (h : d.Real true r)
    (hlink : d.lookup P = some (.link t)) : r.place ≠ P := by
  rintro rfl
  cases h with
  | found named reaches lookup last =>
    exact last rfl t (Option.some.inj (lookup.symm.trans hlink))
  | vacant named opens lookup => cases lookup.symm.trans hlink

/-- Where a link that leads nowhere stands on the way, nothing is replaced. -/
theorem replace_of_link {t : Path} (htree : d.IsTree) (hclear : d.Clear X)
    (hnamed : (X ++ [s]).Named) (hP : P <+: X) (hlink : d.lookup P = some (.link t)) :
    (d.replace (Place.path (X ++ [s])) c).2 = d := by
  have hX : X.Named := hnamed.of_isPrefix (List.prefix_append X [s])
  have hroom : (d.makeRoomFor (Place.path (X ++ [s]))).2 = d := by
    rw [makeRoomFor_snd hnamed]
    exact makeDirsFrom_of_blocked _ hX fun Q hQ d' =>
      makeDir_ne_ok_of_link htree hclear hX hP hlink hQ
  rcases hreplace : d.replace (Place.path (X ++ [s])) c with ⟨result, d'⟩
  cases replacing_of_eq hreplace with
  | crowded room | unwritten room => rwa [room] at hroom
  -- the neighbour cannot be written: the link would have to lead to a directory
  | written room write =>
    obtain rfl : _ = d := (congrArg Prod.snd room).symm.trans hroom
    rw [temporaryPath_path hnamed] at write
    obtain ⟨r, hlocate, -⟩ := locate_of_write write
    have hne : P ≠ X ++ [temporaryName s] := fun heq => not_concat_isPrefix (heq ▸ hP)
    obtain ⟨R, hR⟩ := exists_of_isPrefix (named_neighbour hnamed) hlocate
      (hP.trans (List.prefix_append X _)) hne
    exact absurd hlink (hclear P hP (exists_of_locate hR) t)

/-- The neighbour takes the place of the file or is taken away: both are inside. -/
theorem Concluding.keptOutside {d₂ d₃ : Disk} {result : Except Failure Unit}
    (h : d₂.Concluding (Place.path (X ++ [s])) result d₃) (htree : d₂.IsTree) (hX : d₂.Straight X)
    (hnamed : (X ++ [s]).Named) (hB : B <+: X) (hkept : d.KeptOutside d₂ B) :
    d₃.IsTree ∧ d.KeptOutside d₃ B := by
  have hneighbour := named_neighbour hnamed
  have hfile : X ++ [s] ≠ [] := List.concat_ne_nil s X
  have hother : X ++ [temporaryName s] ≠ [] := List.concat_ne_nil _ X
  have hBfile : B <+: X ++ [s] := hB.trans (List.prefix_append X [s])
  have hBother : B <+: X ++ [temporaryName s] := hB.trans (List.prefix_append X _)
  cases h with
  | left => exact ⟨htree, hkept⟩
  | renamed rename =>
    rw [temporaryPath_path hnamed] at rename
    obtain ⟨n, rfl, hopens, hlookup, hn, hplace⟩ :=
      rename_eq_ok hX.clear hneighbour hnamed rename
    have hnotdir : d₂.lookup (X ++ [temporaryName s]) ≠ some .dir := by
      rw [hlookup]
      exact fun heq => hn (Option.some.inj heq)
    refine ⟨(htree.erase hother hnotdir).set ?_ n ?_,
      (hkept.erase hBother hother).set hBfile hfile n⟩
    · rw [lookup_erase d₂ hother, if_neg (by simp)]
      exact hopens.lookup
    · rw [lookup_erase d₂ hother]
      split
      · simp
      · exact hplace
  | withdrawn _ unlink =>
    rw [temporaryPath_path hnamed] at unlink
    obtain ⟨rfl, hnotdir⟩ := unlink_eq_ok hX.clear hneighbour unlink
    exact ⟨htree.erase hother hnotdir, hkept.erase hBother hother⟩

/-- What is neither the file nor the neighbour stays as it is meanwhile. -/
theorem Concluding.lookup_eq {d₂ d₃ : Disk} {result : Except Failure Unit}
    (h : d₂.Concluding (Place.path (X ++ [s])) result d₃) (hX : d₂.Straight X)
    (hnamed : (X ++ [s]).Named) (hne : P ≠ X ++ [s]) (hne' : P ≠ X ++ [temporaryName s]) :
    d₃.lookup P = d₂.lookup P := by
  have hneighbour := named_neighbour hnamed
  have hother : X ++ [temporaryName s] ≠ [] := List.concat_ne_nil _ X
  cases h with
  | left => rfl
  | renamed rename =>
    rw [temporaryPath_path hnamed] at rename
    obtain ⟨n, rfl, -⟩ := rename_eq_ok hX.clear hneighbour hnamed rename
    rw [lookup_set _ (List.concat_ne_nil s X), if_neg hne, lookup_erase d₂ hother, if_neg hne']
  | withdrawn _ unlink =>
    rw [temporaryPath_path hnamed] at unlink
    obtain ⟨rfl, -⟩ := unlink_eq_ok hX.clear hneighbour unlink
    rw [lookup_erase d₂ hother, if_neg hne']

/-- The neighbour leads inside just as well after directories were made. -/
theorem NeighbourInside.makeDirs (h : d.NeighbourInside B (Place.path (X ++ [s])))
    (htree : d.IsTree) (hX : d.Straight X) (hnamed : (X ++ [s]).Named) (hB : B <+: X) :
    (d.makeDirs X.path).2.NeighbourInside B (Place.path (X ++ [s])) := by
  have hXnamed : X.Named := hnamed.of_isPrefix (List.prefix_append X [s])
  obtain ⟨hgrows, -⟩ := grows_of_makeDirsFrom X.path.components.length htree hX hXnamed
  by_cases hlink : ∃ t, d.lookup (X ++ [temporaryName s]) = some (.link t)
  -- where the neighbour is a link, all directories are there already
  · obtain ⟨t, hlink⟩ := hlink
    have hopens : d.Opens X := Reaches.opens_of_concat (htree.reaches hlink)
    rwa [Disk.makeDirs, makeDirsFrom_of_opens _ hXnamed hopens]
  · refine neighbourInside_of_not_link (hgrows.straight hX).clear hnamed hB fun t hlink' => ?_
    rcases hgrows (X ++ [temporaryName s]) with hsame | ⟨-, hnew, -⟩
    · exact hlink ⟨t, hsame.symm.trans hlink'⟩
    · cases hnew.symm.trans hlink'

/-- On a way without links nothing changes outside, if the neighbour leads inside. -/
theorem keptOutside_of_straight (htree : d.IsTree) (hX : d.Straight X)
    (hnamed : (X ++ [s]).Named) (hB : B <+: X)
    (hinside : d.NeighbourInside B (Place.path (X ++ [s]))) :
    (d.replace (Place.path (X ++ [s])) c).2.IsTree ∧
      d.KeptOutside (d.replace (Place.path (X ++ [s])) c).2 B := by
  have hneighbour := named_neighbour hnamed
  -- making room adds directories above the file only, so the way has no links afterwards either
  obtain ⟨hgrows, htree₁⟩ := grows_of_makeDirsFrom X.path.components.length htree hX
    (hnamed.of_isPrefix (List.prefix_append X [s]))
  have hinside₁ := hinside.makeDirs htree hX hnamed hB
  have hroom := d.makeRoomFor_snd hnamed
  rw [makeDirs] at hinside₁ hroom
  generalize (makeDirsFrom X.path.components.length d X.path).2 = d₁ at *
  rcases hreplace : d.replace (Place.path (X ++ [s])) c with ⟨result, d'⟩
  cases replacing_of_eq hreplace with
  | crowded room | unwritten room =>
    obtain rfl : d' = d₁ := (congrArg Prod.snd room).symm.trans hroom
    exact ⟨htree₁, hgrows.keptOutside hB⟩
  | written room write conclusion =>
    obtain rfl : _ = d₁ := (congrArg Prod.snd room).symm.trans hroom
    obtain ⟨r, hlocate, hdir⟩ := locate_of_write write
    have hBr : B <+: r.place := hinside₁ r hlocate hdir
    rw [temporaryPath_path hnamed] at hlocate write
    have hreal := real_of_locate hneighbour hlocate
    cases write.symm.trans (write_of_locate hreal hlocate hdir)
    obtain ⟨Y, u, hYu, hY, hnotdir⟩ := hreal.parent hdir
    have hne : r.place ≠ [] := by rw [hYu]; exact List.concat_ne_nil u Y
    refine conclusion.keptOutside ?_ ((hgrows.straight hX).set hne fun t => Node.noConfusion) hnamed
      hB ((hgrows.keptOutside hB).set hBr hne _)
    rw [hYu] at hnotdir ⊢
    exact htree₁.set hY _ hnotdir

/-- On a clear way nothing changes outside, if the neighbour leads inside. -/
theorem keptOutside_of_replace (htree : d.IsTree) (hclear : d.Clear X)
    (hnamed : (X ++ [s]).Named) (hB : B <+: X)
    (hinside : d.NeighbourInside B (Place.path (X ++ [s]))) :
    (d.replace (Place.path (X ++ [s])) c).2.IsTree ∧
      d.KeptOutside (d.replace (Place.path (X ++ [s])) c).2 B := by
  by_cases hX : d.Straight X
  · exact keptOutside_of_straight htree hX hnamed hB hinside
  · obtain ⟨P, hP, t, hlink⟩ : ∃ P, P <+: X ∧ ∃ t, d.lookup P = some (.link t) := by
      simpa [Straight] using hX
    rw [replace_of_link htree hclear hnamed hP hlink]
    exact ⟨htree, .refl d B⟩

/-! ## Through a link -/

theorem makeDirs_of_opens {r : Located} {followLast : Bool} (hnamed : (X ++ [s]).Named)
    (hopens : d.Opens X) (h : d.locate followLast (Place.path (X ++ [s])) = .ok r) :
    d.makeDirs X.path = (.ok (), d) := by
  have hX : X.Named := hnamed.of_isPrefix (List.prefix_append X [s])
  have hlocate : ∀ fl, d.locate fl X.path = .ok (.found X .dir) :=
    fun fl => locate_of_opens hnamed hopens h
  have hmake : d.makeDir X.path = .error (.of .alreadyExists) := by
    rw [makeDir, Place.withoutEndSlashes_path hX, hlocate]
  have hdir : d.isDir X.path = true := by
    rw [isDir, node?, hlocate]
  have hempty : ¬X.path.text.isEmpty = true := by
    rw [(usable_of_locate (hlocate true)).ne_empty]
    exact Bool.false_ne_true
  unfold makeDirs makeDirsFrom
  rw [if_neg hempty, hmake]
  simp [IoError.of, hdir]

/-- Where the directory of a file is there, no room has to be made. -/
theorem makeRoomFor_of_opens {r : Located} (hnamed : (X ++ [s]).Named) (hopens : d.Opens X)
    (h : d.locate true (Place.path (X ++ [temporaryName s])) = .ok r) :
    d.makeRoomFor (Place.path (X ++ [s])) = (.ok (), d) := by
  rw [makeRoomFor, Place.parent?_path hnamed]
  simp only
  rw [makeDirs_of_opens (named_neighbour hnamed) hopens h]

/-- If the neighbour is a link, what is to replace the file is written to where the link leads. -/
theorem lookup_replace_of_link {t : Path} {r : Located} {c : ByteArray}
    (hnamed : (X ++ [s]).Named) (hopens : d.Opens X)
    (hlink : d.lookup (X ++ [temporaryName s]) = some (.link t))
    (hlocate : d.locate true (Place.path (X ++ [temporaryName s])) = .ok r)
    (hdir : ∀ P, r ≠ .found P .dir) (hne : r.place ≠ X ++ [s]) :
    (d.replace (Place.path (X ++ [s])) c).2.lookup r.place = some (.file c) := by
  have hneighbour := named_neighbour hnamed
  have hreal := real_of_locate hneighbour hlocate
  have hroom := makeRoomFor_of_opens hnamed hopens hlocate
  have hwrite : d.write (temporaryPath (Place.path (X ++ [s]))) c =
      .ok (d.set r.place (.file c)) := by
    rw [temporaryPath_path hnamed]
    exact write_of_locate hreal hlocate hdir
  obtain ⟨Y, u, hYu, -, -⟩ := hreal.parent hdir
  have hplace : r.place ≠ [] := by rw [hYu]; exact List.concat_ne_nil u Y
  have hX : (d.set r.place (.file c)).Straight X :=
    hopens.straight.set hplace fun t => Node.noConfusion
  rw [(concluding_of_write hroom hwrite).lookup_eq hX hnamed hne (hreal.place_ne_of_link hlink),
    lookup_set d hplace, if_pos rfl]

/-- If what is written to the neighbour of a file goes outside, it stays there. -/
theorem exists_written_outside (htree : d.IsTree) (hclear : d.Clear X)
    (hnamed : (X ++ [s]).Named) (hB : B <+: X)
    (h : ¬d.NeighbourInside B (Place.path (X ++ [s]))) :
    ∃ Q, ¬B <+: Q ∧ ∀ c, (d.replace (Place.path (X ++ [s])) c).2.lookup Q = some (.file c) := by
  have hlink : ∃ t, d.lookup (X ++ [temporaryName s]) = some (.link t) := by
    by_contra hlink
    exact h (neighbourInside_of_not_link hclear hnamed hB fun t ht => hlink ⟨t, ht⟩)
  obtain ⟨t, hlink⟩ := hlink
  have hopens : d.Opens X := Reaches.opens_of_concat (htree.reaches hlink)
  unfold NeighbourInside at h
  push Not at h
  obtain ⟨r, hlocate, hdir, houtside⟩ := h
  rw [temporaryPath_path hnamed] at hlocate
  have hne : r.place ≠ X ++ [s] := fun heq =>
    houtside (heq ▸ hB.trans (List.prefix_append X [s]))
  exact ⟨r.place, houtside, fun c => lookup_replace_of_link hnamed hopens hlink hlocate hdir hne⟩

end Disk

end StagedCodegen
