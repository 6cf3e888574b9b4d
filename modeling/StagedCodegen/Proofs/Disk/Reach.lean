import StagedCodegen.Containment
import StagedCodegen.Proofs.Disk.Frames

/-!
# Where paths lead

A path is resolved by taking the part of it that exists without links and keeping the names after
it (`Disk.exists_reach_eq`). A path leads to itself in this way just if there is no link among what
exists on the way down (`Disk.reach_eq_self_iff`).
-/

namespace StagedCodegen

open StagedCodegen.Path (Component)

namespace Disk

variable {d : Disk} {A B F P Q X : Place} {n : Node} {s : String} {p : Path}

/-- The place that a path leads to, as its names stand on the disk. -/
def reach (d : Disk) (p : Path) : Except Failure Path :=
  let (top, below) := d.deepest (Path.collapse (d.absolute p).components).reverse []
  match if d.exists_ top then d.canonicalize top else .ok top with
  | .error e => .error (.io top e)
  | .ok found => .ok (below.foldl (fun p s => p.join ⟨String.ofList s⟩) found)

/-- A path is resolved by composing the names of the place that it leads to. -/
theorem resolveExisting_eq (d : Disk) (p : Path) :
    d.resolveExisting p = (d.reach p).map fun q => ⟨Text.compose q.text⟩ := by
  unfold resolveExisting reach
  generalize d.deepest _ [] = parts
  obtain ⟨top, below⟩ := parts
  simp only
  cases if d.exists_ top then d.canonicalize top else .ok top <;> rfl

theorem isAbsolute_absolute (d : Disk) (p : Path) : (d.absolute p).isAbsolute = true := by
  rw [absolute]
  split
  · next h => exact h
  · next h =>
    rw [Path.join, if_neg h, currentDir, Path.isAbsolute, String.toList_ofList, Path.glue,
      Place.toList_path]
    split <;> rfl

theorem exists_root (d : Disk) : d.exists_ (Place.path []) = true :=
  exists_of_locate (d.locate_root true)

/-- What exists is found. -/
theorem exists_locate (h : d.exists_ p = true) : ∃ F n, d.locate true p = .ok (.found F n) := by
  rw [exists_, node?] at h
  split at h
  · next F n hlocate => exact ⟨F, n, hlocate⟩
  · cases h

/-- The deepest part of the path of a place that exists. -/
theorem exists_deepest_eq (d : Disk) (hP : P.Named) (below : List (List Char)) :
    ∃ A B : Place, P = A ++ B ∧ d.deepest P.stack below = (A.path, B.pieces ++ below) ∧
      d.exists_ A.path = true ∧
      ∀ s C, B = s :: C → d.exists_ (Place.path (A ++ [s])) = false := by
  induction P using List.reverseRecOn generalizing below with
  | nil =>
    refine ⟨[], [], rfl, ?_, d.exists_root, fun s C h => absurd h (List.cons_ne_nil s C).symm⟩
    rw [← Place.ofComponents_eq Place.named_nil]
    rfl
  | append_singleton P s ih =>
    have hpath : Path.ofComponents (.name s.toList :: Place.stack P).reverse =
        Place.path (P ++ [s]) := by
      rw [← Place.stack_concat, Place.stack, List.reverse_reverse, Place.ofComponents_eq hP]
    rw [Place.stack_concat, deepest]
    simp only [hpath]
    by_cases hexists : d.exists_ (Place.path (P ++ [s])) = true
    · rw [if_pos hexists]
      exact ⟨P ++ [s], [], by simp, rfl, hexists, fun s C h => absurd h (List.cons_ne_nil s C).symm⟩
    · rw [if_neg hexists]
      obtain ⟨A, B, rfl, hdeepest, hA, hB⟩ :=
        ih (hP.of_isPrefix (List.prefix_append P [s])) (s.toList :: below)
      refine ⟨A, B ++ [s], List.append_assoc A B [s], ?_, hA, ?_⟩
      · rw [hdeepest, Place.pieces, Place.pieces, List.map_append, List.append_assoc]
        rfl
      · intro t C heq
        rcases B with _ | ⟨u, B⟩
        · obtain ⟨rfl, -⟩ := List.cons.inj heq
          rw [List.append_nil] at hexists
          exact Bool.eq_false_iff.mpr hexists
        · obtain ⟨rfl, -⟩ := List.cons.inj heq
          exact hB u B rfl

theorem foldl_join_path (hP : P.Named) {B : Place} (hB : B.Named) :
    B.pieces.foldl (fun p s => p.join ⟨String.ofList s⟩) P.path = Place.path (P ++ B) := by
  induction B generalizing P with
  | nil => rw [List.append_nil]; rfl
  | cons s B ih =>
    have hs : Path.IsName s.toList := hB s (by simp)
    have htail : Place.Named B := fun t ht => hB t (by simp [ht])
    rw [Place.pieces, List.map_cons, List.foldl_cons, String.ofList_toList, Place.join_path hP hs,
      ← Place.pieces, ih (hP.concat hs) htail, List.append_assoc, List.singleton_append]

/-- A path leads to the place of the deepest part of its normal form that exists, and on by the
names after it. -/
theorem exists_reach_eq (d : Disk) (p : Path) : ∃ (A B F : Place) (n : Node),
    (A ++ B).Named ∧ F.Named ∧
      Path.collapse (d.absolute p).components = .root :: (Place.pieces (A ++ B)).map .name ∧
      d.locate true A.path = .ok (.found F n) ∧
      (∀ (s : String) (C : Place), B = s :: C → d.exists_ (Place.path (A ++ [s])) = false) ∧
      d.reach p = .ok (Place.path (F ++ B)) := by
  obtain ⟨P, hP, hcollapse⟩ := Path.exists_collapse_eq (d.isAbsolute_absolute p)
  obtain ⟨A, B, rfl, hdeepest, hA, hB⟩ := d.exists_deepest_eq hP []
  obtain ⟨F, n, hF⟩ := exists_locate hA
  have hnamed : A.Named := hP.of_isPrefix (List.prefix_append A B)
  have hFnamed : F.Named := by
    cases real_of_locate hnamed hF with
    | found named reaches lookup last => exact named
  refine ⟨A, B, F, n, hP, hFnamed, hcollapse, hF, hB, ?_⟩
  have hBnamed : B.Named := fun s hs => hP s (by simp [hs])
  have hparts : d.deepest (Path.collapse (d.absolute p).components).reverse [] =
      (A.path, B.pieces) := by
    rw [hcollapse, ← Place.stack, hdeepest, List.append_nil]
  have hcanonical : (if d.exists_ A.path then d.canonicalize A.path else .ok A.path) =
      .ok F.path := by
    rw [if_pos hA, canonicalize, hF]
  unfold reach
  rw [hparts]
  simp only
  rw [hcanonical]
  simp only
  rw [foldl_join_path hFnamed hBnamed]

theorem exists_of_exists (hP : P.Named) (h : d.exists_ P.path = true) (hQ : Q <+: P) :
    d.exists_ Q.path = true := by
  by_cases hne : Q = P
  · rwa [hne]
  · obtain ⟨R, n, hlocate⟩ := exists_locate h
    obtain ⟨R, hR⟩ := exists_of_isPrefix hP hlocate hQ hne
    exact exists_of_locate hR

/-- The place that a path is resolved to is known from where the first missing name is. -/
theorem reach_path_eq (hnamed : (A ++ B).Named) (hF : d.locate true A.path = .ok (.found F n))
    (hB : ∀ s C, B = s :: C → d.exists_ (Place.path (A ++ [s])) = false) :
    d.reach (Place.path (A ++ B)) = .ok (Place.path (F ++ B)) := by
  obtain ⟨A', B', F', n', hnamed', -, hcollapse, hF', hB', hreach⟩ :=
    d.exists_reach_eq (Place.path (A ++ B))
  rw [absolute, if_pos (Place.isAbsolute_path _), Place.collapse_components hnamed] at hcollapse
  have hP : A ++ B = A' ++ B' := Place.eq_of_names (List.cons.inj hcollapse).2
  -- neither of the two parts that exist goes beyond the other
  have hbefore : ∀ {A B A' B' : Place}, A ++ B = A' ++ B' → A'.Named → d.exists_ A'.path = true →
      (∀ s C, B = s :: C → d.exists_ (Place.path (A ++ [s])) = false) → A' <+: A := by
    intro A B A' B' hP hA' hexists hB
    refine (List.prefix_or_prefix_of_prefix ⟨B', hP.symm⟩ (List.prefix_append A B)).elim id ?_
    rintro ⟨C, rfl⟩
    rcases C with _ | ⟨s, C⟩
    · exact ⟨[], by simp⟩
    · have hs := hB s (C ++ B') (by simpa using hP)
      rw [exists_of_exists hA' hexists ⟨C, by simp⟩] at hs
      cases hs
  have hA := hbefore hP.symm (hnamed.of_isPrefix (List.prefix_append A B)) (exists_of_locate hF) hB'
  have hA' := hbefore hP (hnamed'.of_isPrefix (List.prefix_append A' B')) (exists_of_locate hF') hB
  obtain rfl : A = A' := hA.eq_of_length (Nat.le_antisymm hA.length_le hA'.length_le)
  obtain rfl : B = B' := List.append_cancel_left hP
  rw [hF] at hF'
  cases hF'
  exact hreach

/-- What cannot be walked to counts as missing. -/
theorem exists_eq_false_of_walk {e : IoError} (hP : P.Named)
    (h : d.walk true 40 [] (P.map .name) = .error e) : d.exists_ P.path = false := by
  rw [← Bool.not_eq_true]
  intro hexists
  obtain ⟨F, n, hlocate⟩ := exists_locate hexists
  cases h.symm.trans (walks_of_locate hP hlocate).walk_eq

/-- If a name cannot be walked to, it is kept with those after it. -/
theorem reach_path_eq_of_walk {e : IoError} {C : Place} (hnamed : (A ++ s :: C).Named)
    (hF : d.locate true A.path = .ok (.found F n))
    (h : d.walk true 40 [] ((A ++ [s]).map .name) = .error e) :
    d.reach (Place.path (A ++ s :: C)) = .ok (Place.path (F ++ s :: C)) := by
  refine reach_path_eq hnamed hF fun t X ht => ?_
  obtain ⟨rfl, -⟩ := List.cons.inj ht
  exact exists_eq_false_of_walk (hnamed.of_isPrefix ⟨C, by simp⟩) h

/-- A path leads to itself just if it is the path of a place and there is no link among what exists
on the way down to that. -/
theorem reach_eq_self_iff : d.reach p = .ok p ↔ ∃ P : Place, P.Named ∧ p = P.path ∧ d.Clear P := by
  obtain ⟨A, B, F, n, hnamed, hFnamed, hcollapse, hF, hB, hreach⟩ := d.exists_reach_eq p
  have hA : A.Named := hnamed.of_isPrefix (List.prefix_append A B)
  have hBnamed : B.Named := fun s hs => hnamed s (by simp [hs])
  constructor
  · intro h
    obtain rfl : p = Place.path (F ++ B) := Except.ok.inj (h.symm.trans hreach)
    have hP : Place.Named (F ++ B) := hFnamed.append hBnamed
    rw [absolute, if_pos (Place.isAbsolute_path _), Place.collapse_components hP] at hcollapse
    obtain rfl : F = A :=
      List.append_cancel_right (Place.eq_of_names (List.cons.inj hcollapse).2)
    refine ⟨F ++ B, hP, rfl, fun Q hQ hexists t hlink => ?_⟩
    by_cases hQF : Q <+: F
    · cases real_of_locate hFnamed hF with
      | found named reaches lookup last =>
        by_cases hne : Q = F
        · rw [hne, lookup] at hlink
          exact last rfl t (Option.some.inj hlink)
        · rw [reaches Q hQF hne] at hlink
          cases hlink
    · -- the first name after `F` is missing, and so is everything below it
      have hnested := List.prefix_or_prefix_of_prefix hQ (List.prefix_append F B)
      obtain ⟨C, rfl⟩ := hnested.resolve_left hQF
      rcases C with _ | ⟨u, C⟩
      · rw [List.append_nil] at hQF
        exact hQF (List.prefix_refl F)
      · obtain ⟨B', rfl⟩ := (List.prefix_append_right_inj F).mp hQ
        have hmissing := hB u (C ++ B') rfl
        have hfirst : F ++ [u] <+: F ++ u :: C :=
          (List.prefix_append_right_inj F).mpr ⟨C, rfl⟩
        rw [exists_of_exists (hP.of_isPrefix hQ) hexists hfirst] at hmissing
        cases hmissing
  · rintro ⟨P, hP, rfl, hclear⟩
    rw [absolute, if_pos (Place.isAbsolute_path _), Place.collapse_components hP] at hcollapse
    obtain rfl : P = A ++ B := Place.eq_of_names (List.cons.inj hcollapse).2
    have hplace : F = A := by
      refine (walks_of_locate hA hF).place_eq fun Q hQ hne _ t => ?_
      exact hclear Q (hQ.trans (List.prefix_append A B))
        (exists_of_exists hA (exists_of_locate hF) hQ) t
    rw [hreach, hplace]

/-- The path of a place leads to itself, if the way down is clear and its names are composed. -/
theorem resolveExisting_path (hP : P.Named) (hclear : d.Clear P)
    (hcomposed : Text.compose P.path.text = P.path.text) :
    d.resolveExisting P.path = .ok P.path := by
  rw [resolveExisting_eq, reach_eq_self_iff.mpr ⟨P, hP, rfl, hclear⟩, Except.map, hcomposed]

theorem strictlyBelow_path_iff (hP : P.Named) (hB : B.Named) :
    strictlyBelow P.path B.path = true ↔ B <+: P ∧ B ≠ P := by
  have hsame : P.path.same B.path = true ↔ B = P := by
    refine ⟨fun h => ?_, fun h => by simp [h, Path.same]⟩
    rw [Path.same, beq_iff_eq, Place.components_path hP, Place.components_path hB] at h
    exact (Place.eq_of_names (List.cons.inj h).2).symm
  rw [strictlyBelow, Bool.and_eq_true, Bool.not_eq_true', ← Bool.not_eq_true, hsame,
    Place.startsWith_path_iff hP hB, and_comm]

/-- The path of a place inside a directory is accepted as it is. -/
theorem resolveWithin_path (hP : P.Named) (hclear : d.Clear P)
    (hcomposed : Text.compose P.path.text = P.path.text)
    (hBcomposed : Text.compose (Place.path B).text = (Place.path B).text)
    (hBP : B <+: P) (hne : B ≠ P) : d.resolveWithin B.path P.path = .ok P.path := by
  have hB : B.Named := hP.of_isPrefix hBP
  have hBreach : d.resolveExisting B.path = .ok B.path :=
    resolveExisting_path hB (hclear.of_isPrefix hBP) hBcomposed
  refine resolveWithin_ok_iff.mpr ⟨B.path, hBreach, ?_, ?_⟩
  · rw [Path.join, if_pos P.isAbsolute_path]
    exact resolveExisting_path hP hclear hcomposed
  · exact (strictlyBelow_path_iff hP hB).mpr ⟨hBP, hne⟩

end Disk

end StagedCodegen
