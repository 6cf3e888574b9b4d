import StagedCodegen.Proofs.Disk.Confinement
import StagedCodegen.Proofs.Disk.Spelling

/-!
# Directories without links

Inside a directory at and below which there is no link (`Disk.LinkFree`), a path that goes up
nowhere leads to the place of its names, whatever is there
(`Disk.LinkFree.resolveWithin_eq_ok_iff`), and an operating system finds by it just what stands
there (`Disk.LinkFree.node?_eq_some_iff`).
-/

namespace StagedCodegen

/-- The place that a path from another one is resolved to if there are no links: the names of the
path are composed, those before them stay as they are. -/
def Place.target (B : Place) (p : Path) : Place := B ++ p.place.map Text.compose

theorem Place.ne_nil_of_below {B P : Place} (hBP : B <+: P) (hne : B ≠ P) : P ≠ [] := by
  rintro rfl
  exact hne (List.prefix_nil.mp hBP)

/-- The names of a path can be names of entries. -/
theorem Path.named_place (p : Path) : p.place.Named := by
  intro s hs
  rw [place_eq] at hs
  obtain ⟨x, hx, hs⟩ := List.mem_filterMap.mp hs
  cases x with
  | name t =>
    cases hs
    rw [String.toList_ofList]
    exact isName_of_mem_moves hx
  | root | here | up => cases hs

/-- What is resolved is composed as a whole, if it goes on from composed names. -/
theorem Place.target_eq_map {B : Place} (h : B.Composed) (p : Path) :
    B.target p = (B ++ p.place).map Text.compose := by
  rw [List.map_append, List.map_congr_left h, List.map_id', Place.target]

/-- A path that goes up nowhere goes on from a place by its names. -/
theorem Place.along_join {B : Place} {p : Path} (hB : B.Named) (hp : p.isAbsolute = false)
    (hup : .up ∉ p.components) : Place.along [] (B.path.join p).moves = B ++ p.place := by
  rw [Path.moves_join hp, along_append, moves_path hB, along_names, List.nil_append,
    along_eq_append (mt Path.up_mem_components_iff.mpr hup), Path.place_eq]

/-- The normal form of a path that goes up nowhere from a place. -/
theorem Place.normalize_join {B : Place} {p : Path} (hB : B.Named) (hp : p.isAbsolute = false)
    (hup : .up ∉ p.components) : (B.path.join p).normalize = Place.path (B ++ p.place) := by
  rw [Path.normalize, Path.collapse_components ((Path.isAbsolute_join hp).trans B.isAbsolute_path),
    along_join hB hp hup, ofComponents_eq (hB.append p.named_place)]

theorem Place.Named.target {B : Place} (hB : B.Named) (p : Path) : (B.target p).Named :=
  hB.append p.named_place.compose

namespace Disk

variable {d d' : Disk} {B P : Place} {p q : Path} {s : String} {followLast : Bool}

/-- The place is a directory of a tree, at and below which there is no link. -/
structure LinkFree (d : Disk) (B : Place) : Prop where
  tree : d.IsTree
  opens : d.Opens B
  links : ∀ Q t, d.lookup Q = some (.link t) → ¬B <+: Q

theorem linkFree_of_entries (htree : d.IsTree) (hopens : d.Opens B)
    (h : ∀ e ∈ d.entries, ∀ t, e.2 = .link t → ¬B <+: e.1) : d.LinkFree B := by
  refine ⟨htree, hopens, fun Q t hlink => ?_⟩
  have hne : Q ≠ [] := by
    rintro rfl
    cases hlink
  exact h (Q, .link t) (mem_of_lookup hlink hne) t rfl

theorem LinkFree.steady (h : d.LinkFree B) (hsteady : d.Steady d') (htree : d'.IsTree) :
    d'.LinkFree B :=
  ⟨htree, hsteady.opens h.opens, fun Q t hlink => h.links Q t ((hsteady.link Q t).mp hlink)⟩

theorem straight_of_opens (hopens : d.Opens B)
    (hlinks : ∀ Q t, d.lookup Q = some (.link t) → ¬B <+: Q) (hBP : B <+: P) : d.Straight P := by
  intro Q hQ t hlink
  rcases List.prefix_or_prefix_of_prefix hQ hBP with hQB | hBQ
  · cases (hopens Q hQB).symm.trans hlink
  · exact hlinks Q t hlink hBQ

theorem LinkFree.straight (h : d.LinkFree B) (hBP : B <+: P) : d.Straight P :=
  straight_of_opens h.opens h.links hBP

/-! ## Resolving -/

theorem names_of_isAbsolute (hp : p.isAbsolute = true) : d.names p = Place.along [] p.moves := by
  rw [names_eq (Path.collapse_components (d.isAbsolute_absolute p)), absolute, if_pos hp]

theorem names_path_join (hB : B.Named) (hp : p.isAbsolute = false) (hup : .up ∉ p.components) :
    d.names (B.path.join p) = B ++ p.place := by
  rw [names_of_isAbsolute ((Path.isAbsolute_join hp).trans B.isAbsolute_path),
    Place.along_join hB hp hup]

/-- A path leads to its names if there is no link on the way. -/
theorem reach_of_straight (h : d.Straight (d.names p)) : d.reach p = .ok (d.names p).path := by
  obtain ⟨A, B, F, n, hnamed, -, hcollapse, hF, -, hreach⟩ := d.exists_reach_eq p
  rw [names_eq hcollapse] at h ⊢
  have hA : d.Straight A := h.of_isPrefix (List.prefix_append A B)
  have hplace : F = A := (walks_of_locate (hnamed.of_isPrefix (List.prefix_append A B)) hF).place_eq
    fun Q hQ _ _ => hA Q hQ
  rw [hreach, hplace]

/-- A path that goes up nowhere is resolved to the place of its names, unless it has none. -/
theorem LinkFree.resolveWithin_eq_ok_iff (h : d.LinkFree B) (hB : B.Named) (hcomposed : B.Composed)
    (hp : p.isAbsolute = false) (hup : .up ∉ p.components) :
    d.resolveWithin B.path p = .ok q ↔ q = (B.target p).path ∧ B ≠ B.target p := by
  have hBreach : d.canonicalBoundary B.path = .ok B.path :=
    resolveExisting_path hB h.opens.straight.clear (Place.compose_path hcomposed)
  have hnames : d.names (B.path.join p) = B ++ p.place := names_path_join hB hp hup
  have hreach : d.reach (B.path.join p) = .ok (Place.path (B ++ p.place)) :=
    hnames ▸ reach_of_straight (hnames ▸ h.straight (List.prefix_append B _))
  have hresolved : d.resolveExisting (B.path.join p) = .ok (B.target p).path := by
    rw [resolveExisting_eq, hreach, Except.map, Place.compose_text, Place.target_eq_map hcomposed]
  have hbelow : strictlyBelow (B.target p).path B.path = true ↔ B ≠ B.target p := by
    rw [strictlyBelow_path_iff (hB.target p) hB]
    exact and_iff_right (List.prefix_append B _)
  rw [resolveWithin_ok_iff, ← hbelow]
  constructor
  · rintro ⟨b, hb, hq, hbelow⟩
    obtain rfl := Except.ok.inj (hBreach.symm.trans hb)
    obtain rfl := Except.ok.inj (hresolved.symm.trans hq)
    exact ⟨rfl, hbelow⟩
  · rintro ⟨rfl, hbelow⟩
    exact ⟨_, hBreach, hresolved, hbelow⟩

/-! ## Finding -/

/-- An absolute path that goes up nowhere is walked along by its names. -/
theorem locate_join_eq (hp : p.isAbsolute = true) (hup : .up ∉ p.components)
    (hs : Path.IsName s.toList) (husable : Usable (p.join ⟨s⟩)) :
    d.locate followLast (p.join ⟨s⟩) = d.walk followLast 40 [] ((p.place ++ [s]).map .name) := by
  have habsolute := (Path.isAbsolute_join (p := p) (Path.isAbsolute_of_name hs)).trans hp
  obtain ⟨ps, hsteps, hps⟩ := exists_steps_join p hs
  have hup' := mt Path.up_mem_components_iff.mpr hup
  have hplace : Place.along [] (Path.pieceComponents ps) = p.place := by
    rw [hps, Place.along_eq_append hup', List.nil_append, Path.place_eq]
  have hwalk : d.walk followLast 40 [] (ps.filterMap Disk.pieceStep ++ [.name s]) =
      d.walk followLast 40 [] ((Place.along [] (Path.pieceComponents ps)).map .name ++ [.name s]) :=
    d.walk_along (List.cons_ne_nil _ []) Place.named_nil
      (fun t ht => Path.isName_of_mem_moves (hps ▸ ht))
      fun before after heq =>
        absurd (hps ▸ heq ▸ List.mem_append_right before List.mem_cons_self) hup'
  rw [locate_eq husable, if_pos habsolute, hsteps, List.map_append, ← hplace]
  exact hwalk

/-- The path can be used, and each of the names that it is walked along by. -/
structure Walkable (p : Path) (P : Place) : Prop where
  usable : Usable p
  short : ∀ s ∈ P, s.utf8ByteSize ≤ 255

theorem node?_eq_some_iff {F : Place} {n : Node} :
    d.node? p = some (F, n) ↔ d.locate true p = .ok (.found F n) := by
  unfold node?
  split
  · next G m hlocate => simp [hlocate]
  · next hnone => exact ⟨nofun, fun hfound => (hnone F n hfound).elim⟩

section Found

variable {F : Place} {n : Node} (hp : p.isAbsolute = true) (hup : .up ∉ p.components)
  (hs : Path.IsName s.toList)

include hp hup hs

/-- What is found is walked to by the names. -/
theorem walks_of_node? (h : d.node? (p.join ⟨s⟩) = some (F, n)) :
    Walkable (p.join ⟨s⟩) (p.place ++ [s]) ∧
      d.Walks true 40 [] ((p.place ++ [s]).map .name) (.found F n) := by
  have hlocate := node?_eq_some_iff.mp h
  have husable := usable_of_locate hlocate
  rw [locate_join_eq hp hup hs husable] at hlocate
  have hwalks := walks_of_walk hlocate
  exact ⟨⟨husable, fun t ht => hwalks.short (List.mem_map_of_mem ht)⟩, hwalks⟩

/-- An operating system finds by a path that goes up nowhere just what stands at its names, as long
as it can use the path. -/
theorem LinkFree.node?_eq_some_iff (h : d.LinkFree B) (hB : B <+: p.place ++ [s]) :
    d.node? (p.join ⟨s⟩) = some (F, n) ↔ Walkable (p.join ⟨s⟩) (p.place ++ [s]) ∧
      F = p.place ++ [s] ∧ d.lookup (p.place ++ [s]) = some n := by
  constructor
  · intro hfound
    obtain ⟨hwalkable, hwalks⟩ := walks_of_node? hp hup hs hfound
    obtain rfl : F = p.place ++ [s] :=
      hwalks.place_eq fun Q hQ _ _ => h.straight hB Q hQ
    exact ⟨hwalkable, rfl, Stands.lookup ⟨40, hwalks⟩ (p.named_place.concat hs)⟩
  · rintro ⟨⟨husable, hshort⟩, rfl, hlookup⟩
    have hn : ∀ t, n ≠ .link t := fun t ht =>
      h.straight hB _ (List.prefix_refl _) t (ht ▸ hlookup)
    rw [Disk.node?_eq_some_iff, locate_join_eq hp hup hs husable]
    exact (walks_of_reaches (P := []) (h.tree.reaches hlookup) hlookup hn hshort).walk_eq

end Found

end Disk

end StagedCodegen
