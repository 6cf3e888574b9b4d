import StagedCodegen.Proofs.Writes.Failing

/-!
# Replacing once more

Where a file was replaced it can be replaced again, whatever the contents are: the directories are
there by then, nothing is left at the neighbour, and an operating system has taken the paths of both
before (`Disk.ready_of_replace`).

Main statement: `World.exists_writeFile_of_ready`.
-/

namespace StagedCodegen

namespace Disk

variable {d d' : Disk} {P X : Place} {s : String} {c : ByteArray}

/-- A file is at the place, nothing is at its neighbour, and an operating system takes the paths of
both. -/
structure Ready (d : Disk) (P : Place) : Prop where
  file : ∃ c, d.lookup P = some (.file c)
  vacant : d.lookup P.neighbour = none
  walkable : Walkable P.path P
  neighbour : Walkable P.neighbour.path P.neighbour

theorem read_of_lookup (htree : d.IsTree) (hP : P.Named) (hwalkable : Walkable P.path P)
    (h : d.lookup P = some (.file c)) : d.read P.path = .ok c := by
  have hwalks : d.Walks true 40 [] (P.map .name) (.found P (.file c)) :=
    walks_of_reaches (P := []) (htree.reaches h) h nofun hwalkable.short
  rw [read, locate_of_walks hP hwalkable.usable hwalks]

theorem usable_of_rename {p q : Path} (h : d.rename p q = .ok d') : Usable q := by
  rw [rename] at h
  split at h
  · cases h
  · cases h
  · cases h
  · cases h
  · cases h
  · next htarget => exact usable_of_locate htarget
  · next htarget => exact usable_of_locate htarget

/-- What was replaced plainly can be replaced again. -/
theorem ready_of_replace (htree : d.IsTree) (hplain : d.Plain P) (hP : P.Named) (hne : P ≠ [])
    (h : d.replace P.path c = (.ok (), d')) : d'.Ready P := by
  obtain ⟨X, s, rfl⟩ : ∃ (X : Place) (s : String), P = X ++ [s] :=
    (List.eq_nil_or_concat' P).resolve_left hne
  have hX : d.Straight X := hplain.straight.of_isPrefix (List.prefix_append X [s])
  have hlink := hplain.neighbour
  rw [Place.neighbour_concat] at hlink
  obtain ⟨d₁, hreplaced⟩ := replace_eq_ok htree hX hP hlink h
  obtain ⟨d₁', d₂, -, hwrite, hrename⟩ := exists_steps_of_replace h
  rw [temporaryPath_path hP] at hwrite
  obtain ⟨r, hlocate, -⟩ := locate_of_write hwrite
  have hwalks := walks_of_locate (named_neighbour hP) hlocate
  have hother : X ++ [temporaryName s] ≠ X ++ [s] := fun heq =>
    temporaryName_ne s (List.singleton_inj.mp (List.append_cancel_left heq))
  refine ⟨⟨c, ?_⟩, ?_, ⟨usable_of_rename hrename, hreplaced.short⟩, ?_⟩
  · rw [hreplaced.lookup_eq, if_pos rfl]
  · rw [Place.neighbour_concat, hreplaced.lookup_eq, if_neg hother, if_pos rfl]
  · rw [Place.neighbour_concat]
    exact ⟨usable_of_locate hlocate, fun t ht => hwalks.short (List.mem_map_of_mem ht)⟩

theorem Ready.exists_replace (h : d.Ready P) (htree : d.IsTree) (hP : P.Named) (c : ByteArray) :
    ∃ d', d.replace P.path c = (.ok (), d') := by
  obtain ⟨⟨c', hfile⟩, hvacant, hwalkable, hneighbour⟩ := h
  obtain ⟨X, s, rfl⟩ : ∃ (X : Place) (s : String), P = X ++ [s] := by
    refine (List.eq_nil_or_concat' P).resolve_left ?_
    rintro rfl
    cases hfile
  rw [Place.neighbour_concat] at hvacant hneighbour
  have hopens : d.Opens X := Reaches.opens_of_concat (htree.reaches hfile)
  have hX : d.Walks true 40 [] (X.map .name) (.found X .dir) :=
    walks_of_opens (P := []) hopens fun t ht => hwalkable.short t (List.mem_append_left [s] ht)
  have hlocate : d.locate true (Place.path (X ++ [temporaryName s])) =
      .ok (.vacant X (temporaryName s)) :=
    locate_of_last (named_neighbour hP) hneighbour.usable hX
      (.vacant (hneighbour.short _ (by simp)) hvacant)
  have hwrite : d.write (Place.path (X ++ [temporaryName s])) c =
      .ok (d.set (X ++ [temporaryName s]) (.file c)) := by
    rw [write, hlocate]
  have hdir : ∀ F, d.Walks true 40 [] (X.map .name) (.found F .dir) → s.utf8ByteSize ≤ 255 →
      d.lookup (F ++ [s]) ≠ some .dir := by
    intro F hF _
    obtain rfl : F = X := (Stands.unique ⟨40, hF⟩ ⟨40, hX⟩).1
    simp [hfile]
  obtain ⟨d', hrename⟩ := exists_rename_of_write hP hwalkable.usable hdir hwrite
  refine ⟨d', ?_⟩
  rw [replace, makeRoomFor_of_opens hP hopens hlocate]
  simp only
  rw [temporaryPath_path hP, hwrite]
  simp only
  rw [hrename]

end Disk

/-- Where a file can be replaced, every write succeeds. -/
theorem World.exists_writeFile_of_ready {κ : Type} {w : World κ} {P : Place}
    (h : w.disk.Ready P) (htree : w.disk.IsTree) (hP : P.Named) (c : ByteArray) :
    ∃ r w', World.writeFile false P.path c w = (.ok r, w') := by
  obtain ⟨x, hfile⟩ := h.file
  have hread : w.disk.read P.path = .ok x := Disk.read_of_lookup htree hP h.walkable hfile
  by_cases hsame : contentHash x = contentHash c
  · exact ⟨_, _, World.writeFile_of_has ⟨x, hread, hsame⟩⟩
  · obtain ⟨d', hreplace⟩ := h.exists_replace htree hP c
    have hlacks : w.disk.Lacks P.path c := .inr ⟨x, hread, hsame⟩
    rw [World.writeFile_of_lacks hlacks, World.writeFile.change, if_neg Bool.false_ne_true,
      hreplace]
    exact ⟨_, _, rfl⟩

end StagedCodegen
