import StagedCodegen.Writes

/-!
# What comes of one write

Before a file is written it is read. Either its contents have the digest of what is to be written
already (`Disk.Has`), or they have another one or there is nothing (`Disk.Lacks`), or it cannot be
known what is there (`Disk.Refuses`). Only in the second case is more done: a dry run says that the
write is skipped, and a real run replaces the file.

Main statement: `World.writing_of_eq`, by which `World.Writing` has a case for each end of a write.
-/

namespace StagedCodegen

namespace Disk

variable {d : Disk} {p : Path} {c : ByteArray}

/-- Nothing is written to a path: what it leads to cannot be read, though not because there is
nothing. -/
def Refuses (d : Disk) (p : Path) : Prop := ∃ e, d.read p = .error e ∧ e.kind ≠ .notFound

/-- The path leads to contents with the digest. -/
def Has (d : Disk) (p : Path) (c : ByteArray) : Prop :=
  ∃ x, d.read p = .ok x ∧ contentHash x = contentHash c

/-- The path leads to other contents, or to where nothing is. -/
def Lacks (d : Disk) (p : Path) (c : ByteArray) : Prop :=
  (∃ e, d.read p = .error e ∧ e.kind = .notFound) ∨
    ∃ x, d.read p = .ok x ∧ contentHash x ≠ contentHash c

theorem Lacks.not_refuses (h : d.Lacks p c) : ¬d.Refuses p := by
  rintro ⟨e, hread, hkind⟩
  rcases h with ⟨e', hread', hkind'⟩ | ⟨x, hread', -⟩
  · cases hread.symm.trans hread'
    exact hkind hkind'
  · cases hread.symm.trans hread'

end Disk

variable {κ : Type} {dryRun : Bool} {w w' : World κ} {p : Path} {c : ByteArray} {r : WriteRecord}

namespace World

/-! ## The three cases -/

theorem writeFile_of_has (h : w.disk.Has p c) :
    writeFile dryRun p c w = w.noted ⟨p, .unchanged, contentHash c, none⟩ := by
  obtain ⟨x, hread, hsame⟩ := h
  unfold writeFile
  simp only [hread, if_pos hsame]

theorem writeFile_of_lacks (h : w.disk.Lacks p c) :
    writeFile dryRun p c w = writeFile.change dryRun p c w (contentHash c) := by
  unfold writeFile
  rcases h with ⟨e, hread, hkind⟩ | ⟨x, hread, hother⟩
  · simp only [hread, if_pos hkind]
  · simp only [hread, if_neg hother]

theorem writeFile_of_error {e : IoError} (h : w.disk.read p = .error e)
    (hkind : e.kind ≠ .notFound) : writeFile dryRun p c w = (.error (.io p e), w) := by
  unfold writeFile
  simp only [h, if_neg hkind]

/-- What can come of a write, and what it leaves. -/
inductive Writing (p : Path) (c : ByteArray) (w : World κ) :
    Bool → Except Failure WriteRecord → World κ → Prop where
  /-- It cannot be known what is there. -/
  | refused {dryRun : Bool} {e : IoError} (read : w.disk.read p = .error e)
      (kind : e.kind ≠ .notFound) : Writing p c w dryRun (.error (.io p e)) w
  /-- The contents are there already. -/
  | unchanged {dryRun : Bool} {r : WriteRecord} (has : w.disk.Has p c)
      (record : r = ⟨p, .unchanged, contentHash c, none⟩) :
      Writing p c w dryRun (.ok r) { w with records := remember r w.records }
  /-- A dry run would write them. -/
  | skipped {r : WriteRecord} (lacks : w.disk.Lacks p c)
      (record : r = ⟨p, .skipped, contentHash c, some "dry-run"⟩) :
      Writing p c w true (.ok r) { w with records := remember r w.records }
  /-- The file is replaced. -/
  | written {d : Disk} {r : WriteRecord} (lacks : w.disk.Lacks p c)
      (replace : w.disk.replace p c = (.ok (), d))
      (record : r = ⟨p, .written, contentHash c, none⟩) :
      Writing p c w false (.ok r) { w with disk := d, records := remember r w.records }
  /-- The file cannot be replaced. -/
  | failed {d : Disk} {f : Failure} (lacks : w.disk.Lacks p c)
      (replace : w.disk.replace p c = (.error f, d)) :
      Writing p c w false (.error f) { w with disk := d }

theorem writing_of_lacks {result : Except Failure WriteRecord} (hlacks : w.disk.Lacks p c)
    (h : writeFile dryRun p c w = (result, w')) : Writing p c w dryRun result w' := by
  rw [writeFile_of_lacks hlacks, writeFile.change] at h
  cases dryRun with
  | true =>
    cases h
    exact .skipped hlacks rfl
  | false =>
    rw [if_neg Bool.false_ne_true] at h
    rcases hreplace : w.disk.replace p c with ⟨f | ⟨⟩, d⟩ <;> rw [hreplace] at h <;> cases h
    · exact .failed hlacks hreplace
    · exact .written hlacks hreplace rfl

theorem writing_of_eq {result : Except Failure WriteRecord}
    (h : writeFile dryRun p c w = (result, w')) : Writing p c w dryRun result w' := by
  rcases hread : w.disk.read p with e | x
  · by_cases hkind : e.kind = .notFound
    · exact writing_of_lacks (.inl ⟨e, hread, hkind⟩) h
    · cases (writeFile_of_error hread hkind).symm.trans h
      exact .refused hread hkind
  · by_cases hsame : contentHash x = contentHash c
    · cases (writeFile_of_has ⟨x, hread, hsame⟩).symm.trans h
      exact .unchanged ⟨x, hread, hsame⟩ rfl
    · exact writing_of_lacks (.inr ⟨x, hread, hsame⟩) h

/-! ## The record -/

/-- A record is about what was written, and where. -/
theorem record_of_writeFile (h : writeFile dryRun p c w = (.ok r, w')) :
    r.path = p ∧ r.hash = contentHash c := by
  cases writing_of_eq h with
  | unchanged _ record | skipped _ record | written _ _ record =>
    rw [record]
    exact ⟨rfl, rfl⟩

/-- A real run skips nothing. -/
theorem status_of_writeFile (h : writeFile false p c w = (.ok r, w')) : r.status ≠ .skipped := by
  cases writing_of_eq h with
  | unchanged _ record | written _ _ record =>
    rw [record]
    exact WriteStatus.noConfusion

/-- What succeeds is remembered. -/
theorem records_writeFile (dryRun : Bool) (p : Path) (c : ByteArray) (w : World κ) :
    (writeFile dryRun p c w).2.records = match (writeFile dryRun p c w).1 with
      | .ok r => remember r w.records
      | .error _ => w.records := by
  rcases hresult : writeFile dryRun p c w with ⟨result, w'⟩
  cases writing_of_eq hresult with
  | refused | unchanged | skipped | written | failed => rfl

/-- A write that succeeds has read its target, or found nothing there. -/
theorem has_or_lacks (h : writeFile dryRun p c w = (.ok r, w')) :
    w.disk.Has p c ∨ w.disk.Lacks p c := by
  cases writing_of_eq h with
  | unchanged has => exact .inl has
  | skipped lacks | written lacks => exact .inr lacks

end World

/-! ## The tree -/

/-- A write leaves the disk alone or replaces the file. -/
theorem disk_of_writeFile (dryRun : Bool) (p : Path) (c : ByteArray) (w : World κ) :
    (World.writeFile dryRun p c w).2.disk = w.disk ∨
      (World.writeFile dryRun p c w).2.disk = (w.disk.replace p c).2 := by
  rcases hwrite : World.writeFile dryRun p c w with ⟨result, w'⟩
  cases World.writing_of_eq hwrite with
  | refused | unchanged | skipped => exact .inl rfl
  | written _ replace | failed _ replace => exact .inr (by rw [replace])

theorem disk_of_writeFile_of_refuses (h : w.disk.Refuses p) (dryRun : Bool) (c : ByteArray) :
    (World.writeFile dryRun p c w).2.disk = w.disk := by
  obtain ⟨e, hread, hkind⟩ := h
  rw [World.writeFile_of_error hread hkind]

theorem disk_of_writeFile_of_lacks (h : w.disk.Lacks p c) :
    (World.writeFile false p c w).2.disk = (w.disk.replace p c).2 := by
  rw [World.writeFile_of_lacks h, World.writeFile.change, if_neg Bool.false_ne_true]
  rcases w.disk.replace p c with ⟨f | ⟨⟩, d⟩ <;> rfl

theorem disk_of_writeFile_of_notFound {e : IoError} (h : w.disk.read p = .error e)
    (he : e.kind = .notFound) (c : ByteArray) :
    (World.writeFile false p c w).2.disk = (w.disk.replace p c).2 :=
  disk_of_writeFile_of_lacks (.inl ⟨e, h, he⟩)

/-- Where something is written at all, it is written for all contents but those with one digest. -/
theorem exists_disk_of_writeFile (h : ¬w.disk.Refuses p) : ∃ hash, ∀ c, hash ≠ contentHash c →
    (World.writeFile false p c w).2.disk = (w.disk.replace p c).2 := by
  rcases hread : w.disk.read p with e | x
  · by_cases hkind : e.kind = .notFound
    · exact ⟨"", fun c _ => disk_of_writeFile_of_notFound hread hkind c⟩
    · exact absurd ⟨e, hread, hkind⟩ h
  · exact ⟨contentHash x, fun c hc => disk_of_writeFile_of_lacks (.inr ⟨x, hread, hc⟩)⟩

/-- A dry run does not touch the tree. -/
theorem World.disk_writeFile_dryRun (p : Path) (c : ByteArray) (w : World κ) :
    (writeFile true p c w).2.disk = w.disk := by
  rcases hwrite : writeFile true p c w with ⟨result, w'⟩
  cases writing_of_eq hwrite with
  | refused | unchanged | skipped => rfl

end StagedCodegen
