import StagedCodegen.Proofs.FirstOccurrences
import StagedCodegen.Proofs.Writes.Failing

/-!
# What a writer says of its writes

A writer remembers one record for each path, paths being told apart by their components: a record
takes the place of the earlier one of its path, or else comes last (`WriteRecord.keys_remember`,
`WriteRecord.find?_remember`). So after any number of writes it has the record of the last one that
succeeded at each path, in the order in which these paths were first written
(`WriteRecord.keys_foldl_remember`, `WriteRecord.find?_foldl_remember`), whatever has become of the
disk meanwhile.

Main statement: `WriteTurn.summary_of_run`.
-/

namespace StagedCodegen

variable {κ : Type}

theorem Path.same_iff {p q : Path} : p.same q = true ↔ p.components = q.components := beq_iff_eq

/-! ## Remembering -/

namespace WriteRecord

variable {r : WriteRecord} {all : List WriteRecord}

/-- The paths of records, as far as paths are told apart. -/
def keys (rs : List WriteRecord) : List (List Path.Component) := rs.map (·.path.components)

/-- A path that has a record keeps its place, and another one comes last. -/
theorem keys_remember (r : WriteRecord) (all : List WriteRecord) :
    keys (remember r all) =
      if r.path.components ∈ keys all then keys all else keys all ++ [r.path.components] := by
  induction all with
  | nil => rfl
  | cons s all ih =>
    have hmem : r.path.components ∈ keys (s :: all) ↔
        r.path.components = s.path.components ∨ r.path.components ∈ keys all := List.mem_cons
    rw [remember]
    by_cases hsame : s.path.same r.path = true
    · have hkey : s.path.components = r.path.components := Path.same_iff.mp hsame
      rw [if_pos hsame, if_pos (hmem.mpr (.inl hkey.symm)), keys, keys, List.map_cons,
        List.map_cons, hkey]
    · have hcons : keys (s :: remember r all) = s.path.components :: keys (remember r all) := rfl
      have hne : r.path.components ≠ s.path.components := fun h => hsame (Path.same_iff.mpr h.symm)
      rw [if_neg hsame, hcons, ih]
      simp only [hmem, hne, false_or]
      split <;> rfl

/-- The record that was remembered last counts for its path. -/
theorem find?_remember (r : WriteRecord) (all : List WriteRecord) (p : Path) :
    (remember r all).find? (·.path.same p) =
      if r.path.same p then some r else all.find? (·.path.same p) := by
  induction all with
  | nil =>
    rw [remember, List.find?_singleton]
    rfl
  | cons s all ih =>
    rw [remember]
    by_cases hsame : s.path.same r.path = true
    · have hkey : s.path.same p = r.path.same p := by
        rw [Path.same, Path.same, Path.same_iff.mp hsame]
      rw [if_pos hsame, List.find?_cons, List.find?_cons, hkey]
      cases r.path.same p <;> rfl
    · rw [if_neg hsame, List.find?_cons, List.find?_cons, ih]
      cases hs : s.path.same p with
      | false => rfl
      | true =>
        have hr : r.path.same p ≠ true := fun hr =>
          hsame (Path.same_iff.mpr ((Path.same_iff.mp hs).trans (Path.same_iff.mp hr).symm))
        exact (if_neg hr).symm

/-- Each path has its place from the first record of it. -/
theorem keys_foldl_remember (rs : List WriteRecord) :
    keys (rs.foldl (fun all r => remember r all) []) = (keys rs).eraseDups := by
  induction rs using List.reverseRecOn with
  | nil => rfl
  | append_singleton rs r ih =>
    have hconcat : keys (rs ++ [r]) = keys rs ++ [r.path.components] := List.map_append
    rw [List.foldl_append, List.foldl_cons, List.foldl_nil, keys_remember, ih, hconcat,
      eraseDups_concat]
    simp only [List.mem_eraseDups]

/-- The last record of a path counts. -/
theorem find?_foldl_remember (rs : List WriteRecord) (p : Path) :
    (rs.foldl (fun all r => remember r all) []).find? (·.path.same p) =
      (rs.filter (·.path.same p)).getLast? := by
  induction rs using List.reverseRecOn with
  | nil => rfl
  | append_singleton rs r ih =>
    rw [List.foldl_append, List.foldl_cons, List.foldl_nil, find?_remember, ih,
      List.filter_append, List.filter_singleton]
    cases r.path.same p
    · rw [if_neg Bool.false_ne_true, cond_false, List.append_nil]
    · rw [if_pos rfl, cond_true, List.getLast?_concat]

/-- Records of different paths are found by their paths. -/
theorem find?_of_nodup_keys (h : (keys all).Nodup) (hr : r ∈ all) :
    all.find? (·.path.same r.path) = some r := by
  induction all with
  | nil => exact absurd hr List.not_mem_nil
  | cons s all ih =>
    obtain ⟨hs, hall⟩ := List.nodup_cons.mp h
    rw [List.find?_cons]
    rcases List.mem_cons.mp hr with rfl | hr
    · rw [Path.same_iff.mpr rfl]
    · have hne : s.path.same r.path = false := by
        rw [← Bool.not_eq_true, Path.same_iff]
        intro hkey
        exact hs (List.mem_map.mpr ⟨r, hr, hkey.symm⟩)
      rw [hne, ih hall hr]

end WriteRecord

/-- Every record counts for one thing. -/
theorem WriteSummary.counts_ofRecords (rs : List WriteRecord) :
    (ofRecords rs).written + (ofRecords rs).unchanged + (ofRecords rs).skipped = rs.length := by
  induction rs with
  | nil => rfl
  | cons r rs ih =>
    simp only [ofRecords] at ih ⊢
    cases hstatus : r.status <;> simp [hstatus] <;> omega

/-! ## One write after another -/

/-- A write through a writer, before which others have changed the disk. -/
structure WriteTurn where
  /-- What others do to the disk. -/
  meanwhile : Disk → Disk
  /-- Where the write goes. -/
  path : Path
  /-- What is written. -/
  contents : ByteArray

namespace WriteTurn

/-- Do the write of a turn. -/
def write (dryRun : Bool) (t : WriteTurn) : Act (World κ) WriteRecord := fun w =>
  (diskWriter dryRun).write t.path t.contents { w with disk := t.meanwhile w.disk }

/-- Do the writes of some turns, whether those before have succeeded or not. -/
def run (dryRun : Bool) (ts : List WriteTurn) :
    World κ → List (Except Failure WriteRecord) × World κ :=
  Attempt.each (ts.map (write dryRun))

/-- The records of the writes that have succeeded, in their order. -/
def successes (results : List (Except Failure WriteRecord)) : List WriteRecord :=
  results.filterMap Except.toOption

/-- What succeeds is remembered, and nothing else. -/
theorem records_write (dryRun : Bool) (t : WriteTurn) (w : World κ) :
    (t.write dryRun w).2.records = match (t.write dryRun w).1 with
      | .ok r => remember r w.records
      | .error _ => w.records :=
  World.records_writeFile dryRun t.path t.contents { w with disk := t.meanwhile w.disk }

theorem records_run (dryRun : Bool) (ts : List WriteTurn) (w : World κ) :
    (run dryRun ts w).2.records =
      (successes (run dryRun ts w).1).foldl (fun all r => remember r all) w.records := by
  induction ts generalizing w with
  | nil => rfl
  | cons t ts ih =>
    have hrun : run dryRun (t :: ts) w =
        ((t.write dryRun w).1 :: (run dryRun ts (t.write dryRun w).2).1,
          (run dryRun ts (t.write dryRun w).2).2) := rfl
    have hrecords := records_write dryRun t w
    rw [hrun]
    simp only
    rw [ih, hrecords]
    cases (t.write dryRun w).1 <;> rfl

/-- Every turn has its result, and that of a write that has succeeded is about this write. -/
theorem forall₂_run (dryRun : Bool) (ts : List WriteTurn) (w : World κ) :
    List.Forall₂ (fun t result => ∀ r, result = .ok r →
      r.path = t.path ∧ r.hash = contentHash t.contents) ts (run dryRun ts w).1 := by
  induction ts generalizing w with
  | nil => exact .nil
  | cons t ts ih =>
    refine .cons (fun r hr => ?_) (ih (t.write dryRun w).2)
    exact World.record_of_writeFile (Prod.ext hr rfl)

/-- **What a writer says of its writes.** However many writes go through a new writer, dry or not,
whatever others do to the disk between them and whichever of them fail, its summary has one record
for each path at which a write has succeeded, in the order in which they were first written, and
this is the record of the last write that has succeeded there. The counts add up to the number of
records, and a write that fails leaves the summary as it is. -/
theorem summary_of_run (dryRun : Bool) (ts : List WriteTurn) (d : Disk) (ds : List Diagnostic)
    (k : κ) :
    let results := (run dryRun ts (⟨d, ds, [], k⟩ : World κ)).1
    let summary := (run dryRun ts (⟨d, ds, [], k⟩ : World κ)).2.summary
    List.Forall₂ (fun t result => ∀ r, result = .ok r →
      r.path = t.path ∧ r.hash = contentHash t.contents) ts results ∧
    WriteRecord.keys summary.records = (WriteRecord.keys (successes results)).eraseDups ∧
    (∀ r ∈ summary.records, summary.record? r.path = some r) ∧
    (∀ p, summary.record? p = ((successes results).filter (·.path.same p)).getLast?) ∧
    summary.written + summary.unchanged + summary.skipped = summary.records.length ∧
    ∀ (t : WriteTurn) (w w' : World κ) (f : Failure),
      t.write dryRun w = (.error f, w') → w'.summary = w.summary := by
  intro results summary
  have hrecords : summary.records =
      (successes results).foldl (fun all r => remember r all) [] := records_run dryRun ts _
  have hkeys : WriteRecord.keys summary.records =
      (WriteRecord.keys (successes results)).eraseDups := by
    rw [hrecords, WriteRecord.keys_foldl_remember]
  have hnodup : (WriteRecord.keys summary.records).Nodup := by
    rw [hkeys]
    exact nodup_eraseDups _
  refine ⟨forall₂_run dryRun ts _, hkeys, fun r hr => WriteRecord.find?_of_nodup_keys hnodup hr,
    fun p => ?_, WriteSummary.counts_ofRecords _, fun t w w' f h => ?_⟩
  · rw [WriteSummary.record?, hrecords, WriteRecord.find?_foldl_remember]
  · have hsame := records_write dryRun t w
    rw [h] at hsame
    exact congrArg WriteSummary.ofRecords hsame

end WriteTurn

end StagedCodegen
