import Mathlib.Data.List.Infix
import StagedCodegen.Proofs.CommandLine.Repetition
import StagedCodegen.Proofs.Writes.Sequence
import StagedCodegen.Proofs.Writes.Stopping
import StagedCodegen.Proofs.Writes.Summaries

/-!
# How a summary lists files

A record holds the path of the place that a file has gone to. A summary takes the components of the
workspace away from it, as they are spelled, and shows the whole path if they do not come first
(`Presentation.shown_cases`). So a file is listed from the workspace on just if the workspace is
spelled as the path of its own place (`Presentation.listsFrom_iff`), which no relative path is
(`Presentation.shown_of_relative`). Whatever is listed stands in the text of the table, line by line
(`Terminal.Table.toList_isInfix_text`).

Main statement: `CommandLine.Context.generate_lists_files`.
-/

namespace StagedCodegen

/-! ## Tables -/

theorem Text.toList_isInfix_joinTexts {x : String} {xs : List String} (h : x ∈ xs) (sep : String) :
    x.toList <:+: (Text.joinTexts sep xs).toList := by
  rw [Text.joinTexts, String.toList_intercalate]
  induction xs with
  | nil => exact absurd h List.not_mem_nil
  | cons y ys ih =>
    rcases ys with _ | ⟨z, zs⟩
    · obtain rfl := List.mem_singleton.mp h
      simp
    · rw [List.map_cons, List.map_cons, List.intercalate_cons_cons, ← List.map_cons]
      rcases List.mem_cons.mp h with rfl | hrest
      · exact ⟨[], _, by simp; rfl⟩
      · exact (ih hrest).trans (List.suffix_append _ _).isInfix

namespace Terminal.Table

theorem toList_isInfix_lineText {cells : List (Nat × String)} {w : Nat} {s : String}
    (h : (w, s) ∈ cells) : s.toList <:+: (lineText cells).toList := by
  have hcell : s.toList <:+: (" " ++ padded w s ++ " ").toList :=
    ⟨[' '], List.replicate (w - Text.width s) ' ' ++ [' '], by simp [padded]⟩
  have hline := Text.toList_isInfix_joinTexts
    (List.mem_map_of_mem (f := fun e : Nat × String => " " ++ padded e.1 e.2 ++ " ") h) " "
  rw [lineText, String.toList_append, String.toList_append]
  exact List.infix_append_of_infix_left (List.infix_append_of_infix_right (hcell.trans hline))

theorem foldl_max_of_mem {ns : List Nat} {n : Nat} (h : n ∈ ns) (m : Nat) :
    n ≤ ns.foldl max m := by
  rw [List.foldl_max]
  exact (List.le_max?_getD_of_mem h).trans (Nat.le_max_right _ _)

theorem length_maxima (xs ys : List Nat) : (maxima xs ys).length = max xs.length ys.length := by
  fun_induction maxima xs ys <;> simp_all

/-- There is a width for every cell of a row. -/
theorem length_le_widths {t : Table} {row : List String} (h : row ∈ t.rows) :
    row.length ≤ t.widths.length := by
  have hall : ∀ (rows : List (List String)) (ws : List Nat),
      ws.length ≤ (rows.foldl (fun ws row => maxima ws (row.map cellWidth)) ws).length ∧
      ∀ row ∈ rows, row.length ≤
        (rows.foldl (fun ws row => maxima ws (row.map cellWidth)) ws).length := by
    intro rows
    induction rows with
    | nil => exact fun ws => ⟨Nat.le_refl _, fun row h => absurd h List.not_mem_nil⟩
    | cons first rows ih =>
      intro ws
      obtain ⟨hfirst, hrows⟩ := ih (maxima ws (first.map cellWidth))
      rw [length_maxima, List.length_map] at hfirst
      rw [List.foldl_cons]
      exact ⟨by omega, List.forall_mem_cons.mpr ⟨by omega, hrows⟩⟩
  exact (hall (t.header :: t.rows) []).2 row (List.mem_cons_of_mem _ h)

/-- Every line of every cell stands in the text of a table. -/
theorem toList_isInfix_text {t : Table} {row : List String} {cell l : String} (hrow : row ∈ t.rows)
    (hcell : cell ∈ row) (hl : l ∈ cellLines cell) : l.toList <:+: t.text.toList := by
  obtain ⟨j, hj, rfl⟩ := List.mem_iff_getElem.mp hcell
  obtain ⟨i, hi, rfl⟩ := List.mem_iff_getElem.mp hl
  have hheight : (cellLines row[j]).length ≤
      ((row.map cellLines).map List.length).foldl max 1 :=
    foldl_max_of_mem (List.mem_map_of_mem (List.mem_map_of_mem hcell)) 1
  have hwidth : j < t.widths.length := Nat.lt_of_lt_of_le hj (length_le_widths hrow)
  have hzip : (t.widths[j], (cellLines row[j])[i]) ∈
      t.widths.zip ((row.map cellLines).map fun ls => (ls[i]?).getD "") := by
    refine List.mem_iff_getElem.mpr ⟨j, by simp [hj, hwidth], ?_⟩
    simp [hi]
  have hline : lineText (t.widths.zip ((row.map cellLines).map fun ls => (ls[i]?).getD "")) ∈
      t.lines := by
    refine List.mem_append_left _ (List.mem_append_right _ (List.mem_flatMap.mpr ⟨row, hrow, ?_⟩))
    exact List.mem_map.mpr ⟨i, List.mem_range.mpr (Nat.lt_of_lt_of_le hi hheight), rfl⟩
  exact (toList_isInfix_lineText hzip).trans (Text.toList_isInfix_joinTexts hline "\n")

end Terminal.Table

/-! ## Paths from a root -/

namespace Place

variable {P Y Z : Place} {root : Path}

/-- The path that goes on by these names. -/
def onward (Z : Place) : Path := ⟨String.ofList (Text.joinWith ['/'] Z.pieces)⟩

theorem moves_onward (h : Z.Named) : Z.onward.moves = Z.pieces.map .name := by
  rw [Path.moves, onward, String.toList_ofList]
  by_cases hne : Z = []
  · subst hne
    rfl
  · rw [split_joinWith_pieces h hne, Path.pieceComponents_of_names h.pieces]

theorem isAbsolute_onward (h : Z.Named) : Z.onward.isAbsolute = false := by
  rcases Z with _ | ⟨s, Z⟩
  · rfl
  · have hs : Path.IsName s.toList := h s List.mem_cons_self
    obtain ⟨x, xs, hx⟩ := List.exists_cons_of_ne_nil hs.ne_nil
    have hslash : x ≠ '/' := fun heq => hs.slash_notMem (by rw [hx, heq]; exact List.mem_cons_self)
    rw [Path.isAbsolute, onward, String.toList_ofList, pieces, List.map_cons, hx,
      beq_eq_false_iff_ne]
    cases Z <;> simpa [Text.joinWith] using hslash

theorem dropWhile_isIdle_pieces (h : Z.Named) :
    Z.pieces.dropWhile Path.isIdle = Z.pieces := by
  cases Z with
  | nil => rfl
  | cons s Z =>
    have hs : Path.IsName s.toList := h s List.mem_cons_self
    refine List.dropWhile_cons_of_neg ?_
    simp [Path.isIdle, hs.ne_nil, hs.ne_here]

/-- One piece is dropped for every name. -/
theorem foldl_dropPiece (h : (Y ++ Z).Named) :
    (Y.pieces.map Path.Component.name).foldl (fun ps _ => Path.dropPiece ps) (Y ++ Z).pieces =
      Z.pieces := by
  induction Y with
  | nil => rfl
  | cons s Y ih =>
    have hdrop : Path.dropPiece (pieces (s :: Y ++ Z)) = pieces (Y ++ Z) := by
      rw [Path.dropPiece, dropWhile_isIdle_pieces h]
      rfl
    have hfirst : (pieces (s :: Y)).map Path.Component.name =
        .name s.toList :: (pieces Y).map .name := rfl
    rw [hfirst, List.foldl_cons, hdrop]
    exact ih fun t ht => h t (List.mem_cons_of_mem s ht)

/-- What follows the names of a root that is spelled as the path of its place. -/
theorem stripPrefix?_append (h : (Y ++ Z).Named) (hne : Y ++ Z ≠ [])
    (hroot : root.components = Y.path.components) :
    (path (Y ++ Z)).stripPrefix? root = some Z.onward := by
  have hY : Y.Named := h.of_isPrefix (List.prefix_append Y Z)
  have hstarts : (path (Y ++ Z)).startsWith root = true := by
    rw [Path.startsWith, hroot]
    exact startsWith_path h (List.prefix_append Y Z)
  rw [Path.stripPrefix?, hstarts, hroot, components_path hY]
  simp only
  rw [split_path h hne, dropIdleEnd_pieces h, List.drop_one, List.tail_cons, foldl_dropPiece h,
    dropWhile_isIdle_pieces fun s hs => h s (List.mem_append_right Y hs)]
  rfl

/-- What has no components begins every path, and nothing is taken away for it. -/
theorem stripPrefix?_of_isEmpty (h : P.Named) (hne : P ≠ []) (hroot : root.components = []) :
    P.path.stripPrefix? root = some P.path := by
  have htext : P.path.text.isEmpty = false := by
    rw [← Bool.not_eq_true, String.isEmpty_iff]
    intro hempty
    have htext := P.toList_path
    rw [hempty] at htext
    cases htext
  rw [Path.stripPrefix?, Path.startsWith, hroot, List.isPrefixOf_nil_left]
  simp only
  rw [split_path h hne, dropIdleEnd_pieces h, ofPieces_pieces, htext]
  rfl

/-- A root that begins the path of a place has no components, or those of a place above. -/
theorem exists_of_startsWith (h : P.Named) (hroot : P.path.startsWith root = true) :
    root.components = [] ∨ ∃ Y Z, P = Y ++ Z ∧ root.components = Y.path.components := by
  rw [Path.startsWith, List.isPrefixOf_iff_prefix, components_path h] at hroot
  rcases hcomponents : root.components with _ | ⟨c, cs⟩
  · exact .inl rfl
  · rw [hcomponents, List.cons_prefix_cons] at hroot
    obtain ⟨rfl, hcs⟩ := hroot
    refine .inr ⟨P.take cs.length, P.drop cs.length, (List.take_append_drop _ P).symm, ?_⟩
    rw [components_path (h.of_isPrefix (List.take_prefix _ P)), pieces,
      List.map_take, List.map_take]
    exact congrArg (.root :: ·) (List.prefix_iff_eq_take.mp hcs)

/-- From one place, the names of another lead to the place of both. -/
theorem same_join_onward_iff {B : Place} (hB : B.Named) (hZ : Z.Named) (hP : P.Named) :
    (B.path.join Z.onward).same P.path = true ↔ B ++ Z = P := by
  have habsolute : (B.path.join Z.onward).isAbsolute = true := by
    rw [Path.isAbsolute_join (isAbsolute_onward hZ), isAbsolute_path]
  have hmoves : (B.path.join Z.onward).moves = (pieces (B ++ Z)).map .name := by
    rw [Path.moves_join (isAbsolute_onward hZ), moves_path hB, moves_onward hZ, pieces, pieces,
      ← List.map_append, ← List.map_append]
    rfl
  rw [Path.same_iff, Path.components_of_isAbsolute habsolute, hmoves, components_path hP]
  exact ⟨fun h => eq_of_names (List.cons.inj h).2, fun h => by rw [h]⟩

end Place

/-! ## Records in a summary -/

namespace Presentation

open Terminal (Table)

variable {root : Path} {r : WriteRecord} {rs : List WriteRecord}

/-- The path by which a record is listed. -/
def shown (root : Path) (r : WriteRecord) : Path := (r.path.stripPrefix? root).getD r.path

/-- Every record has its line in a summary. -/
theorem toList_isInfix_generated (hr : r ∈ rs) (ds : List Diagnostic) (dryRun : Bool) {l : String}
    (hl : l ∈ Table.cellLines (shown root r).text) :
    l.toList <:+: (generated (.ofRecords rs) ds root dryRun).toList := by
  have hrow : [(shown root r).text, statusCell r, String.ofList (r.hash.toList.take 12)] ∈
      (recordTable root rs).rows := List.mem_map.mpr ⟨r, hr, rfl⟩
  have htable := Table.toList_isInfix_text hrow List.mem_cons_self hl
  have hsome : (WriteSummary.ofRecords rs).isEmpty = false := by
    rw [WriteSummary.isEmpty, List.isEmpty_eq_false_iff_exists_mem]
    exact ⟨r, hr⟩
  have hrecords : (WriteSummary.ofRecords rs).records = rs := rfl
  rw [generated, hsome, if_neg Bool.false_ne_true, hrecords]
  simp only [String.toList_append]
  -- the table stands between the heading and the counts
  refine List.infix_append_of_infix_left (List.infix_append_of_infix_left ?_)
  exact List.infix_append_of_infix_right (List.infix_append_of_infix_left htable)

/-- The record is listed by the path on which its file is, from this directory on. -/
def ListsFrom (b root : Path) (r : WriteRecord) : Prop :=
  (shown root r).isAbsolute = false ∧ (b.join (shown root r)).same r.path = true

variable {B P : Place}

/-- What a record is listed by. -/
theorem shown_cases (root : Path) (hP : P.Named) (hne : P ≠ []) (hr : r.path = P.path) :
    shown root r = r.path ∨
      ∃ Y Z, P = Y ++ Z ∧ root.components = Y.path.components ∧ shown root r = Z.onward := by
  rw [shown, hr]
  by_cases hstarts : P.path.startsWith root = true
  · rcases Place.exists_of_startsWith hP hstarts with hempty | ⟨Y, Z, rfl, hroot⟩
    · rw [Place.stripPrefix?_of_isEmpty hP hne hempty]
      exact .inl rfl
    · rw [Place.stripPrefix?_append hP hne hroot]
      exact .inr ⟨Y, Z, rfl, hroot, rfl⟩
  · rw [Path.stripPrefix?, Bool.not_eq_true _ |>.mp hstarts]
    exact .inl rfl

/-- A record is listed from a place on just if the root is spelled as this place. -/
theorem listsFrom_iff (hP : P.Named) (hne : P ≠ []) (hr : r.path = P.path) (hBP : B <+: P) :
    ListsFrom B.path root r ↔ root.same B.path = true := by
  have hB : B.Named := hP.of_isPrefix hBP
  rw [Path.same_iff]
  constructor
  · rintro ⟨hrelative, hsame⟩
    rcases shown_cases root hP hne hr with hshown | ⟨Y, Z, rfl, hroot, hshown⟩
    · rw [hshown, hr, Place.isAbsolute_path] at hrelative
      cases hrelative
    · have hZ : Z.Named := fun s hs => hP s (List.mem_append_right Y hs)
      rw [hshown, hr, Place.same_join_onward_iff hB hZ hP] at hsame
      rw [hroot, List.append_cancel_right hsame]
  · intro hroot
    obtain ⟨Z, rfl⟩ := hBP
    have hZ : Place.Named Z := fun s hs => hP s (List.mem_append_right B hs)
    have hshown : shown root r = Place.onward Z := by
      rw [shown, hr, Place.stripPrefix?_append hP hne hroot]
      rfl
    rw [ListsFrom, hshown, hr, Place.same_join_onward_iff hB hZ hP]
    exact ⟨Place.isAbsolute_onward hZ, rfl⟩

/-- From a relative root, every record is listed by the path of its file from the root directory
on. -/
theorem shown_of_relative (hP : P.Named) (hne : P ≠ []) (hr : r.path = P.path)
    (hroot : root.isAbsolute = false) : shown root r = r.path := by
  rcases shown_cases root hP hne hr with hshown | ⟨Y, Z, rfl, hcomponents, -⟩
  · exact hshown
  · have hY : Y.Named := hP.of_isPrefix (List.prefix_append Y Z)
    rw [Place.components_path hY] at hcomponents
    rw [Path.isAbsolute_of_components hcomponents] at hroot
    cases hroot

end Presentation

/-! ## Records of what is applied -/

section Records

variable {κ : Type} {dryRun : Bool} {root : Path} {w w' : World κ} {rs : List WriteRecord}

theorem FileWriter.path_of_writeAll {xs : List (Path × ByteArray)}
    (h : (diskWriter dryRun).writeAll xs w = (.ok rs, w')) : rs.map (·.path) = xs.map (·.1) := by
  induction xs generalizing w rs with
  | nil =>
    cases h
    rfl
  | cons x xs ih =>
    obtain ⟨r, rs', v, hwrite, hrest, rfl⟩ := writeAll_cons_eq_ok h
    rw [List.map_cons, List.map_cons, ih hrest, (World.record_of_writeFile hwrite).1]

/-- After writes were applied, a new writer has a record for each of their targets, and no other. -/
theorem records_of_apply {writes : List QueuedWrite} (hnone : w.records = [])
    (h : (diskWriter dryRun).apply root writes w = (.ok rs, w')) :
    ∃ files, targets w.disk root writes = .ok files ∧
      WriteRecord.keys w'.records = (files.map Path.components).eraseDups ∧
      ∀ r ∈ w'.records, r.path ∈ files := by
  rw [FileWriter.apply] at h
  split at h
  · cases h
  next files hfiles =>
  obtain ⟨ts, rfl, hcontents, -⟩ := exists_places_of_targets hfiles
  rw [← hcontents, List.zip_map'] at h
  have hpaths : rs.map (·.path) = ts.map (·.1.path) := by
    rw [FileWriter.path_of_writeAll h, List.map_map]
    rfl
  have hrecords := (FileWriter.remembers_diskWriter dryRun).writeAll h
  rw [hnone] at hrecords
  have hkeys : WriteRecord.keys w'.records = (WriteRecord.keys rs).eraseDups := by
    rw [hrecords, WriteRecord.keys_foldl_remember]
  refine ⟨_, hfiles, ?_, fun r hr => ?_⟩
  · rw [hkeys, WriteRecord.keys, ← hpaths, List.map_map]
    rfl
  · have hfound := WriteRecord.find?_of_nodup_keys (hkeys ▸ nodup_eraseDups _) hr
    rw [hrecords, WriteRecord.find?_foldl_remember] at hfound
    rw [← hpaths]
    exact List.mem_map_of_mem (List.mem_filter.mp (List.mem_of_getLast? hfound)).1

/-- What leads anywhere below a root is below the place of that root. -/
theorem exists_boundary_of_targets {d : Disk} {writes : List QueuedWrite} {files : List Path}
    (h : targets d root writes = .ok files) (hne : files ≠ []) : ∃ B : Place, B.Named ∧
      d.canonicalBoundary root = .ok B.path ∧
      ∀ p ∈ files, ∃ P : Place, P.Named ∧ P ≠ [] ∧ p = P.path ∧ B <+: P := by
  cases writes with
  | nil =>
    cases h
    exact absurd rfl hne
  | cons q writes =>
    obtain ⟨p, -, hp, -, -⟩ := targets_cons_eq_ok h
    obtain ⟨b, hb, -, -⟩ := Disk.resolveWithin_ok_iff.mp hp
    obtain ⟨B, hB, rfl⟩ := Disk.exists_place_of_resolveExisting hb
    refine ⟨B, hB, hb, fun p hp => ?_⟩
    obtain ⟨ts, rfl, -, hnamed⟩ := exists_places_of_targets h
    obtain ⟨t, ht, rfl⟩ := List.mem_map.mp hp
    obtain ⟨hP, hne⟩ := hnamed t ht
    have hbelow := strictlyBelow_of_targets hb h _ hp
    exact ⟨t.1, hP, hne, rfl, ((Disk.strictlyBelow_path_iff hP hB).mp hbelow).1⟩

end Records

/-! ## Generations -/

namespace CommandLine.Context

open Presentation (shown ListsFrom)
open Terminal (Table)

variable {c : Context} {d : Disk} {dryRun : Bool} {text : String} {s : Session Unit}

/-- The files that a generation produces: those that what its pipeline queues leads to. -/
def Produces (c : Context) (d : Disk) (dryRun : Bool) (files : List Path) : Prop :=
  ∃ previous p r t, PreviousFiles.load d c.manifest = .ok previous ∧
    c.pipeline (diskWriter (c.isDry dryRun)) = .ok p ∧
    p.run (c.options previous) (sessionOn d).world = (.ok r, t) ∧
    targets d c.workspace r.writes = .ok files

/-- A generation has a record for each of the files that it produces, of which there is always one,
and its text is that of these records. -/
theorem exists_produces (h : c.generate dryRun (sessionOn d) = (.ok text, s)) :
    ∃ files ds, c.Produces d dryRun files ∧ files ≠ [] ∧
      WriteRecord.keys s.world.records = (files.map Path.components).eraseDups ∧
      (∀ r ∈ s.world.records, r.path ∈ files) ∧
      text = Presentation.generated (.ofRecords s.world.records) ds c.workspace
        (c.isDry dryRun) := by
  obtain ⟨-, previous, r, t, rs, hload, hrun, happly, htext⟩ := exists_run_of_generate h
  have hdisk : t.world.disk = d :=
    Pipeline.view_of_run rfl rfl (Core.helpersSpare (fun _ _ => rfl) rfl) hrun
  have hnone : t.world.records = [] :=
    Pipeline.view_of_run rfl rfl (Core.helpersSpare (fun _ _ => rfl) rfl) hrun
  obtain ⟨files, hfiles, hkeys, hmem⟩ := records_of_apply hnone happly
  rw [hdisk] at hfiles
  refine ⟨files, r.diagnostics, ⟨previous, _, r, t, hload, pipeline_eq c _, hrun, hfiles⟩, ?_,
    hkeys, hmem, htext⟩
  rintro rfl
  -- the list is always queued
  obtain ⟨names, list, -, -, hwrites⟩ := Core.exists_queue_of_run rfl
    (List.forall_mem_singleton.mpr (Adapters.keepsPlan_of_nil rfl)) hrun
  obtain ⟨ts, hts, hcontents, -⟩ := exists_places_of_targets hfiles
  rw [List.map_eq_nil_iff.mp hts.symm, hwrites, List.map_append] at hcontents
  simp at hcontents

/-- **How a summary lists files.** Whatever the workspace is, and whatever a generation that
succeeds writes or, dry, would write: it produces something, and it has one record for each file
that it produces, which its text lists by some path. That path leads from the workspace to the file
just if the workspace is spelled as the path of its place, without links and from the root directory
on. If the workspace is spelled from the current directory on, all files are listed by the paths of
their places. -/
theorem generate_lists_files (h : c.generate dryRun (sessionOn d) = (.ok text, s)) :
    ∃ files b, c.Produces d dryRun files ∧ files ≠ [] ∧ d.canonicalBoundary c.workspace = .ok b ∧
      WriteRecord.keys s.world.records = (files.map Path.components).eraseDups ∧
      ∀ r ∈ s.world.records, r.path ∈ files ∧ Disk.strictlyBelow r.path b = true ∧
        (∀ l ∈ Table.cellLines (shown c.workspace r).text, l.toList <:+: text.toList) ∧
        (ListsFrom b c.workspace r ↔ c.workspace.same b = true) ∧
        (c.workspace.isAbsolute = false →
          shown c.workspace r = r.path ∧ r.path.isAbsolute = true) := by
  obtain ⟨files, ds, hproduces, hne, hkeys, hmem, rfl⟩ := exists_produces h
  obtain ⟨previous, p, r, t, -, -, -, hfiles⟩ := id hproduces
  obtain ⟨B, hB, hboundary, hplaces⟩ := exists_boundary_of_targets hfiles hne
  refine ⟨files, B.path, hproduces, hne, hboundary, hkeys, fun r hr => ?_⟩
  obtain ⟨P, hP, hPne, hpath, hBP⟩ := hplaces r.path (hmem r hr)
  refine ⟨hmem r hr, strictlyBelow_of_targets hboundary hfiles _ (hmem r hr),
    fun l hl => Presentation.toList_isInfix_generated hr ds _ hl,
    Presentation.listsFrom_iff hP hPne hpath hBP, fun hrelative => ⟨?_, ?_⟩⟩
  · exact Presentation.shown_of_relative hP hPne hpath hrelative
  · rw [hpath, P.isAbsolute_path]

/-- In a directory with nothing in it, whose path is that of its place, files are listed from this
directory on. -/
theorem generate_lists_files_newRoom : ∃ text s files,
    library.generate false (sessionOn newRoom) = (.ok text, s) ∧
      library.Produces newRoom false files ∧ files ≠ [] ∧
      WriteRecord.keys s.world.records = (files.map Path.components).eraseDups ∧
      ∀ r ∈ s.world.records, ListsFrom library.workspace library.workspace r := by
  obtain ⟨text, s, hrun⟩ := exists_generate_newRoom
  obtain ⟨files, b, hproduces, hne, hb, hkeys, hlists⟩ := generate_lists_files hrun
  have hboundary : newRoom.canonicalBoundary library.workspace = .ok library.workspace :=
    Disk.resolveExisting_path regular_library.named linkFree_newRoom.opens.straight.clear
      (Place.compose_path regular_library.composed)
  obtain rfl := Except.ok.inj (hboundary.symm.trans hb)
  refine ⟨text, s, files, hrun, hproduces, hne, hkeys, fun r hr => ?_⟩
  obtain ⟨-, -, -, hfrom, -⟩ := hlists r hr
  exact hfrom.mpr (Path.same_iff.mpr rfl)

/-! ## The current directory -/

/-- A directory with nothing in it, from which paths are seen. -/
def inside : Disk := ⟨[(["w"], .dir)], ["w"]⟩

/-- The workspace is the current directory. -/
def here : Context := { linked with workspace := ⟨"."⟩ }

/-- The place of the list in this directory. -/
def listPlace : Place := ["w", "generated", "manifest.json"]

theorem exists_generate_here : ∃ text s, here.generate false (sessionOn inside) = (.ok text, s) ∧
    s.world.records.map (·.path) = [listPlace.path] := by
  have hrun : ((here.generate false (sessionOn inside)).1.isOk && decide
      ((here.generate false (sessionOn inside)).2.world.records.map (·.path) =
        [listPlace.path])) = true := by
    simp only [generate, pipeline_eq, Pipeline.run, Pipeline.stages, Attempt.bind_apply,
      Attempt.ofExcept, runFragments_of_schedule Core.schedule_registry, Pipeline.finish,
      runBuilders, Core.builders_registry]
    decide +kernel
  generalize here.generate false (sessionOn inside) = done at hrun
  obtain ⟨hok, hpaths⟩ := (Bool.and_eq_true _ _).mp hrun
  rcases done with ⟨f | text, s⟩
  · cases hok
  · exact ⟨text, s, rfl, of_decide_eq_true hpaths⟩

/-- The only file is listed by its path from the root directory on. -/
theorem absolute_path_is_listed : ∃ text s r,
    here.generate false (sessionOn inside) = (.ok text, s) ∧ s.world.records = [r] ∧
      shown here.workspace r = ⟨"/w/generated/manifest.json"⟩ ∧
      "/w/generated/manifest.json".toList <:+: text.toList := by
  obtain ⟨text, s, hrun, hpaths⟩ := exists_generate_here
  obtain ⟨files, ds, -, -, -, -, htext⟩ := exists_produces hrun
  obtain ⟨r, hr, hpath⟩ : ∃ r, s.world.records = [r] ∧ r.path = listPlace.path := by
    rcases hrecords : s.world.records with _ | ⟨r, _ | ⟨r', rs⟩⟩ <;> simp_all
  have hnamed : listPlace.Named := by decide
  have hshown : shown here.workspace r = listPlace.path :=
    (Presentation.shown_of_relative hnamed (by decide) hpath (by decide)).trans hpath
  have hlines : listPlace.path.text ∈ Table.cellLines (shown here.workspace r).text := by
    rw [hshown]
    decide +kernel
  refine ⟨text, s, r, hrun, hr, hshown, ?_⟩
  rw [htext, hr]
  exact Presentation.toList_isInfix_generated List.mem_cons_self ds _ hlines

end CommandLine.Context

end StagedCodegen
