import StagedCodegen.Proofs.Writes.Held

/-!
# Writing directly

A directory is left by what is written inside it just if something is not written directly. At and
below a directory without links everything is, whatever was written before it
(`Sandbox.direct_of_linkFree`, `FileWriter.direct_of_linkFree`), and links that stand elsewhere make
no difference. But the neighbour of a file is written through whatever link stands there, so that a
file outside can be written instead (`commit_through_link`).

Main statement: `writes_keep_outside`, for the files of a sandbox and for queued writes.
-/

namespace StagedCodegen

variable {κ : Type} {w w' : World κ} {B P : Place} {c : ByteArray} {r : WriteRecord} {ts : Placed}

/-! ## Directories without links -/

/-- The place is strictly inside the other, and the names that lead to it are composed and can be
those of entries. -/
structure Place.Inside (B P : Place) : Prop where
  named : P.Named
  composed : P.Composed
  below : B <+: P
  ne : B ≠ P

namespace Disk

variable {d : Disk}

/-- What is written plainly is written directly. -/
theorem Plain.direct (h : d.Plain P) (hP : B.Inside P) : d.Direct B P.path := by
  obtain ⟨X, s, rfl⟩ : ∃ (X : Place) (s : String), P = X ++ [s] :=
    (List.eq_nil_or_concat' P).resolve_left (Place.ne_nil_of_below hP.below hP.ne)
  have hBX : B <+: X := (List.prefix_concat_iff.mp hP.below).resolve_left hP.ne
  have hX : d.Straight X := h.straight.of_isPrefix (List.prefix_append X [s])
  have hneighbour := h.neighbour
  rw [Place.neighbour_concat] at hneighbour
  have hinside := neighbourInside_of_not_link hX.clear hP.named hBX hneighbour
  exact ⟨reach_eq_self_iff.mpr ⟨_, hP.named, rfl, h.straight.clear⟩,
    Place.compose_path hP.composed, .inr hinside⟩

theorem LinkFree.direct (h : d.LinkFree B) (hP : B.Inside P) : d.Direct B P.path :=
  (h.plain hP.below hP.ne).direct hP

/-- A directory without links has none once something was written inside it. -/
theorem LinkFree.of_writeFile (h : w.disk.LinkFree B) (hP : B.Inside P)
    (hwrite : World.writeFile false P.path c w = (.ok r, w')) : w'.disk.LinkFree B := by
  obtain ⟨hwrote, -⟩ := World.wrote_of_writeFile h.tree (h.plain hP.below hP.ne) hP.named
    (Place.ne_nil_of_below hP.below hP.ne) hwrite
  exact h.steady hwrote.steady hwrote.tree

end Disk

/-- All files of a sandbox go inside a directory without links: they are written directly. -/
theorem Sandbox.direct_of_linkFree {queue : List StagedFile} (h : w.disk.LinkFree B)
    (hqueue : ∀ file ∈ queue, ∃ P, B.Inside P ∧ file.target = P.path) :
    Sandbox.Direct false B.path queue w := by
  induction queue generalizing w with
  | nil => trivial
  | cons file rest ih =>
    obtain ⟨⟨P, hP, htarget⟩, hrest⟩ := List.forall_mem_cons.mp hqueue
    have hBcomposed : B.Composed := fun s hs => hP.composed s (hP.below.subset hs)
    have hrecheck := recheck_path hP.named (h.straight hP.below).clear
      (Place.compose_path hP.composed) (Place.compose_path hBcomposed) hP.below hP.ne
    intro target hfound
    rw [htarget] at hfound
    obtain rfl := Except.ok.inj (hrecheck.symm.trans hfound)
    rw [Place.place_path (hP.named.of_isPrefix hP.below)]
    exact ⟨h.direct hP, fun r w' hwrite => ih (h.of_writeFile hP hwrite) hrest⟩

/-- So are all contents for places inside it. -/
theorem FileWriter.direct_of_linkFree (h : w.disk.LinkFree B) (hts : ∀ t ∈ ts, B.Inside t.1) :
    FileWriter.Direct false B ts.onPaths w := by
  induction ts generalizing w with
  | nil => trivial
  | cons t ts ih =>
    obtain ⟨ht, hts⟩ := List.forall_mem_cons.mp hts
    exact ⟨h.direct ht, fun r w' hwrite => ih (h.of_writeFile ht hwrite) hts⟩

/-- What stands outside is kept, and only directories above are added, when files are written
directly, one after another: the files of a sandbox inside its output directory, queued writes
inside their root. For a single file whose path leads to itself nothing less will do. -/
theorem writes_keep_outside (w : World κ) (htree : w.disk.IsTree) :
    (∀ s : Sandbox, Sandbox.Direct false s.outputDir s.queue w →
      w.disk.KeptOutside (s.commit (diskWriter false) w).2.2.disk s.outputDir.place) ∧
    (∀ root b writes, w.disk.canonicalBoundary root = .ok b →
      (∀ ps, targets w.disk root writes = .ok ps →
        FileWriter.Direct false b.place (ps.zip (writes.map (·.contents))) w) →
      w.disk.KeptOutside ((diskWriter false).apply root writes w).2.disk b.place) ∧
    (∀ B p, w.disk.reach p = .ok p → B <+: p.place ∧ B ≠ p.place →
      ((∀ c, w.disk.KeptOutside (World.writeFile false p c w).2.disk B) ↔
        w.disk.Refuses p ∨ w.disk.NeighbourInside B p)) :=
  ⟨fun _ h => keptOutside_of_commit htree h, fun _ _ _ hb h => keptOutside_of_apply htree hb h,
    fun _ _ hleads hinside => keptOutside_writeFile_iff htree hleads hinside⟩

/-! ## A file and a link outside -/

/-- A tree with a file in its directory, and a file and a link outside it. -/
def Disk.furnished : Disk :=
  ⟨[(["out"], .dir), (["out", "a.txt"], .file ⟨#[0]⟩), (["notes.txt"], .file ⟨#[0]⟩),
    (["way"], .link ⟨"out"⟩)], []⟩

theorem Disk.linkFree_furnished : furnished.LinkFree ["out"] :=
  linkFree_of_entries (isTree_of_entries (by simp [furnished, lookup, List.lookup_cons]))
    (furnished.opens_nil.concat rfl) (by simp [furnished])

/-- A sandbox with two files: one is there already with other contents, the other is not. -/
def Sandbox.pair : Sandbox :=
  ⟨Place.path ["out"], false, .pending,
    [⟨Place.path ["out", "a.txt"], ⟨#[1]⟩, 0, "a"⟩,
      ⟨Place.path ["out", "b", "c.txt"], ⟨#[2]⟩, 1, "a"⟩], 2, []⟩

theorem Place.inside_out_a : Inside ["out"] ["out", "a.txt"] :=
  ⟨by decide, by decide +kernel, by decide, by decide⟩

theorem Place.inside_out_c : Inside ["out"] ["out", "b", "c.txt"] :=
  ⟨by decide, by decide +kernel, by decide, by decide⟩

theorem Sandbox.direct_pair :
    Sandbox.Direct false pair.outputDir pair.queue (⟨Disk.furnished, [], [], ()⟩ : World Unit) := by
  refine direct_of_linkFree Disk.linkFree_furnished fun file hfile => ?_
  rcases List.mem_pair.mp hfile with rfl | rfl
  · exact ⟨_, Place.inside_out_a, rfl⟩
  · exact ⟨_, Place.inside_out_c, rfl⟩

/-- Two files are written, from a sandbox or as they were queued. What is outside stays. -/
theorem writes_keep_outside_furnished :
    let w : World Unit := ⟨Disk.furnished, [], [], ()⟩
    let writes : List QueuedWrite := [⟨⟨"a.txt"⟩, ⟨#[1]⟩, "a"⟩, ⟨⟨"b/c.txt"⟩, ⟨#[2]⟩, "a"⟩]
    let committed := (Sandbox.pair.commit (diskWriter false) w).2.2.disk
    let applied := ((diskWriter false).apply (Place.path ["out"]) writes w).2.disk
    w.disk.IsTree ∧ Sandbox.Direct false Sandbox.pair.outputDir Sandbox.pair.queue w ∧
      (∀ d ∈ [committed, applied], w.disk.KeptOutside d ["out"] ∧
        d.lookup ["notes.txt"] = some (.file ⟨#[0]⟩) ∧ d.lookup ["way"] = some (.link ⟨"out"⟩)) ∧
      ∀ c, w.disk.KeptOutside (World.writeFile false (Place.path ["out", "a.txt"]) c w).2.disk
        ["out"] := by
  intro w writes committed applied
  have hfree : w.disk.LinkFree ["out"] := Disk.linkFree_furnished
  have hout : Place.Named ["out"] := by decide
  have hcomposed : Place.Composed ["out"] := by decide +kernel
  have hplace : (Place.path ["out"]).place = ["out"] := Place.place_path hout
  have hboundary : w.disk.canonicalBoundary (Place.path ["out"]) = .ok (Place.path ["out"]) :=
    Disk.resolveExisting_path hout hfree.opens.straight.clear (Place.compose_path hcomposed)
  have hplaced : Place.placed ["out"] writes =
      [(["out", "a.txt"], ⟨#[1]⟩), (["out", "b", "c.txt"], ⟨#[2]⟩)] := by
    decide +kernel
  have hinside : ∀ t ∈ Place.placed ["out"] writes, Place.Inside ["out"] t.1 := by
    rw [hplaced]
    exact List.forall_mem_cons.mpr
      ⟨Place.inside_out_a, List.forall_mem_singleton.mpr Place.inside_out_c⟩
  have htargets : targets w.disk (Place.path ["out"]) writes =
      .ok ((Place.placed ["out"] writes).map (·.1.path)) :=
    (targets_eq_ok_iff hfree hout hcomposed (by decide)).mpr ⟨rfl, fun t ht => (hinside t ht).ne⟩
  obtain ⟨hcommit, happly, hwrite⟩ := writes_keep_outside w hfree.tree
  have hcommitted : w.disk.KeptOutside committed ["out"] :=
    hplace ▸ hcommit Sandbox.pair Sandbox.direct_pair
  have happlied : w.disk.KeptOutside applied ["out"] := by
    refine hplace ▸ happly _ _ writes hboundary fun ps hps => ?_
    obtain rfl := Except.ok.inj (hps.symm.trans htargets)
    rw [hplace, ← Place.onPaths_placed]
    exact FileWriter.direct_of_linkFree hfree hinside
  refine ⟨hfree.tree, Sandbox.direct_pair, fun d hd => ?_, fun c => ?_⟩
  · have hkept : w.disk.KeptOutside d ["out"] := by
      rcases List.mem_pair.mp hd with rfl | rfl
      · exact hcommitted
      · exact happlied
    exact ⟨hkept, hkept.stays (by decide) rfl, hkept.stays (by decide) rfl⟩
  · have hinside := Place.inside_out_a
    obtain ⟨hleads, -, hneighbour⟩ := hfree.direct hinside
    refine (hwrite ["out"] _ hleads ?_).mpr hneighbour c
    rw [Place.place_path hinside.named]
    exact ⟨hinside.below, hinside.ne⟩

/-! ## A link at the neighbour -/

namespace Disk

/-- A tree with a link in its directory, to a file outside. -/
def linked : Disk :=
  ⟨[(["out"], .dir), (["out", "a.txt.genpipe.tmp"], .link ⟨"../secret.txt"⟩),
    (["secret.txt"], .file ⟨#[0]⟩)], []⟩

theorem isTree_linked : linked.IsTree :=
  isTree_of_entries (by simp [linked, lookup, List.lookup_cons])

theorem straight_linked : linked.Straight ["out", "a.txt"] := straight_of_entries (by simp [linked])

theorem read_linked : linked.read (Place.path ["out", "a.txt"]) = .error (.of .notFound) := by
  have hlocate : linked.locate true (Place.path ["out", "a.txt"]) = .ok (.vacant ["out"] "a.txt") :=
    locate_of_walks Place.named_out_file ⟨rfl, by decide, by decide⟩
      (.enter (by decide) rfl (.vacant (by decide) rfl))
  rw [read, hlocate]

theorem locate_linked : linked.locate true (Place.path ["out", "a.txt.genpipe.tmp"]) =
    .ok (.found ["secret.txt"] (.file ⟨#[0]⟩)) := by
  have hsteps : steps ⟨"../secret.txt"⟩ = [.up, .name "secret.txt"] := rfl
  refine locate_of_walks (named_neighbour (X := ["out"]) Place.named_out_file)
    ⟨rfl, by decide, by decide⟩ ?_
  refine .enter (by decide) rfl (.follow (by decide) rfl (fun _ => rfl) ?_)
  rw [hsteps]
  exact .up (.file (by decide) rfl)

end Disk

/-- A sandbox with one file. -/
def Sandbox.single : Sandbox :=
  ⟨Place.path ["out"], false, .pending, [⟨Place.path ["out", "a.txt"], ⟨#[1]⟩, 0, "a"⟩], 1, []⟩

theorem Sandbox.recheck_single {d : Disk} (h : d.Straight ["out", "a.txt"]) :
    recheck d (Place.path ["out"]) (Place.path ["out", "a.txt"]) =
      .ok (Place.path ["out", "a.txt"]) :=
  recheck_path Place.named_out_file h.clear Text.compose_path_out_file Text.compose_path_out
    (List.prefix_append ["out"] ["a.txt"]) (by decide)

/-- An adapter queues a file, and its neighbour is a link. The file outside is written instead. -/
theorem commit_through_link :
    let w : World Unit := ⟨Disk.linked, [], [], ()⟩
    w.disk.IsTree ∧ w.disk.lookup ["secret.txt"] = some (.file ⟨#[0]⟩) ∧
      ∃ s₀ s, Sandbox.new w.disk (Place.path ["out"]) false = .ok s₀ ∧
        Sandbox.stage w.disk "a" (Place.path ["out", "a.txt"]) ⟨#[1]⟩ s₀ =
          (.ok (Place.path ["out", "a.txt"]), s) ∧
        (s.commit (diskWriter false) w).2.2.disk.lookup ["secret.txt"] = some (.file ⟨#[1]⟩) ∧
        ¬w.disk.KeptOutside (s.commit (diskWriter false) w).2.2.disk s.outputDir.place := by
  intro w
  have hout : ["out"] <+: ["out", "a.txt"] := List.prefix_append ["out"] ["a.txt"]
  have hplace : (Place.path ["out"]).place = ["out"] :=
    Place.place_path (Place.named_out_file.of_isPrefix hout)
  have hboundary : w.disk.canonicalBoundary (Place.path ["out"]) = .ok (Place.path ["out"]) :=
    Disk.resolveExisting_path (Place.named_out_file.of_isPrefix hout)
      (Disk.straight_linked.of_isPrefix hout).clear Text.compose_path_out
  have hresolve := Disk.resolveWithin_path Place.named_out_file Disk.straight_linked.clear
    Text.compose_path_out_file Text.compose_path_out hout (by decide)
  have hopens : Disk.linked.Opens ["out"] :=
    (Disk.isTree_linked.reaches (P := ["out"]) rfl).opens rfl
  have hcommit := Sandbox.disk_of_commit_single (w := w) false (s := Sandbox.single)
    rfl rfl (Sandbox.recheck_single Disk.straight_linked)
  rw [disk_of_writeFile_of_notFound (w := w) Disk.read_linked rfl] at hcommit
  have hsecret := Disk.lookup_replace_of_link (X := ["out"]) (c := ⟨#[1]⟩) Place.named_out_file
    hopens rfl Disk.locate_linked (by simp) (by decide)
  have hnew : (Sandbox.single.commit (diskWriter false) w).2.2.disk.lookup ["secret.txt"] =
      some (.file ⟨#[1]⟩) := by
    rw [hcommit]
    exact hsecret
  refine ⟨Disk.isTree_linked, rfl, ⟨Place.path ["out"], false, .pending, [], 0, []⟩,
    Sandbox.single, ?_, Sandbox.stage_of_resolveWithin rfl hresolve, hnew, fun hkept => ?_⟩
  · rw [Sandbox.new, hboundary]
    rfl
  · have houtside : ¬(Place.path ["out"]).place <+: ["secret.txt"] := by
      rw [hplace]
      decide
    have hold := hkept.lookup_eq houtside hnew
    cases hold

end StagedCodegen
