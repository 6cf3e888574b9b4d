import StagedCodegen.Adapter.Sandbox
import StagedCodegen.Proofs.Writes.Replace
import StagedCodegen.Proofs.Writes.Writing

/-!
# What writing leaves alone

Queued files are written inside a directory. What stands outside it is kept, and only directories
above it are added, provided that every file is written directly: at that time its path leads to
itself, and what is written to its neighbour goes inside (`Disk.Direct`).

Main statements: `keptOutside_of_commit`, for the files of a sandbox, `keptOutside_of_apply`, for
queued writes, and `keptOutside_writeFile_iff`, by which the proviso cannot be weakened for one
file.
-/

namespace StagedCodegen

open StagedCodegen.Path (Component)

/-! ## What is kept -/

namespace Disk

variable {d : Disk} {B : Place} {p b : Path}

/-- A file is written directly, inside a directory: its path leads to itself and has composed names,
and its neighbour leads inside, if anything is written at all. -/
structure Direct (d : Disk) (B : Place) (p : Path) : Prop where
  leads : d.reach p = .ok p
  composed : Text.compose p.text = p.text
  neighbour : d.Refuses p ∨ d.NeighbourInside B p

/-- A path inside a directory that leads to itself has a clear way down to its last name. -/
theorem exists_concat_of_inside (h : d.reach p = .ok p) (hinside : B <+: p.place ∧ B ≠ p.place) :
    ∃ (X : Place) (s : String), p = Place.path (X ++ [s]) ∧ (X ++ [s]).Named ∧ d.Clear X ∧
      B <+: X := by
  obtain ⟨P, hP, rfl, hclear⟩ := reach_eq_self_iff.mp h
  rw [Place.place_path hP] at hinside
  obtain ⟨hBP, hne⟩ := hinside
  rcases List.eq_nil_or_concat' P with rfl | ⟨X, s, rfl⟩
  · exact absurd (List.prefix_nil.mp hBP) hne
  · exact ⟨X, s, rfl, hP, hclear.of_isPrefix (List.prefix_append X [s]),
      (List.prefix_concat_iff.mp hBP).resolve_left hne⟩

/-- A path strictly below another has its place strictly inside that of the other. -/
theorem inside_of_strictlyBelow (h : d.reach p = .ok p) (hb : strictlyBelow p b = true)
    (hne : b.place ≠ []) : b.place <+: p.place ∧ b.place ≠ p.place := by
  obtain ⟨P, hP, rfl, -⟩ := reach_eq_self_iff.mp h
  rw [strictlyBelow, Bool.and_eq_true, Bool.not_eq_true', Path.same, beq_eq_false_iff_ne] at hb
  obtain ⟨habove, hcomponents⟩ := Place.place_isPrefix hP hb.2
  rw [Place.place_path hP]
  refine ⟨habove, fun heq => hb.1 ?_⟩
  rw [hcomponents hne, heq, Place.components_path hP]

/-- Paths with the same components lead to the same place. -/
theorem reach_congr {q : Path} {cs : List Component} (hp : p.components = .root :: cs)
    (hq : q.components = .root :: cs) : d.reach p = d.reach q := by
  have habsolute : (d.absolute p).components = (d.absolute q).components := by
    rw [absolute, absolute, if_pos (Path.isAbsolute_of_components hp),
      if_pos (Path.isAbsolute_of_components hq), hp, hq]
  unfold reach
  rw [habsolute]

/-- What is checked once more before it is written is strictly inside the output directory. -/
theorem inside_of_recheck {outputDir q : Path} (h : Sandbox.recheck d outputDir q = .ok p)
    (hdirect : d.Direct B p) (hne : outputDir.place ≠ []) :
    outputDir.place <+: p.place ∧ outputDir.place ≠ p.place := by
  unfold Sandbox.recheck at h
  split at h
  · cases h
  · next resolved hresolve =>
    split at h
    · next hstarts =>
      obtain rfl := Except.ok.inj h
      obtain ⟨P, hP, rfl, -⟩ := reach_eq_self_iff.mp hdirect.leads
      obtain ⟨habove, hcomponents⟩ := Place.place_isPrefix hP hstarts
      rw [Place.place_path hP]
      refine ⟨habove, fun heq => ?_⟩
      -- the output directory would lead to the very path that must lie below it
      obtain ⟨b, hb, -, hbelow⟩ := resolveWithin_ok_iff.mp hresolve
      have houtput : outputDir.components = .root :: P.pieces.map .name := by
        rw [hcomponents hne, heq]
      rw [canonicalBoundary, resolveExisting_eq,
        reach_congr houtput (Place.components_path hP), hdirect.leads, Except.map,
        hdirect.composed] at hb
      obtain rfl := Except.ok.inj hb
      simp [strictlyBelow, Path.same] at hbelow
    · cases h

end Disk

/-! ## Writing one file after another -/

variable {κ : Type} {dryRun : Bool} {w w' : World κ} {B : Place} {p root outputDir : Path}

theorem exists_contentHash_ne : ∃ a b c, contentHash a ≠ contentHash b ∧
    contentHash a ≠ contentHash c ∧ contentHash b ≠ contentHash c :=
  ⟨⟨#[]⟩, ⟨#[0]⟩, ⟨#[1]⟩, by decide +kernel⟩

/-- There are contents with another digest than a given one, and other than what stands
somewhere. -/
theorem exists_contents (hash : String) (n : Option Node) :
    ∃ c, hash ≠ contentHash c ∧ n ≠ some (.file c) := by
  by_contra hnone
  push Not at hnone
  have hsame : ∀ c c', hash ≠ contentHash c → hash ≠ contentHash c' →
      contentHash c = contentHash c' := by
    intro c c' hc hc'
    have hfile : some (Node.file c) = some (Node.file c') :=
      (hnone c hc).symm.trans (hnone c' hc')
    obtain rfl : c = c' := by simpa using hfile
    rfl
  -- of three contents with different digests, two have another than the given one
  obtain ⟨a, b, c, hab, hac, hbc⟩ := exists_contentHash_ne
  by_cases ha : hash = contentHash a
  · exact hbc (hsame b c (fun hb => hab (ha.symm.trans hb)) fun hc => hac (ha.symm.trans hc))
  · by_cases hb : hash = contentHash b
    · exact hac (hsame a c ha fun hc => hbc (hb.symm.trans hc))
    · exact hab (hsame a b ha hb)

theorem keptOutside_of_writeFile (dryRun : Bool) (c : ByteArray) (hdirect : w.disk.Direct B p)
    (htree : w.disk.IsTree) (hinside : B <+: p.place ∧ B ≠ p.place) :
    (World.writeFile dryRun p c w).2.disk.IsTree ∧
      w.disk.KeptOutside (World.writeFile dryRun p c w).2.disk B := by
  obtain ⟨X, s, rfl, hnamed, hclear, hB⟩ := Disk.exists_concat_of_inside hdirect.leads hinside
  have hsame : w.disk.IsTree ∧ w.disk.KeptOutside w.disk B := ⟨htree, .refl w.disk B⟩
  rcases hdirect.neighbour with hrefuses | hneighbour
  · rwa [disk_of_writeFile_of_refuses hrefuses]
  · rcases disk_of_writeFile dryRun (Place.path (X ++ [s])) c w with hdisk | hdisk <;> rw [hdisk]
    · exact hsame
    · exact Disk.keptOutside_of_replace htree hclear hnamed hB hneighbour

/-- A path inside a directory that leads to itself is written without a trace outside, whatever the
contents are, just if nothing is written at all or what is written to the neighbour goes inside. -/
theorem keptOutside_writeFile_iff (htree : w.disk.IsTree) (hleads : w.disk.reach p = .ok p)
    (hinside : B <+: p.place ∧ B ≠ p.place) :
    (∀ c, w.disk.KeptOutside (World.writeFile false p c w).2.disk B) ↔
      w.disk.Refuses p ∨ w.disk.NeighbourInside B p := by
  obtain ⟨X, s, rfl, hnamed, hclear, hB⟩ := Disk.exists_concat_of_inside hleads hinside
  refine ⟨fun hkept => ?_, ?_⟩
  · by_contra hneither
    obtain ⟨hwritten, houtside⟩ := not_or.mp hneither
    obtain ⟨hash, hreplace⟩ := exists_disk_of_writeFile hwritten
    obtain ⟨Q, hQ, hnew⟩ := Disk.exists_written_outside htree hclear hnamed hB houtside
    obtain ⟨c, hc, hold⟩ := exists_contents hash (w.disk.lookup Q)
    refine hold ((hkept c).lookup_eq hQ ?_)
    rw [hreplace c hc]
    exact hnew c
  · rintro (hrefuses | hneighbour) c
    · rw [disk_of_writeFile_of_refuses hrefuses]
      exact .refl w.disk B
    · rcases disk_of_writeFile false (Place.path (X ++ [s])) c w with hdisk | hdisk <;> rw [hdisk]
      · exact .refl w.disk B
      · exact (Disk.keptOutside_of_replace htree hclear hnamed hB hneighbour).2

/-- Each file of a queue is written directly, at its time. -/
def Sandbox.Direct (dryRun : Bool) (outputDir : Path) : List StagedFile → World κ → Prop
  | [], _ => True
  | file :: rest, w => ∀ target, recheck w.disk outputDir file.target = .ok target →
    w.disk.Direct outputDir.place target ∧
      ∀ r w', World.writeFile dryRun target file.contents w = (.ok r, w') →
        Direct dryRun outputDir rest w'

section Resolving

-- what is matched on must not be computed where these equations are checked
attribute [local irreducible] Disk.resolveWithin

/-- The path of a place inside the output directory is kept when it is checked once more. -/
theorem Sandbox.recheck_path {d : Disk} {P : Place} (hP : P.Named) (hclear : d.Clear P)
    (hcomposed : Text.compose P.path.text = P.path.text)
    (hBcomposed : Text.compose (Place.path B).text = (Place.path B).text)
    (hBP : B <+: P) (hne : B ≠ P) : recheck d B.path P.path = .ok P.path := by
  have hresolve := Disk.resolveWithin_path hP hclear hcomposed hBcomposed hBP hne
  unfold recheck
  rw [hresolve]
  simp only
  rw [if_pos (Place.startsWith_path hP hBP)]

attribute [local irreducible] Sandbox.recheck

theorem Sandbox.disk_of_commit_single (dryRun : Bool) {s : Sandbox} {file : StagedFile}
    (hstate : s.state = .pending) (hqueue : s.queue = [file])
    (h : recheck w.disk s.outputDir file.target = .ok p) :
    (s.commit (diskWriter dryRun) w).2.2.disk =
      (World.writeFile dryRun p file.contents w).2.disk := by
  rw [commit, if_pos hstate, hqueue, writeQueue_cons, h]
  simp only [diskWriter]
  rcases World.writeFile dryRun p file.contents w with ⟨f | r, w'⟩ <;> rfl

theorem Sandbox.stage_of_resolveWithin {d : Disk} {s : Sandbox} {adapter : String}
    {c : ByteArray} {q : Path} (hstate : s.state = .pending)
    (h : d.resolveWithin s.outputDir q = .ok p) : stage d adapter q c s =
      (.ok p, { s with
        queue := s.queue ++ [⟨p, c, s.accepted, adapter⟩]
        accepted := s.accepted + 1 }) := by
  unfold stage
  rw [h]
  exact if_pos hstate

theorem targets_cons (d : Disk) (root : Path) (q : QueuedWrite) (qs : List QueuedWrite) :
    targets d root (q :: qs) =
      match d.resolveWithin root q.path with
      | .error f => .error f
      | .ok p =>
        match targets d root qs with
        | .error f => .error f
        | .ok ps => .ok (p :: ps) := rfl

theorem targets_singleton {d : Disk} {q : QueuedWrite} (h : d.resolveWithin root q.path = .ok p) :
    targets d root [q] = .ok [p] := by
  rw [targets_cons, h]
  rfl

end Resolving

theorem keptOutside_of_writeQueue {queue : List StagedFile} (hne : outputDir.place ≠ [])
    (htree : w.disk.IsTree) (h : Sandbox.Direct dryRun outputDir queue w) :
    w.disk.KeptOutside
      (Sandbox.writeQueue (diskWriter dryRun) outputDir queue w).2.2.disk outputDir.place := by
  induction queue generalizing w with
  | nil => exact .refl w.disk _
  | cons file rest ih =>
    rw [Sandbox.writeQueue_cons]
    split
    · exact .refl w.disk _
    · next target hrecheck =>
      obtain ⟨hdirect, hrest⟩ := h target hrecheck
      obtain ⟨htree', hkept⟩ := keptOutside_of_writeFile dryRun file.contents hdirect htree
        (Disk.inside_of_recheck hrecheck hdirect hne)
      split
      · next f w' hwrite =>
        obtain rfl : (World.writeFile dryRun target file.contents w).2 = w' :=
          congrArg Prod.snd hwrite
        exact hkept
      · next r w' hwrite =>
        obtain rfl : (World.writeFile dryRun target file.contents w).2 = w' :=
          congrArg Prod.snd hwrite
        exact hkept.trans (ih htree' (hrest r _ hwrite))

/-- Each of these writes is carried out directly inside a directory, at its time. -/
def FileWriter.Direct (dryRun : Bool) (B : Place) : List (Path × ByteArray) → World κ → Prop
  | [], _ => True
  | (p, c) :: rest, w => w.disk.Direct B p ∧
    ∀ r w', World.writeFile dryRun p c w = (.ok r, w') → Direct dryRun B rest w'

theorem keptOutside_of_writeAll {b : Path} {writes : List (Path × ByteArray)}
    (hne : b.place ≠ []) (htree : w.disk.IsTree)
    (hbelow : ∀ pc ∈ writes, Disk.strictlyBelow pc.1 b = true)
    (h : FileWriter.Direct dryRun b.place writes w) :
    w.disk.KeptOutside ((diskWriter dryRun).writeAll writes w).2.disk b.place := by
  induction writes generalizing w with
  | nil => exact .refl w.disk _
  | cons pc rest ih =>
    obtain ⟨p, c⟩ := pc
    obtain ⟨hdirect, hrest⟩ := h
    have hinside := Disk.inside_of_strictlyBelow hdirect.leads (hbelow (p, c) (by simp)) hne
    obtain ⟨htree', hkept⟩ := keptOutside_of_writeFile dryRun c hdirect htree hinside
    rw [FileWriter.writeAll, Attempt.bind_apply]
    -- what was written before a failure stays
    rcases hwrite : (diskWriter dryRun).write p c w with ⟨f | r, w'⟩
    · obtain rfl : (World.writeFile dryRun p c w).2 = w' := congrArg Prod.snd hwrite
      exact hkept
    · obtain rfl : (World.writeFile dryRun p c w).2 = w' := congrArg Prod.snd hwrite
      have hall := ih htree' (fun pc hpc => hbelow pc (by simp [hpc])) (hrest r _ hwrite)
      simp only [Attempt.bind_apply]
      rcases hothers : (diskWriter dryRun).writeAll rest (World.writeFile dryRun p c w).2 with
        ⟨f | rs, w''⟩ <;> rw [hothers] at hall <;> exact hkept.trans hall

theorem strictlyBelow_of_targets {d : Disk} {b : Path} {writes : List QueuedWrite} {ps : List Path}
    (hb : d.canonicalBoundary root = .ok b) (h : targets d root writes = .ok ps) :
    ∀ p ∈ ps, Disk.strictlyBelow p b = true := by
  induction writes generalizing ps with
  | nil => cases h; exact fun p hp => absurd hp List.not_mem_nil
  | cons q qs ih =>
    rw [targets_cons] at h
    split at h
    · cases h
    · next p hp =>
      split at h
      · cases h
      · next ps' hps =>
        cases h
        intro p' hp'
        rcases List.mem_cons.mp hp' with rfl | hp'
        · obtain ⟨b', hb', -, hbelow⟩ := Disk.resolveWithin_ok_iff.mp hp
          rwa [← Except.ok.inj (hb.symm.trans hb')] at hbelow
        · exact ih hps p' hp'

theorem keptOutside_of_apply {b : Path} {writes : List QueuedWrite} (htree : w.disk.IsTree)
    (hb : w.disk.canonicalBoundary root = .ok b)
    (h : ∀ ps, targets w.disk root writes = .ok ps →
      FileWriter.Direct dryRun b.place (ps.zip (writes.map (·.contents))) w) :
    w.disk.KeptOutside ((diskWriter dryRun).apply root writes w).2.disk b.place := by
  by_cases hne : b.place = []
  · rw [hne]
    exact Disk.keptOutside_root _ _
  · rw [FileWriter.apply]
    split
    · exact .refl w.disk _
    · next ps hps =>
      refine keptOutside_of_writeAll hne htree (fun pc hpc => ?_) (h ps hps)
      exact strictlyBelow_of_targets hb hps pc.1 (List.of_mem_zip hpc).1

theorem keptOutside_of_commit {s : Sandbox} (htree : w.disk.IsTree)
    (h : Sandbox.Direct dryRun s.outputDir s.queue w) :
    w.disk.KeptOutside (s.commit (diskWriter dryRun) w).2.2.disk s.outputDir.place := by
  by_cases hne : s.outputDir.place = []
  · rw [hne]
    exact Disk.keptOutside_root _ _
  · rw [Sandbox.commit]
    split
    · exact keptOutside_of_writeQueue hne htree h
    · exact .refl w.disk _

/-! ## A directory -/

namespace Disk

/-- A tree with nothing but a directory. -/
def bare : Disk := ⟨[(["out"], .dir)], []⟩

theorem isTree_bare : bare.IsTree := isTree_of_entries (by simp [bare, lookup])

end Disk

theorem Place.named_out_file : Place.Named ["out", "a.txt"] := by
  intro s hs
  simp only [List.mem_cons, List.not_mem_nil, or_false] at hs
  rcases hs with rfl | rfl <;> constructor <;> decide

theorem Text.compose_path_out : compose (Place.path ["out"]).text = (Place.path ["out"]).text := by
  rw [compose, if_pos (by decide)]

theorem Text.compose_path_out_file :
    compose (Place.path ["out", "a.txt"]).text = (Place.path ["out", "a.txt"]).text := by
  rw [compose, if_pos (by decide)]

end StagedCodegen
