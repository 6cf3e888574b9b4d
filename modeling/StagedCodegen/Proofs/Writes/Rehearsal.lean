import StagedCodegen.Proofs.Run.Stages
import StagedCodegen.Proofs.Writes.Held

/-!
# Dry runs

A dry run looks at the tree as it stands at the start, while each write of a real run finds what the
earlier ones have left. Where the targets are apart, these have touched neither the target nor any
file on the way down to it, but for one case: what stands at the neighbour of an earlier target is
gone. If that was a file and a later target lies below its name (`Disk.Blocks`), the real run makes
a directory there, and the dry run fails. In every other case both find the same
(`Disk.Wrote.has_of_has`, `Disk.Wrote.lacks_of_lacks`).

Main statement: where there are no links and the real run succeeds, the dry run says the same of
every target, with what would be written as skipped, just if no target blocks a later one
(`dryRun_foretells`).
-/

namespace StagedCodegen

/-- What a dry run says of a write, instead of what a real run does. -/
def WriteRecord.rehearsed (r : WriteRecord) : WriteRecord :=
  match r.status with
  | .written => ⟨r.path, .skipped, r.hash, some "dry-run"⟩
  | _ => r

theorem Place.Named.neighbour {P : Place} (hP : P.Named) (hne : P ≠ []) :
    P.neighbour.Named ∧ temporaryPath P.path = P.neighbour.path := by
  obtain ⟨X, s, rfl⟩ : ∃ (X : Place) (s : String), P = X ++ [s] :=
    (List.eq_nil_or_concat' P).resolve_left hne
  rw [Place.neighbour_concat]
  exact ⟨Disk.named_neighbour hP, temporaryPath_path hP⟩

namespace Disk

variable {d d' d₀ : Disk} {P S : Place} {p : Path} {c x : ByteArray} {ns ms : List String}
  {s : String} {followLast : Bool} {hops : Nat} {done : Placed}

/-! ## Walks that end early -/

/-- Along names of which the last is missing and those before it are directories or missing as well,
a walk comes to where nothing is. -/
theorem walk_of_missing (hne : ns ≠ []) (hshort : ∀ t ∈ ns, t.utf8ByteSize ≤ 255)
    (habove : ∀ ms, ms <+: ns → ms ≠ ns → ms ≠ [] →
      d.lookup (P ++ ms) = none ∨ d.lookup (P ++ ms) = some .dir)
    (hlast : d.lookup (P ++ ns) = none) :
    d.walk followLast hops P (ns.map .name) = .error (.of .notFound) ∨
      ∃ Q t, d.walk followLast hops P (ns.map .name) = .ok (.vacant Q t) := by
  induction ns generalizing P with
  | nil => exact absurd rfl hne
  | cons s ns ih =>
    obtain ⟨hs, hshort⟩ := List.forall_mem_cons.mp hshort
    rw [List.map_cons, walk_name, if_neg (Nat.not_lt.mpr hs)]
    by_cases hns : ns = []
    · subst hns
      rw [hlast]
      exact .inr ⟨P, s, rfl⟩
    · have hnonempty : (ns.map Step.name).isEmpty = false := by simpa using hns
      rcases habove [s] ⟨ns, rfl⟩ (by simpa using Ne.symm hns) (List.cons_ne_nil s []) with
        hnone | hdir
      · rw [hnone, hnonempty]
        exact .inl rfl
      · rw [hdir]
        refine ih hns hshort (fun ms hms hms' _ => ?_) (by rwa [List.append_assoc])
        rw [List.append_assoc]
        exact habove (s :: ms) (List.cons_prefix_cons.mpr ⟨rfl, hms⟩)
          (fun heq => hms' (List.cons.inj heq).2) (List.cons_ne_nil s ms)

/-- Along names of which one in the middle is that of a file, a walk fails. -/
theorem walk_of_file (hopens : d.Opens (P ++ ns))
    (hfile : d.lookup (P ++ ns ++ [s]) = some (.file c))
    (hms : ms ≠ []) (hshort : ∀ t ∈ ns ++ s :: ms, t.utf8ByteSize ≤ 255) :
    d.walk followLast hops P ((ns ++ s :: ms).map .name) = .error (.of .notADirectory) := by
  induction ns generalizing P with
  | nil =>
    rw [List.append_nil] at hfile
    have hnonempty : (ms.map Step.name).isEmpty = false := by simpa using hms
    rw [List.nil_append, List.map_cons, walk_name,
      if_neg (Nat.not_lt.mpr (hshort s List.mem_cons_self)), hfile, hnonempty]
    rfl
  | cons t ns ih =>
    obtain ⟨ht, hshort⟩ := List.forall_mem_cons.mp hshort
    rw [List.append_cons] at hopens
    rw [List.append_cons P t ns] at hfile
    have hdir : d.lookup (P ++ [t]) = some .dir := hopens _ (List.prefix_append _ ns)
    rw [List.cons_append, List.map_cons, walk_name, if_neg (Nat.not_lt.mpr ht), hdir]
    exact ih hopens hfile hshort

/-! ## Reading -/

theorem locate_path (hP : P.Named) (hne : P ≠ []) (husable : Usable P.path) :
    d.locate followLast P.path = d.walk followLast 40 [] (P.map .name) := by
  rw [locate_eq husable, if_pos P.isAbsolute_path, steps_path hP hne]

theorem isFile_iff_read : d.isFile p = true ↔ ∃ c, d.read p = .ok c := by
  unfold isFile node? read
  rcases d.locate true p with e | ⟨F, _ | c | t⟩ | ⟨F, t⟩ <;> simp

/-- Where a place is missing and nothing but directories stands on the way, nothing is read. -/
theorem read_of_missing (hP : P.Named) (hwalkable : Walkable P.path P)
    (habove : ∀ S, S <+: P → S ≠ P → d.lookup S = none ∨ d.lookup S = some .dir)
    (hlast : d.lookup P = none) : d.read P.path = .error (.of .notFound) := by
  have hne : P ≠ [] := by
    rintro rfl
    cases hlast
  rw [read, locate_path hP hne hwalkable.usable]
  rcases walk_of_missing (P := []) hne hwalkable.short (fun S hS hSP _ => habove S hS hSP)
    hlast with
    hwalk | ⟨Q, t, hwalk⟩
  · rw [hwalk]
  · rw [hwalk]

/-- Below a file nothing can be read, nor looked for. -/
theorem read_of_file_above (htree : d.IsTree) (hP : P.Named) (hwalkable : Walkable P.path P)
    (hS : S <+: P) (hne : S ≠ P) (hfile : d.lookup S = some (.file c)) :
    d.read P.path = .error (.of .notADirectory) := by
  obtain ⟨X, s, rfl⟩ : ∃ (X : Place) (s : String), S = X ++ [s] := by
    refine (List.eq_nil_or_concat' S).resolve_left ?_
    rintro rfl
    cases hfile
  obtain ⟨ms, rfl⟩ := hS
  have hms : ms ≠ [] := fun hnil => hne (by rw [hnil, List.append_nil])
  have hopens : d.Opens X := Reaches.opens_of_concat (htree.reaches hfile)
  rw [read, locate_path hP (by simp) hwalkable.usable]
  have hshort := hwalkable.short
  rw [List.append_assoc, List.singleton_append] at hshort ⊢
  rw [walk_of_file (P := []) hopens hfile hms hshort]

/-! ## What a write finds -/

/-- A file stands at the neighbour of the first path, and the second one goes on below it. -/
def Blocks (d : Disk) (p q : Path) : Prop :=
  d.isFile (temporaryPath p) = true ∧ q.startsWith (temporaryPath p) = true

theorem Steady.linkless (h : d.Steady d') (hlinkless : d.Linkless) : d'.Linkless :=
  fun P t hlink => hlinkless P t ((h.link P t).mp hlink)

theorem Linkless.plain (h : d.Linkless) (P : Place) : d.Plain P := ⟨h.straight P, h _⟩

/-- Above a file that was written there were directories or nothing. -/
theorem Wrote.lookup_above (h : d.Wrote d' [(P, c)]) (hP : d'.lookup P = some (.file c))
    (hS : S <+: P) (hne : S ≠ P) : d.lookup S = none ∨ d.lookup S = some .dir := by
  have hdir := h.tree.reaches hP S hS hne
  have hneighbour : S ≠ P.neighbour := by
    -- a neighbour has as many names as its file
    rintro rfl
    refine hne (hS.eq_of_length_le ?_)
    rw [Place.neighbour, List.length_append, List.length_dropLast, List.length_singleton]
    omega
  rcases h.kept S (List.forall_mem_singleton.mpr ⟨hne, hneighbour⟩) with hsame | ⟨hnone, -, -⟩
  · exact .inr (hsame ▸ hdir)
  · exact .inl hnone

/-- What is there after writes apart from it was there before. -/
theorem Wrote.lookup_of_apart (h : d.Wrote d' done) (hapart : ∀ t ∈ done, t.1.Apart P)
    (hdir : d'.lookup P ≠ some .dir) : d.lookup P = d'.lookup P := by
  rcases h.kept P fun t ht => ⟨(hapart t ht).symm.1, (hapart t ht).symm.2.1⟩ with
    hsame | ⟨-, hmade, -⟩
  · exact hsame.symm
  · exact absurd hmade hdir

/-- Where there are only directories after writes, there were only directories before, unless a file
stood at a neighbour. -/
theorem Wrote.lookup_of_dir (h : d.Wrote d' done) (hlinkless : d.Linkless)
    (hfree : ∀ t ∈ done, ∀ x, t.1.neighbour = S → d.lookup S ≠ some (.file x))
    (hS : d'.lookup S = none ∨ d'.lookup S = some .dir) :
    d.lookup S = none ∨ d.lookup S = some .dir := by
  by_cases hother : ∀ t ∈ done, S ≠ t.1 ∧ S ≠ t.1.neighbour
  · rcases h.kept S hother with hsame | ⟨hnone, -, -⟩
    · exact hsame ▸ hS
    · exact .inl hnone
  · obtain ⟨t, ht, hSt⟩ : ∃ t ∈ done, S = t.1 ∨ S = t.1.neighbour := by
      push Not at hother
      obtain ⟨t, ht, hSt⟩ := hother
      exact ⟨t, ht, or_iff_not_imp_left.mpr hSt⟩
    rcases hSt with rfl | hSt
    · obtain ⟨x, hx, -⟩ := (h.holds t ht).there
      rw [hx] at hS
      rcases hS with hS | hS <;> cases hS
    · rcases hlookup : d.lookup S with _ | (_ | x | q)
      · exact .inl rfl
      · exact .inr rfl
      · exact absurd hlookup (hfree t ht x hSt.symm)
      · exact absurd hlookup (hlinkless S q)

section Apart

variable (h : d.Wrote d' done) (htree : d.IsTree) (hlinkless : d.Linkless) (hP : P.Named)
  (hapart : ∀ t ∈ done, t.1.Apart P)

include h htree hlinkless hP hapart

/-- What is read after writes apart from it could be read before. -/
theorem Wrote.read_of_read (hread : d'.read P.path = .ok x) : d.read P.path = .ok x := by
  obtain ⟨hlookup, hshort⟩ :=
    lookup_of_read ((h.steady.linkless hlinkless).straight P) hP hread
  refine read_of_lookup htree hP ⟨usable_of_read hread, hshort⟩ ?_
  rw [h.lookup_of_apart hapart (by simp [hlookup]), hlookup]

theorem Wrote.has_of_has (hhas : d'.Has P.path c) : d.Has P.path c := by
  obtain ⟨x, hread, hsame⟩ := hhas
  exact ⟨x, h.read_of_read htree hlinkless hP hapart hread, hsame⟩

/-- What is still to be written after other writes, and can be written, was to be written before,
if no file stood at a neighbour on the way. -/
theorem Wrote.lacks_of_lacks {d'' : Disk}
    (hfree : ∀ t ∈ done, t.1.neighbour <+: P → ∀ x, d.lookup t.1.neighbour ≠ some (.file x))
    (hlacks : d'.Lacks P.path c) (h' : d'.Wrote d'' [(P, c)])
    (hwritten : d''.lookup P = some (.file c)) : d.Lacks P.path c := by
  have hwalkable : Walkable P.path P := (h'.holds _ (List.mem_singleton_self _)).walkable
  rcases hlacks with ⟨e, hread, hkind⟩ | ⟨x, hread, hother⟩
  · have hdir : d'.lookup P ≠ some .dir := by
      intro hdir
      cases hwritten.symm.trans (h'.steady.dir P hdir)
    have hnone : d'.lookup P = none := by
      rcases hlookup : d'.lookup P with _ | (_ | x | q)
      · rfl
      · exact absurd hlookup hdir
      · cases hread.symm.trans (read_of_lookup h.tree hP hwalkable hlookup)
      · exact absurd hlookup (h.steady.linkless hlinkless P q)
    refine .inl ⟨_, read_of_missing hP hwalkable (fun S hS hne => ?_) ?_, rfl⟩
    · refine h.lookup_of_dir hlinkless (fun t ht x heq => ?_) (h'.lookup_above hwritten hS hne)
      exact heq ▸ hfree t ht (heq ▸ hS) x
    · rw [h.lookup_of_apart hapart hdir, hnone]
  · exact .inr ⟨x, h.read_of_read htree hlinkless hP hapart hread, hother⟩

end Apart

/-- A path is blocked by a file at the neighbour of another. -/
theorem blocks_iff {Q : Place} (htree : d.IsTree) (hlinkless : d.Linkless) (hP : P.Named)
    (hne : P ≠ []) (hQ : Q.Named) (hwalkable : Walkable Q.path Q) :
    d.Blocks P.path Q.path ↔
      P.neighbour <+: Q ∧ ∃ x, d.lookup P.neighbour = some (.file x) := by
  obtain ⟨hneighbour, hpath⟩ := hP.neighbour hne
  rw [Blocks, hpath, isFile_iff_read, Place.startsWith_path_iff hQ hneighbour, and_comm]
  refine and_congr_right fun hbelow => exists_congr fun x => ⟨fun hread => ?_, fun hlookup => ?_⟩
  · exact (lookup_of_read (hlinkless.straight _) hneighbour hread).1
  · exact read_of_lookup htree hneighbour
      ⟨hwalkable.usable.of_isPrefix hbelow, fun t ht => hwalkable.short t (hbelow.subset ht)⟩
        hlookup

end Disk

open Disk

/-! ## One write -/

variable {κ : Type} {w w' v v' : World κ} {P : Place} {p root : Path} {c : ByteArray}
  {r : WriteRecord} {rs : List WriteRecord} {ts done : Placed} {dryRun : Bool}

namespace World

/-- Where a write succeeds after others, from which it is apart, a dry run that sees what was there
before them says the same. -/
theorem rehearsed_of_writeFile (hv : v.disk.Wrote w.disk done) (htree : v.disk.IsTree)
    (hlinkless : v.disk.Linkless) (hP : P.Named) (hne : P ≠ [])
    (hapart : ∀ t ∈ done, t.1.Apart P)
    (hfree : ∀ t ∈ done, t.1.neighbour <+: P → ∀ x, v.disk.lookup t.1.neighbour ≠ some (.file x))
    (h : writeFile false P.path c w = (.ok r, w')) :
    writeFile true P.path c v = v.noted r.rehearsed := by
  cases writing_of_eq h with
  | unchanged has record =>
    rw [writeFile_of_has (hv.has_of_has htree hlinkless hP hapart has), record]
    rfl
  | written lacks replace record =>
    have hplain : w.disk.Plain P :=
      ⟨(hv.steady.linkless hlinkless).straight P, hv.steady.linkless hlinkless _⟩
    obtain ⟨hwrote, hwritten, -⟩ := wrote_of_replace hv.tree hplain hP hne replace
    rw [writeFile_of_lacks
      (hv.lacks_of_lacks htree hlinkless hP hapart hfree lacks hwrote hwritten),
      writeFile.change, if_pos rfl, record]
    rfl

end World

/-! ## All writes -/

namespace FileWriter

theorem keeps_writeAll_dryRun (d : Disk) (xs : List (Path × ByteArray)) :
    Attempt.Keeps (fun w : World κ => w.disk = d) ((diskWriter true).writeAll xs) := by
  induction xs with
  | nil => exact .pure []
  | cons x xs ih =>
    refine .bind (fun w hw => ?_) fun r => ih.bind fun rs => .pure (r :: rs)
    exact (World.disk_writeFile_dryRun x.1 x.2 w).trans hw

/-- Writes that succeed are foretold by a dry run that sees what was there before them and before
earlier ones. -/
theorem writeAll_rehearsed (hv : v.disk.Wrote w.disk done) (htree : v.disk.IsTree)
    (hlinkless : v.disk.Linkless) (hnamed : ∀ t ∈ ts, t.1.Named ∧ t.1 ≠ [])
    (hapart : (done ++ ts).Pairwise fun t u => t.1.Apart u.1)
    (hfree : (done ++ ts).Pairwise fun t u => t.1.neighbour <+: u.1 →
      ∀ x, v.disk.lookup t.1.neighbour ≠ some (.file x))
    (h : (diskWriter false).writeAll ts.onPaths w = (.ok rs, w')) :
    ∃ v', (diskWriter true).writeAll ts.onPaths v = (.ok (rs.map WriteRecord.rehearsed), v') := by
  induction ts generalizing v w done rs with
  | nil =>
    cases h
    exact ⟨v, rfl⟩
  | cons t ts ih =>
    obtain ⟨⟨hP, hne⟩, hnamed⟩ := List.forall_mem_cons.mp hnamed
    obtain ⟨r, rs', w₁, hwrite, hrest, rfl⟩ := writeAll_cons_eq_ok h
    have hdone : ∀ u ∈ done, u.1.Apart t.1 := fun u hu =>
      (List.pairwise_append.mp hapart).2.2 u hu t List.mem_cons_self
    have hfreeDone := fun u hu => (List.pairwise_append.mp hfree).2.2 u hu t List.mem_cons_self
    have hrehearsed :=
      World.rehearsed_of_writeFile hv htree hlinkless hP hne hdone hfreeDone hwrite
    have hplain : w.disk.Plain t.1 := (hv.steady.linkless hlinkless).plain t.1
    obtain ⟨hwrote, -⟩ := World.wrote_of_writeFile hv.tree hplain hP hne hwrite
    have hv₁ : (v.noted r.rehearsed).2.disk.Wrote w₁.disk (done ++ [t]) :=
      hv.trans hwrote fun u hu => List.forall_mem_singleton.mpr (hdone u hu)
    rw [List.append_cons] at hapart hfree
    obtain ⟨v', hv'⟩ := ih hv₁ htree hlinkless hnamed hapart hfree hrest
    exact ⟨v', writeAll_cons hrehearsed hv'⟩

theorem status_of_writeAll {xs : List (Path × ByteArray)}
    (h : (diskWriter false).writeAll xs w = (.ok rs, w')) : ∀ r ∈ rs, r.status ≠ .skipped := by
  induction xs generalizing w rs with
  | nil =>
    cases h
    nofun
  | cons x xs ih =>
    obtain ⟨r, rs', w₁, hwrite, hrest, rfl⟩ := writeAll_cons_eq_ok h
    exact List.forall_mem_cons.mpr ⟨World.status_of_writeFile hwrite, ih hrest⟩

/-- A dry run that succeeds finds no file above a target. -/
theorem lookup_above_of_writeAll (htree : v.disk.IsTree)
    (hts : ∀ t ∈ ts, t.1.Named ∧ Walkable t.1.path t.1)
    (h : (diskWriter true).writeAll ts.onPaths v = (.ok rs, v')) :
    ∀ t ∈ ts, ∀ S, S <+: t.1 → S ≠ t.1 → ∀ x, v.disk.lookup S ≠ some (.file x) := by
  induction ts generalizing v rs with
  | nil => exact nofun
  | cons t ts ih =>
    obtain ⟨⟨hP, hwalkable⟩, hts⟩ := List.forall_mem_cons.mp hts
    obtain ⟨r, rs', v₁, hwrite, hrest, -⟩ := writeAll_cons_eq_ok h
    replace hwrite : World.writeFile true t.1.path t.2 v = (.ok r, v₁) := hwrite
    have hdisk : v₁.disk = v.disk := by
      rw [← World.disk_writeFile_dryRun t.1.path t.2 v, hwrite]
    refine List.forall_mem_cons.mpr ⟨fun S hS hne x hfile => ?_,
      hdisk ▸ ih (hdisk ▸ htree) hts hrest⟩
    have hread := read_of_file_above htree hP hwalkable hS hne hfile
    rcases World.has_or_lacks hwrite with ⟨y, hy, -⟩ | ⟨e, he, hkind⟩ | ⟨y, hy, -⟩
    · cases hread.symm.trans hy
    · obtain rfl := Except.error.inj (hread.symm.trans he)
      cases hkind
    · cases hread.symm.trans hy

/-- Where a real run succeeds, a dry run does so just if no target blocks a later one. -/
theorem writeAll_dryRun_iff (htree : w.disk.IsTree) (hlinkless : w.disk.Linkless)
    (hnamed : ∀ t ∈ ts, t.1.Named ∧ t.1 ≠ []) (hapart : ts.Pairwise fun t u => t.1.Apart u.1)
    (h : (diskWriter false).writeAll ts.onPaths w = (.ok rs, w')) (rs' : List WriteRecord) :
    ((diskWriter true).writeAll ts.onPaths w).1 = .ok rs' ↔
      rs' = rs.map WriteRecord.rehearsed ∧
        ts.Pairwise fun t u => ¬w.disk.Blocks t.1.path u.1.path := by
  obtain ⟨hwrote, -⟩ :=
    wrote_of_writeAll htree ⟨fun t ht => ⟨hlinkless.plain t.1, hnamed t ht⟩, hapart⟩ h
  have hwalkable : ∀ t ∈ ts, Walkable t.1.path t.1 := fun t ht => (hwrote.holds t ht).walkable
  have hblocks : ∀ {t u}, t ∈ ts → u ∈ ts → (w.disk.Blocks t.1.path u.1.path ↔
      t.1.neighbour <+: u.1 ∧ ∃ x, w.disk.lookup t.1.neighbour = some (.file x)) :=
    fun ht hu => blocks_iff htree hlinkless (hnamed _ ht).1 (hnamed _ ht).2 (hnamed _ hu).1
      (hwalkable _ hu)
  have hdry : ts.Pairwise (fun t u => ¬w.disk.Blocks t.1.path u.1.path) →
      ((diskWriter true).writeAll ts.onPaths w).1 = .ok (rs.map WriteRecord.rehearsed) := by
    intro hfree
    obtain ⟨v', hv'⟩ := writeAll_rehearsed (wrote_nil htree) htree hlinkless hnamed hapart
      (hfree.imp_of_mem fun ht hu hnot hbelow x hx => hnot ((hblocks ht hu).mpr ⟨hbelow, x, hx⟩)) h
    rw [hv']
  constructor
  · -- what blocks a target would have been found above it
    intro hrs'
    have habove := lookup_above_of_writeAll htree
      (fun t ht => ⟨(hnamed t ht).1, hwalkable t ht⟩) (Prod.ext hrs' rfl)
    have hfree : ts.Pairwise fun t u => ¬w.disk.Blocks t.1.path u.1.path := by
      refine hapart.imp_of_mem fun {t u} ht hu happart hblock => ?_
      obtain ⟨hbelow, x, hx⟩ := (hblocks ht hu).mp hblock
      exact habove u hu _ hbelow happart.2.2.symm x hx
    exact ⟨Except.ok.inj (hrs'.symm.trans (hdry hfree)), hfree⟩
  · rintro ⟨rfl, hfree⟩
    exact hdry hfree

end FileWriter

/-! ## Queued writes -/

/-- Neither path is the other one or its neighbour. -/
def Path.Apart (p q : Path) : Prop := p ≠ q ∧ p ≠ temporaryPath q ∧ q ≠ temporaryPath p

instance (p q : Path) : Decidable (p.Apart q) :=
  inferInstanceAs (Decidable (p ≠ q ∧ p ≠ temporaryPath q ∧ q ≠ temporaryPath p))

instance (d : Disk) (p q : Path) : Decidable (d.Blocks p q) :=
  inferInstanceAs (Decidable (d.isFile (temporaryPath p) = true ∧ _ = true))

theorem Place.apart_of_path {P Q : Place} (hP : P.Named ∧ P ≠ []) (hQ : Q.Named ∧ Q ≠ [])
    (h : P.path.Apart Q.path) : P.Apart Q := by
  rw [Path.Apart, (hP.1.neighbour hP.2).2, (hQ.1.neighbour hQ.2).2] at h
  exact ⟨fun heq => h.1 (congrArg path heq), fun heq => h.2.1 (congrArg path heq),
    fun heq => h.2.2 (congrArg path heq)⟩

/-- Nothing is touched by a dry run. And where there are no links, the targets are apart and the
real run succeeds, it says the same as this one of every target, but that what would be written is
skipped; except that it fails if a file at the neighbour of a target is in the way of a later
one. -/
theorem dryRun_foretells {writes : List QueuedWrite} (htree : w.disk.IsTree)
    (hlinkless : w.disk.Linkless) :
    ((diskWriter true).apply root writes w).2.disk = w.disk ∧
      ∀ ps rs w', targets w.disk root writes = .ok ps → ps.Pairwise Path.Apart →
        (diskWriter false).apply root writes w = (.ok rs, w') →
          (∀ r ∈ rs, r.status ≠ .skipped) ∧
          ∀ rs', ((diskWriter true).apply root writes w).1 = .ok rs' ↔
            rs' = rs.map WriteRecord.rehearsed ∧ ps.Pairwise fun p q => ¬w.disk.Blocks p q := by
  constructor
  · rw [FileWriter.apply]
    split
    · rfl
    · exact FileWriter.keeps_writeAll_dryRun w.disk _ w rfl
  · intro ps rs w' hps hapart hreal
    obtain ⟨ts, rfl, hcontents, hnamed⟩ := exists_places_of_targets hps
    have happly : ∀ dryRun : Bool, (diskWriter dryRun).apply root writes w =
        (diskWriter dryRun).writeAll (Placed.onPaths ts) w := by
      intro dryRun
      rw [FileWriter.apply, hps, ← hcontents]
      simp only
      rw [List.zip_map']
      rfl
    rw [happly] at hreal ⊢
    rw [List.pairwise_map] at hapart ⊢
    exact ⟨FileWriter.status_of_writeAll hreal,
      FileWriter.writeAll_dryRun_iff htree hlinkless hnamed (hapart.imp_of_mem fun ht hu =>
        Place.apart_of_path (hnamed _ ht) (hnamed _ hu)) hreal⟩

theorem eq_ok_of_toOption {ε α : Type} {x : Except ε α} {a : α} (h : x.toOption = some a) :
    x = .ok a := by
  cases x with
  | error e => cases h
  | ok b => exact congrArg Except.ok (Option.some.inj h)

/-- Two files are written in a new directory, and one has its contents already, at whose neighbour
another stands. -/
theorem dryRun_foretells_occupied :
    let w : World Unit := ⟨Disk.occupied, [], [], ()⟩
    let root := Place.path ["out"]
    let writes : List QueuedWrite := [⟨⟨"n/b.txt"⟩, ⟨#[2]⟩, "a"⟩, ⟨⟨"a.txt"⟩, ⟨#[0]⟩, "a"⟩,
      ⟨⟨"n/./c.txt"⟩, ⟨#[3]⟩, "b"⟩]
    w.disk.IsTree ∧ w.disk.Linkless ∧ ((diskWriter true).apply root writes w).2.disk = w.disk ∧
      ∃ ps rs w', targets w.disk root writes = .ok ps ∧ ps.Pairwise Path.Apart ∧
        (diskWriter false).apply root writes w = (.ok rs, w') ∧
        rs.map (·.status) = [.written, .unchanged, .written] ∧ (∀ r ∈ rs, r.status ≠ .skipped) ∧
        (ps.Pairwise fun p q => ¬w.disk.Blocks p q) ∧
        ((diskWriter true).apply root writes w).1 = .ok (rs.map WriteRecord.rehearsed) := by
  intro w root writes
  obtain ⟨hkept, hforetold⟩ : ((diskWriter true).apply root writes w).2.disk = w.disk ∧ _ :=
    dryRun_foretells Disk.isTree_occupied Disk.linkless_occupied
  have hps : targets w.disk root writes = .ok [⟨"/out/n/b.txt"⟩, ⟨"/out/a.txt"⟩,
    ⟨"/out/n/c.txt"⟩] :=
    eq_ok_of_toOption (by decide +kernel)
  have hapart : [⟨"/out/n/b.txt"⟩, ⟨"/out/a.txt"⟩, ⟨"/out/n/c.txt"⟩].Pairwise Path.Apart := by
    decide +kernel
  have hfree : [⟨"/out/n/b.txt"⟩, ⟨"/out/a.txt"⟩, ⟨"/out/n/c.txt"⟩].Pairwise
      fun p q => ¬w.disk.Blocks p q := by
    decide +kernel
  have hrs : (((diskWriter false).apply root writes w).1.toOption.map fun rs => rs.map (·.status)) =
      some [.written, .unchanged, .written] := by
    decide +kernel
  rcases hreal : (diskWriter false).apply root writes w with ⟨f | rs, w'⟩
  · rw [hreal] at hrs
    cases hrs
  · rw [hreal] at hrs
    obtain ⟨hstatus, hdry⟩ := hforetold _ rs w' hps hapart hreal
    exact ⟨Disk.isTree_occupied, Disk.linkless_occupied, hkept, _, rs, w', hps, hapart, rfl,
      Option.some.inj hrs, hstatus, hfree, (hdry _).mpr ⟨rfl, hfree⟩⟩

/-- The first target takes the file at its neighbour away, and then a directory is made there; the
dry run finds the file in the way of the second target. -/
theorem dryRun_is_blocked :
    let w : World Unit := ⟨Disk.occupied, [], [], ()⟩
    let root := Place.path ["out"]
    let writes : List QueuedWrite := [⟨⟨"a.txt"⟩, ⟨#[4]⟩, "a"⟩,
      ⟨⟨"a.txt.genpipe.tmp/b.txt"⟩, ⟨#[5]⟩, "a"⟩]
    w.disk.IsTree ∧ w.disk.Linkless ∧
      targets w.disk root writes = .ok [⟨"/out/a.txt"⟩, ⟨"/out/a.txt.genpipe.tmp/b.txt"⟩] ∧
      [⟨"/out/a.txt"⟩, ⟨"/out/a.txt.genpipe.tmp/b.txt"⟩].Pairwise Path.Apart ∧
      ((diskWriter false).apply root writes w).1.isOk = true ∧
      ((diskWriter true).apply root writes w).1.isOk = false :=
  ⟨Disk.isTree_occupied, Disk.linkless_occupied, eq_ok_of_toOption (by decide +kernel),
    by decide +kernel, by decide +kernel, by decide +kernel⟩

end StagedCodegen
