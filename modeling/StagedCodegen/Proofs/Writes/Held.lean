import StagedCodegen.Proofs.Writes.Again

/-!
# Contents that are there

A place holds contents if a file is there with their digest, where an operating system finds it
(`Disk.Holds`). A write of contents that are held does nothing (`World.writeFile_of_holds`), and
what has been written plainly is held (`World.wrote_of_writeFile`). It stays so if none of the later
writes goes to the place itself or is made by way of it (`Disk.Wrote.trans`): then all that was
written is held in the end, and writing it again does nothing.

Main statements: `FileWriter.writeAll_of_holds`, `FileWriter.wrote_of_writeAll`.
-/

namespace StagedCodegen

/-- Contents, each for a place. -/
abbrev Placed : Type := List (Place × ByteArray)

/-- The same, for the paths of the places. -/
def Placed.onPaths (ts : Placed) : List (Path × ByteArray) := ts.map fun t => (t.1.path, t.2)

theorem Place.same_path_iff {P Q : Place} (hP : P.Named) (hQ : Q.Named) :
    P.path.same Q.path = true ↔ P = Q := by
  refine ⟨fun h => ?_, fun h => by simp [h, Path.same]⟩
  rw [Path.same, beq_iff_eq, components_path hP, components_path hQ] at h
  exact Place.eq_of_names (List.cons.inj h).2

/-- Neither place is the other one or its neighbour. -/
def Place.Apart (P Q : Place) : Prop := P ≠ Q ∧ P ≠ Q.neighbour ∧ Q ≠ P.neighbour

theorem Place.Apart.symm {P Q : Place} (h : P.Apart Q) : Q.Apart P := ⟨h.1.symm, h.2.2, h.2.1⟩

namespace Disk

variable {d d' d'' : Disk} {B P Q : Place} {c x : ByteArray} {ts us : Placed}

/-! ## Held contents -/

/-- Contents with the digest are at the place, and an operating system finds them by its path. -/
structure Holds (d : Disk) (P : Place) (c : ByteArray) : Prop where
  walkable : Walkable P.path P
  there : ∃ x, d.lookup P = some (.file x) ∧ contentHash x = contentHash c

theorem Holds.read (h : d.Holds P c) (htree : d.IsTree) (hP : P.Named) :
    ∃ x, d.read P.path = .ok x ∧ contentHash x = contentHash c := by
  obtain ⟨x, hlookup, hsame⟩ := h.there
  exact ⟨x, read_of_lookup htree hP h.walkable hlookup, hsame⟩

theorem Holds.of_lookup_eq (h : d.Holds P c) (hsame : d'.lookup P = d.lookup P) : d'.Holds P c :=
  ⟨h.walkable, by simpa only [hsame] using h.there⟩

theorem LinkFree.plain (h : d.LinkFree B) (hBP : B <+: P) (hne : B ≠ P) : d.Plain P :=
  plain_of_opens h.opens h.links hBP hne

/-! ## What was written -/

/-- Contents have been written to places: they are held there, and otherwise nothing has changed but
that neighbours are gone and directories were added on the way. -/
structure Wrote (d d' : Disk) (ts : Placed) : Prop where
  steady : d.Steady d'
  tree : d'.IsTree
  holds : ∀ t ∈ ts, d'.Holds t.1 t.2
  kept : ∀ Q, (∀ t ∈ ts, Q ≠ t.1 ∧ Q ≠ t.1.neighbour) → d'.lookup Q = d.lookup Q ∨
    d.lookup Q = none ∧ d'.lookup Q = some .dir ∧ ∃ t ∈ ts, Q <+: t.1

theorem wrote_nil (htree : d.IsTree) : d.Wrote d [] where
  steady := .refl d
  tree := htree
  holds _ ht := absurd ht List.not_mem_nil
  kept _ _ := .inl rfl

/-- What is held is still held after writes to other places. -/
theorem Wrote.holds_of_apart (h : d.Wrote d' us) (hP : d.Holds P c)
    (hapart : ∀ u ∈ us, P.Apart u.1) : d'.Holds P c := by
  rcases h.kept P fun u hu => ⟨(hapart u hu).1, (hapart u hu).2.1⟩ with hsame | ⟨hnone, -, -⟩
  · exact hP.of_lookup_eq hsame
  · obtain ⟨x, hx, -⟩ := hP.there
    cases hnone.symm.trans hx

theorem Wrote.trans (h : d.Wrote d' ts) (h' : d'.Wrote d'' us)
    (hapart : ∀ t ∈ ts, ∀ u ∈ us, t.1.Apart u.1) : d.Wrote d'' (ts ++ us) where
  steady := h.steady.trans h'.steady
  tree := h'.tree
  holds t ht := by
    rcases List.mem_append.mp ht with ht | ht
    · exact h'.holds_of_apart (h.holds t ht) (hapart t ht)
    · exact h'.holds t ht
  kept Q hQ := by
    have hfirst := h.kept Q fun t ht => hQ t (List.mem_append_left us ht)
    have hlater := h'.kept Q fun u hu => hQ u (List.mem_append_right ts hu)
    -- a directory that the first writes have made stays
    rcases hfirst with hsame | ⟨hnone, hdir, t, ht, hQt⟩
    · rw [← hsame]
      exact hlater.imp_right fun ⟨hnone, hdir, u, hu, hQu⟩ =>
        ⟨hnone, hdir, u, List.mem_append_right ts hu, hQu⟩
    · exact .inr ⟨hnone, h'.steady.dir Q hdir, t, List.mem_append_left us ht, hQt⟩

theorem usable_of_read {p : Path} (h : d.read p = .ok c) : Usable p := by
  unfold read at h
  split at h
  · next hlocate => exact usable_of_locate hlocate
  all_goals cases h

/-- What is replaced plainly is written. -/
theorem wrote_of_replace (htree : d.IsTree) (hplain : d.Plain P) (hP : P.Named) (hne : P ≠ [])
    (h : d.replace P.path c = (.ok (), d')) :
    d.Wrote d' [(P, c)] ∧ d'.lookup P = some (.file c) ∧ d'.Ready P := by
  have hready := ready_of_replace htree hplain hP hne h
  obtain ⟨X, s, rfl⟩ : ∃ (X : Place) (s : String), P = X ++ [s] :=
    (List.eq_nil_or_concat' P).resolve_left hne
  have hX : d.Straight X := hplain.straight.of_isPrefix (List.prefix_append X [s])
  have htree' := (keptOutside_of_straight (c := c) htree hX hP List.nil_prefix
    fun _ _ _ => List.nil_prefix).1
  rw [h] at htree'
  have hneighbour := hplain.neighbour
  rw [Place.neighbour_concat] at hneighbour
  obtain ⟨d₁, hreplaced⟩ := replace_eq_ok htree hX hP hneighbour h
  obtain ⟨_, _, -, -, hrename⟩ := exists_steps_of_replace h
  have hlookup : d'.lookup (X ++ [s]) = some (.file c) := by rw [hreplaced.lookup_eq, if_pos rfl]
  refine ⟨⟨hreplaced.steady hplain, htree', ?_, fun Q hQ => ?_⟩, hlookup, hready⟩
  · exact List.forall_mem_singleton.mpr
      ⟨⟨usable_of_rename hrename, hreplaced.short⟩, c, hlookup, rfl⟩
  · obtain ⟨htarget, hother⟩ := List.forall_mem_singleton.mp hQ
    rw [Place.neighbour_concat] at hother
    rw [hreplaced.lookup_eq, if_neg htarget, if_neg hother]
    refine (hreplaced.grows Q).imp_right fun ⟨hnone, hdir, hQX⟩ => ?_
    exact ⟨hnone, hdir, _, List.mem_singleton_self _, hQX.trans (List.prefix_append X [s])⟩

end Disk

open Disk

/-! ## One write -/

variable {κ : Type} {w w' : World κ} {P : Place} {c : ByteArray} {r : WriteRecord}
  {rs : List WriteRecord} {ts us : Placed}

/-- The record of a write that found its contents. -/
def unchangedRecord (t : Place × ByteArray) : WriteRecord :=
  ⟨t.1.path, .unchanged, contentHash t.2, none⟩

/-- Contents that are held are not written again. -/
theorem World.writeFile_of_holds (h : w.disk.Holds P c) (htree : w.disk.IsTree) (hP : P.Named)
    (dryRun : Bool) : World.writeFile dryRun P.path c w = w.noted (unchangedRecord (P, c)) :=
  World.writeFile_of_has (h.read htree hP)

/-- Contents that were written plainly are held: they were there already, or they are there now. -/
theorem World.wrote_of_writeFile (htree : w.disk.IsTree) (hplain : w.disk.Plain P) (hP : P.Named)
    (hne : P ≠ []) (h : World.writeFile false P.path c w = (.ok r, w')) :
    w.disk.Wrote w'.disk [(P, c)] ∧ w'.records = remember r w.records ∧ r.path = P.path ∧
      (r.status = .unchanged ∧ w'.disk = w.disk ∨
        r.status = .written ∧ w'.disk.lookup P = some (.file c) ∧ w'.disk.Ready P) := by
  cases World.writing_of_eq h with
  | written _ replace record =>
    obtain ⟨hwrote, hlookup, hready⟩ := wrote_of_replace htree hplain hP hne replace
    rw [record]
    exact ⟨hwrote, rfl, rfl, .inr ⟨rfl, hlookup, hready⟩⟩
  | unchanged has record =>
    obtain ⟨x, hread, hsame⟩ := has
    obtain ⟨hlookup, hshort⟩ := lookup_of_read hplain.straight hP hread
    rw [record]
    refine ⟨⟨.refl _, htree, ?_, fun _ _ => .inl rfl⟩, rfl, rfl, .inl ⟨rfl, rfl⟩⟩
    exact List.forall_mem_singleton.mpr ⟨⟨usable_of_read hread, hshort⟩, x, hlookup, hsame⟩

/-- What a write gives, and what it leaves, depends on the tree only. -/
theorem World.writeFile_congr {v : World κ} (h : v.disk = w.disk) (dryRun : Bool) (p : Path)
    (c : ByteArray) :
    (World.writeFile dryRun p c v).1 = (World.writeFile dryRun p c w).1 ∧
      (World.writeFile dryRun p c v).2.disk = (World.writeFile dryRun p c w).2.disk := by
  have hchange : ∀ hash,
      (World.writeFile.change dryRun p c v hash).1 = (World.writeFile.change dryRun p c w hash).1 ∧
        (World.writeFile.change dryRun p c v hash).2.disk =
          (World.writeFile.change dryRun p c w hash).2.disk := by
    intro hash
    rw [World.writeFile.change, World.writeFile.change, h]
    split
    · exact ⟨rfl, h⟩
    · split <;> exact ⟨rfl, rfl⟩
  unfold World.writeFile
  rw [h]
  simp only
  split
  · split
    · exact hchange _
    · exact ⟨rfl, h⟩
  · split
    · exact ⟨rfl, h⟩
    · exact hchange _

/-! ## Writes, one after another -/

namespace FileWriter

/-- Writes that succeed do so wherever the tree is the same. -/
theorem exists_writeAll_congr {v v' : World κ} {dryRun : Bool} {xs : List (Path × ByteArray)}
    (h : v.disk = w.disk) (hv : (diskWriter dryRun).writeAll xs v = (.ok rs, v')) :
    ∃ w', (diskWriter dryRun).writeAll xs w = (.ok rs, w') := by
  induction xs generalizing v w rs with
  | nil =>
    cases hv
    exact ⟨w, rfl⟩
  | cons x xs ih =>
    obtain ⟨r, rs', v₁, hwrite, hrest, rfl⟩ := writeAll_cons_eq_ok hv
    replace hwrite : World.writeFile dryRun x.1 x.2 v = (.ok r, v₁) := hwrite
    obtain ⟨hresult, hdisk⟩ := World.writeFile_congr h dryRun x.1 x.2
    rw [hwrite] at hresult hdisk
    rcases hwrite' : World.writeFile dryRun x.1 x.2 w with ⟨result, w₁⟩
    rw [hwrite'] at hresult hdisk
    obtain rfl : .ok r = result := hresult
    obtain ⟨w', hrest'⟩ := ih hdisk hrest
    exact ⟨w', writeAll_cons hwrite' hrest'⟩

theorem writeAll_append_eq_ok {σ : Type} {writer : FileWriter σ} {xs ys : List (Path × ByteArray)}
    {s s' : σ} (h : writer.writeAll (xs ++ ys) s = (.ok rs, s')) : ∃ rs₁ rs₂ t,
      writer.writeAll xs s = (.ok rs₁, t) ∧ writer.writeAll ys t = (.ok rs₂, s') ∧
        rs = rs₁ ++ rs₂ := by
  induction xs generalizing s rs with
  | nil => exact ⟨[], rs, s, rfl, h, rfl⟩
  | cons x xs ih =>
    obtain ⟨r, rs', t, hwrite, hrest, rfl⟩ := writeAll_cons_eq_ok h
    obtain ⟨rs₁, rs₂, u, hxs, hys, rfl⟩ := ih hrest
    exact ⟨r :: rs₁, rs₂, u, writeAll_cons hwrite hxs, hys, rfl⟩

/-- What is held already is not written again. -/
theorem writeAll_of_holds (htree : w.disk.IsTree) (hnamed : ∀ t ∈ ts, t.1.Named)
    (h : ∀ t ∈ ts, w.disk.Holds t.1 t.2) (dryRun : Bool) : ∃ w', w'.disk = w.disk ∧
      (diskWriter dryRun).writeAll ts.onPaths w = (.ok (ts.map unchangedRecord), w') := by
  induction ts generalizing w with
  | nil => exact ⟨w, rfl, rfl⟩
  | cons t ts ih =>
    obtain ⟨hP, hnamed⟩ := List.forall_mem_cons.mp hnamed
    obtain ⟨ht, hts⟩ := List.forall_mem_cons.mp h
    have hwrite := World.writeFile_of_holds ht htree hP dryRun
    obtain ⟨w', hdisk, hrest⟩ := ih (w := (w.noted (unchangedRecord t)).2) htree hnamed hts
    exact ⟨w', hdisk, writeAll_cons hwrite hrest⟩

/-- The writes go to places of their own that are named and reached plainly. -/
structure Orderly (d : Disk) (ts : Placed) : Prop where
  plain : ∀ t ∈ ts, d.Plain t.1 ∧ t.1.Named ∧ t.1 ≠ []
  apart : ts.Pairwise fun t u => t.1.Apart u.1

/-- What was written plainly to places of their own is held. -/
theorem wrote_of_writeAll (htree : w.disk.IsTree) (hts : Orderly w.disk ts)
    (h : (diskWriter false).writeAll ts.onPaths w = (.ok rs, w')) :
    w.disk.Wrote w'.disk ts ∧ w'.records = rs.foldl (fun all r => remember r all) w.records ∧
      rs.map (·.path) = ts.map (·.1.path) := by
  induction ts generalizing w rs with
  | nil =>
    cases h
    exact ⟨wrote_nil htree, rfl, rfl⟩
  | cons t ts ih =>
    obtain ⟨⟨hplain, hP, hne⟩, hrestPlain⟩ := List.forall_mem_cons.mp hts.plain
    obtain ⟨hapart, hrestApart⟩ := List.pairwise_cons.mp hts.apart
    obtain ⟨r, rs', w₁, hwrite, hrest, rfl⟩ := writeAll_cons_eq_ok h
    obtain ⟨hwrote, hrecords, hpath, -⟩ := World.wrote_of_writeFile htree hplain hP hne hwrite
    have hts₁ : Orderly w₁.disk ts :=
      ⟨fun u hu => (hrestPlain u hu).imp_left fun hplain => hplain.steady hwrote.steady, hrestApart⟩
    obtain ⟨hwrote', hrecords', hpaths⟩ := ih hwrote.tree hts₁ hrest
    refine ⟨hwrote.trans hwrote' (List.forall_mem_singleton.mpr hapart), ?_, ?_⟩
    · rw [hrecords', hrecords]
      rfl
    · rw [List.map_cons, List.map_cons, hpath, hpaths]

variable {t : Place × ByteArray}

theorem writeAll_concat_eq_ok (h : (diskWriter false).writeAll (Placed.onPaths (ts ++ [t])) w =
    (.ok rs, w')) : ∃ rs' r w₁, (diskWriter false).writeAll ts.onPaths w = (.ok rs', w₁) ∧
      World.writeFile false t.1.path t.2 w₁ = (.ok r, w') ∧ rs = rs' ++ [r] := by
  rw [Placed.onPaths, List.map_append] at h
  obtain ⟨rs', rs₂, w₁, hts, ht, rfl⟩ := writeAll_append_eq_ok h
  obtain ⟨r, rs₃, w₂, hwrite, hnone, rfl⟩ := writeAll_cons_eq_ok ht
  cases hnone
  exact ⟨rs', r, w₁, hts, hwrite, rfl⟩

theorem Orderly.concat {d d' : Disk} (h : Orderly d (ts ++ [t])) (hsteady : d.Steady d') :
    Orderly d ts ∧ (∀ u ∈ ts, u.1.Apart t.1) ∧ d'.Plain t.1 ∧ t.1.Named ∧ t.1 ≠ [] := by
  obtain ⟨hts, -, hlast⟩ := List.pairwise_append.mp h.apart
  obtain ⟨hplain, hnamed, hne⟩ := h.plain t (List.mem_append_right ts (List.mem_singleton_self t))
  exact ⟨⟨fun u hu => h.plain u (List.mem_append_left _ hu), hts⟩,
    fun u hu => hlast u hu t (List.mem_singleton_self t), hplain.steady hsteady, hnamed, hne⟩

theorem writeAll_concat {w₁ : World κ}
    (hts : (diskWriter false).writeAll ts.onPaths w = (.ok rs, w₁))
    (ht : World.writeFile false t.1.path t.2 w₁ = (.ok r, w')) :
    (diskWriter false).writeAll (Placed.onPaths (ts ++ [t])) w = (.ok (rs ++ [r]), w') := by
  induction ts generalizing w rs with
  | nil =>
    cases hts
    exact writeAll_cons ht rfl
  | cons u ts ih =>
    obtain ⟨r', rs', w₂, hwrite, hrest, rfl⟩ := writeAll_cons_eq_ok hts
    exact writeAll_cons hwrite (ih hrest)

/-- The place of the last write is as it was, or it has what was written and can be written to
again. -/
theorem lookup_of_writeAll_concat (htree : w.disk.IsTree) (hts : Orderly w.disk (ts ++ [t]))
    (h : (diskWriter false).writeAll (Placed.onPaths (ts ++ [t])) w = (.ok rs, w')) :
    w'.disk.lookup t.1 = w.disk.lookup t.1 ∨
      w'.disk.lookup t.1 = some (.file t.2) ∧ w'.disk.Ready t.1 := by
  obtain ⟨rs', r, w₁, hrest, hwrite, -⟩ := writeAll_concat_eq_ok h
  obtain ⟨hrestOrderly, -⟩ := hts.concat (.refl _)
  obtain ⟨hwrote, -, -⟩ := wrote_of_writeAll htree hrestOrderly hrest
  obtain ⟨-, hapart, hplain, hnamed, hne⟩ := hts.concat hwrote.steady
  obtain ⟨hlast, -, -, ⟨-, hdisk⟩ | ⟨-, hwritten⟩⟩ :=
    World.wrote_of_writeFile hwrote.tree hplain hnamed hne hwrite
  · -- what was found there is a file, so that no directory was made there
    rcases hwrote.kept t.1 fun u hu => ⟨(hapart u hu).symm.1, (hapart u hu).symm.2.1⟩ with
      hsame | ⟨-, hdir, -⟩
    · exact .inl (hdisk ▸ hsame)
    · obtain ⟨x, hx, -⟩ := (hlast.holds t (List.mem_singleton_self t)).there
      cases (hdisk ▸ hdir).symm.trans hx
  · exact .inr hwritten

/-- If all contents but the last are held already, nothing happens before the last write. -/
theorem writeAll_concat_of_holds (htree : w.disk.IsTree) (hts : Orderly w.disk (ts ++ [t]))
    (hheld : ∀ u ∈ ts, w.disk.Holds u.1 u.2)
    (h : (diskWriter false).writeAll (Placed.onPaths (ts ++ [t])) w = (.ok rs, w')) :
    ∃ r, rs = ts.map unchangedRecord ++ [r] ∧ r.path = t.1.path := by
  obtain ⟨rs', r, w₁, hrest, hwrite, rfl⟩ := writeAll_concat_eq_ok h
  obtain ⟨hrestOrderly, -, hplain, hnamed, hne⟩ := hts.concat (.refl _)
  obtain ⟨w₂, hdisk, hkept⟩ := writeAll_of_holds htree
    (fun u hu => (hrestOrderly.plain u hu).2.1) hheld false
  obtain ⟨hrs, rfl⟩ := Prod.mk.inj (hkept.symm.trans hrest)
  obtain rfl := Except.ok.inj hrs
  obtain ⟨-, -, hpath, -⟩ :=
    World.wrote_of_writeFile (hdisk ▸ htree) (hdisk ▸ hplain) hnamed hne hwrite
  exact ⟨r, rfl, hpath⟩

end FileWriter

/-! ## Queued writes -/

/-- The contents of queued writes, each for the place that its path is resolved to. -/
def Place.placed (B : Place) (qs : List QueuedWrite) : Placed :=
  qs.map fun q => (B.target q.path, q.contents)

theorem Place.onPaths_placed (B : Place) (qs : List QueuedWrite) : (B.placed qs).onPaths =
    ((B.placed qs).map (·.1.path)).zip (qs.map (·.contents)) := by
  rw [Placed.onPaths, Place.placed, List.map_map, List.map_map, List.zip_map']
  rfl

section Queued

variable {B : Place} {qs : List QueuedWrite} {ps : List Path}

/-- Queued writes go to the places of their names, if these have any. -/
theorem targets_eq_ok_iff {d : Disk} (hfree : d.LinkFree B) (hB : B.Named)
    (hcomposed : B.Composed) (hqs : ∀ q ∈ qs, q.path.isAbsolute = false ∧ .up ∉ q.path.components) :
    targets d B.path qs = .ok ps ↔
      ps = (B.placed qs).map (·.1.path) ∧ ∀ t ∈ B.placed qs, B ≠ t.1 := by
  induction qs generalizing ps with
  | nil =>
    exact ⟨fun h => ⟨(Except.ok.inj h).symm, fun _ ht => absurd ht List.not_mem_nil⟩,
      fun h => congrArg Except.ok h.1.symm⟩
  | cons q qs ih =>
    obtain ⟨⟨hrelative, hup⟩, hqs⟩ := List.forall_mem_cons.mp hqs
    have hq := fun p => hfree.resolveWithin_eq_ok_iff (q := p) hB hcomposed hrelative hup
    constructor
    · intro h
      obtain ⟨p, ps', hp, hps, rfl⟩ := targets_cons_eq_ok h
      obtain ⟨rfl, hne⟩ := (hq p).mp hp
      obtain ⟨rfl, hrest⟩ := (ih hqs).mp hps
      exact ⟨rfl, List.forall_mem_cons.mpr ⟨hne, hrest⟩⟩
    · rintro ⟨rfl, hall⟩
      obtain ⟨hne, hrest⟩ := List.forall_mem_cons.mp hall
      rw [targets_cons, (hq _).mpr ⟨rfl, hne⟩, (ih hqs).mpr ⟨rfl, hrest⟩]
      rfl

/-- To apply queued writes is to write to the places of their names. -/
theorem FileWriter.apply_eq_writeAll {writer : FileWriter (World κ)}
    (h : targets w.disk B.path qs = .ok ((B.placed qs).map (·.1.path))) :
    writer.apply B.path qs w = writer.writeAll (B.placed qs).onPaths w := by
  rw [FileWriter.apply, h, Place.onPaths_placed]

/-- Queued writes that are applied in a directory without links are written to the places of their
names. -/
theorem writeAll_of_apply (hfree : w.disk.LinkFree B) (hB : B.Named) (hcomposed : B.Composed)
    (hqs : ∀ q ∈ qs, q.path.isAbsolute = false ∧ .up ∉ q.path.components)
    (h : (diskWriter false).apply B.path qs w = (.ok rs, w')) :
    targets w.disk B.path qs = .ok ((B.placed qs).map (·.1.path)) ∧
      (diskWriter false).writeAll (B.placed qs).onPaths w = (.ok rs, w') := by
  rcases hps : targets w.disk B.path qs with f | ps
  · rw [FileWriter.apply, hps] at h
    cases h
  · obtain ⟨rfl, -⟩ := (targets_eq_ok_iff hfree hB hcomposed hqs).mp hps
    exact ⟨rfl, FileWriter.apply_eq_writeAll hps ▸ h⟩

end Queued

variable {root : Path}

/-- The last of some plain writes leaves its contents, or others with the same digest. -/
theorem exists_last_of_writeAll {d : Disk} {q : QueuedWrite} {others : List QueuedWrite}
    {ps : List Path} {rs : List WriteRecord} (htree : w.disk.IsTree)
    (hplain : ∀ q' ∈ others ++ [q], ∀ P : Place, P.Named →
      d.resolveWithin root q'.path = .ok P.path → w.disk.Plain P)
    (hps : targets d root (others ++ [q]) = .ok ps)
    (h : (diskWriter false).writeAll (ps.zip ((others ++ [q]).map (·.contents))) w = (.ok rs, w')) :
    w'.disk.IsTree ∧ w.disk.Steady w'.disk ∧
      ∃ P : Place, P.Named ∧ d.resolveWithin root q.path = .ok P.path ∧
        (∀ t ∈ P, t.utf8ByteSize ≤ 255) ∧
        ∃ x, w'.disk.lookup P = some (.file x) ∧ contentHash x = contentHash q.contents := by
  induction others generalizing w ps rs with
  | nil =>
    obtain ⟨p, ps', hp, hnone, rfl⟩ := targets_cons_eq_ok hps
    cases hnone
    obtain ⟨P, hP, hne, rfl⟩ := Disk.exists_place_of_resolveWithin hp
    obtain ⟨r, rs', w₁, hwrite, hrest, rfl⟩ := FileWriter.writeAll_cons_eq_ok h
    cases hrest
    obtain ⟨hwrote, -⟩ := World.wrote_of_writeFile htree
      (hplain q (List.mem_singleton_self q) P hP hp) hP hne hwrite
    obtain ⟨⟨-, hshort⟩, hfile⟩ := hwrote.holds _ (List.mem_singleton_self _)
    exact ⟨hwrote.tree, hwrote.steady, P, hP, hp, hshort, hfile⟩
  | cons q' others ih =>
    obtain ⟨p, ps', hp, hps', rfl⟩ := targets_cons_eq_ok hps
    obtain ⟨P, hP, hne, rfl⟩ := Disk.exists_place_of_resolveWithin hp
    obtain ⟨r, rs', w₁, hwrite, hrest, rfl⟩ := FileWriter.writeAll_cons_eq_ok h
    obtain ⟨hwrote, -⟩ :=
      World.wrote_of_writeFile htree (hplain q' List.mem_cons_self P hP hp) hP hne hwrite
    have hplain₁ : ∀ q'' ∈ others ++ [q], ∀ P : Place, P.Named →
        d.resolveWithin root q''.path = .ok P.path → w₁.disk.Plain P :=
      fun q'' hq'' P hP hp =>
        (hplain q'' (List.mem_cons_of_mem q' hq'') P hP hp).steady hwrote.steady
    obtain ⟨htree', hsteady', hlast⟩ := ih hwrote.tree hplain₁ hps' hrest
    exact ⟨htree', hwrote.steady.trans hsteady', hlast⟩

/-- If all writes that are applied are plain at the start, the last one leaves its contents, or
others with the same digest, at the place that its path is resolved to. -/
theorem exists_last_of_apply {q : QueuedWrite} {others : List QueuedWrite} {rs : List WriteRecord}
    (htree : w.disk.IsTree)
    (hplain : ∀ q' ∈ others ++ [q], ∀ P : Place, P.Named →
      w.disk.resolveWithin root q'.path = .ok P.path → w.disk.Plain P)
    (h : (diskWriter false).apply root (others ++ [q]) w = (.ok rs, w')) :
    w'.disk.IsTree ∧ w.disk.Steady w'.disk ∧
      ∃ P : Place, P.Named ∧ w.disk.resolveWithin root q.path = .ok P.path ∧
        (∀ t ∈ P, t.utf8ByteSize ≤ 255) ∧
        ∃ x, w'.disk.lookup P = some (.file x) ∧ contentHash x = contentHash q.contents := by
  rw [FileWriter.apply] at h
  split at h
  · cases h
  · next ps hps => exact exists_last_of_writeAll htree hplain hps h

/-! ## What the writer remembers -/

theorem remember_of_new {all : List WriteRecord} (h : ∀ s ∈ all, s.path.same r.path = false) :
    remember r all = all ++ [r] := by
  induction all with
  | nil => rfl
  | cons s all ih =>
    obtain ⟨hs, hall⟩ := List.forall_mem_cons.mp h
    rw [remember, hs, if_neg Bool.false_ne_true, ih hall, List.cons_append]

/-- Every record of a path of its own is remembered. -/
theorem foldl_remember {all : List WriteRecord}
    (h : (all ++ rs).Pairwise fun r s => r.path.same s.path = false) :
    rs.foldl (fun all r => remember r all) all = all ++ rs := by
  induction rs generalizing all with
  | nil => rw [List.foldl_nil, List.append_nil]
  | cons r rs ih =>
    have hnew : ∀ s ∈ all, s.path.same r.path = false := fun s hs =>
      (List.pairwise_append.mp h).2.2 s hs r List.mem_cons_self
    rw [List.foldl_cons, remember_of_new hnew, ih, List.append_assoc, List.singleton_append]
    rwa [List.append_assoc, List.singleton_append]

/-- A writer that has written nothing yet remembers one record for each place. -/
theorem records_of_writeAll (htree : w.disk.IsTree) (hts : FileWriter.Orderly w.disk ts)
    (hnone : w.records = []) (h : (diskWriter false).writeAll ts.onPaths w = (.ok rs, w')) :
    w'.records = rs := by
  obtain ⟨-, hrecords, hpaths⟩ := FileWriter.wrote_of_writeAll htree hts h
  rw [hrecords, hnone, foldl_remember, List.nil_append]
  have hapart : (rs.map (·.path)).Pairwise fun p q => p.same q = false := by
    rw [hpaths, List.pairwise_map]
    refine hts.apart.imp_of_mem fun {t u} ht hu happart => ?_
    rw [← Bool.not_eq_true, Place.same_path_iff (hts.plain t ht).2.1 (hts.plain u hu).2.1]
    exact happart.1
  exact List.pairwise_map.mp hapart

end StagedCodegen
