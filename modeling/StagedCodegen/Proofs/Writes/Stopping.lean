import StagedCodegen.Proofs.Adapter.Settling
import StagedCodegen.Proofs.Writes.Failing
import StagedCodegen.Proofs.Writes.Rehearsal

/-!
# Where queued writes stop

Before anything is written, all queued writes are resolved. So if one of them leads out of the root,
nothing happens at all, however many there are before it (`targets_of_error`). Later only a write
can fail. Then those before it were carried out, as if they had been queued alone, and those after
it are not attempted (`FileWriter.writeAll_of_error`).

Main statement: `FileWriter.apply_stops`.
-/

namespace StagedCodegen

variable {κ : Type}

/-! ## Targets -/

section Targets

variable {d : Disk} {root : Path} {before after writes : List QueuedWrite} {q : QueuedWrite}
  {f : Failure}

/-- The write leads to a path strictly inside the root. -/
def QueuedWrite.Resolves (d : Disk) (root : Path) (q : QueuedWrite) : Prop :=
  ∃ p, d.resolveWithin root q.path = .ok p

/-- The first write that leads out of the root fails all of them. -/
theorem targets_of_error (hbefore : ∀ b ∈ before, b.Resolves d root)
    (hq : d.resolveWithin root q.path = .error f) :
    targets d root (before ++ q :: after) = .error f := by
  induction before with
  | nil => rw [List.nil_append, targets_cons, hq]
  | cons b before ih =>
    obtain ⟨⟨p, hp⟩, hbefore⟩ := List.forall_mem_cons.mp hbefore
    rw [List.cons_append, targets_cons, hp, ih hbefore]

/-- A queued write with the path that it leads to, as the writer is called for it. -/
def QueuedWrite.call (t : QueuedWrite × Path) : Path × ByteArray := (t.2, t.1.contents)

theorem exists_resolved (h : ∀ q ∈ writes, q.Resolves d root) :
    ∃ ts : List (QueuedWrite × Path), writes = ts.map (·.1) ∧
      ∀ t ∈ ts, d.resolveWithin root t.1.path = .ok t.2 := by
  induction writes with
  | nil => exact ⟨[], rfl, fun t ht => absurd ht List.not_mem_nil⟩
  | cons q writes ih =>
    obtain ⟨⟨p, hp⟩, hwrites⟩ := List.forall_mem_cons.mp h
    obtain ⟨ts, rfl, hts⟩ := ih hwrites
    exact ⟨(q, p) :: ts, rfl, List.forall_mem_cons.mpr ⟨hp, hts⟩⟩

theorem targets_resolved {ts : List (QueuedWrite × Path)}
    (h : ∀ t ∈ ts, d.resolveWithin root t.1.path = .ok t.2) :
    targets d root (ts.map (·.1)) = .ok (ts.map (·.2)) := by
  induction ts with
  | nil => rfl
  | cons t ts ih =>
    obtain ⟨ht, hts⟩ := List.forall_mem_cons.mp h
    rw [List.map_cons, targets_cons, ht, ih hts, List.map_cons]

end Targets

/-! ## Writing one after another -/

namespace FileWriter

variable {writer : FileWriter (World κ)} {before after xs : List (Path × ByteArray)}
  {x : Path × ByteArray} {w t u : World κ} {rs : List WriteRecord} {f : Failure} {dryRun : Bool}

/-- The world has the summary of the writer, which has the record of every write that succeeds in
place of an earlier one of the same path, and nothing of a write that fails. -/
structure Remembers (writer : FileWriter (World κ)) (records : World κ → List WriteRecord) :
    Prop where
  ok : ∀ {p c w w' r}, writer.write p c w = (.ok r, w') → records w' = remember r (records w)
  error : ∀ {p c w w' f}, writer.write p c w = (.error f, w') → records w' = records w

theorem remembers_diskWriter (dryRun : Bool) :
    (diskWriter dryRun : FileWriter (World κ)).Remembers World.records where
  ok {p c w w' r} h := by
    have hrecords := World.records_writeFile dryRun p c w
    rwa [show World.writeFile dryRun p c w = (.ok r, w') from h] at hrecords
  error {p c w w' f} h := by
    have hrecords := World.records_writeFile dryRun p c w
    rwa [show World.writeFile dryRun p c w = (.error f, w') from h] at hrecords

theorem length_of_writeAll (h : writer.writeAll xs w = (.ok rs, t)) : rs.length = xs.length := by
  induction xs generalizing w rs with
  | nil =>
    cases h
    rfl
  | cons x xs ih =>
    obtain ⟨r, rs', v, -, hrest, rfl⟩ := writeAll_cons_eq_ok h
    exact congrArg (· + 1) (ih hrest)

theorem log_of_writeAll {log : World κ → List (Path × ByteArray)} (hlog : writer.Logs log)
    (h : writer.writeAll xs w = (.ok rs, t)) : log t = log w ++ xs := by
  induction xs generalizing w rs with
  | nil =>
    cases h
    exact (List.append_nil _).symm
  | cons x xs ih =>
    obtain ⟨r, rs', v, hwrite, hrest, -⟩ := writeAll_cons_eq_ok h
    have hcall := hlog x.1 x.2 w
    rw [hwrite] at hcall
    rw [ih hrest, hcall, List.append_assoc, List.singleton_append]

theorem Remembers.writeAll {records : World κ → List WriteRecord}
    (hrecords : writer.Remembers records) (h : writer.writeAll xs w = (.ok rs, t)) :
    records t = rs.foldl (fun all r => remember r all) (records w) := by
  induction xs generalizing w rs with
  | nil =>
    cases h
    rfl
  | cons x xs ih =>
    obtain ⟨r, rs', v, hwrite, hrest, rfl⟩ := writeAll_cons_eq_ok h
    rw [ih hrest, hrecords.ok hwrite, List.foldl_cons]

theorem isTree_of_writeAll (htree : w.disk.IsTree)
    (hxs : ∀ x ∈ xs, ∃ P : Place, P.Named ∧ P ≠ [] ∧ x.1 = P.path)
    (h : (diskWriter dryRun).writeAll xs w = (.ok rs, t)) : t.disk.IsTree := by
  induction xs generalizing w rs with
  | nil =>
    cases h
    exact htree
  | cons x xs ih =>
    obtain ⟨⟨P, hP, hne, hx⟩, hxs⟩ := List.forall_mem_cons.mp hxs
    obtain ⟨r, rs', v, hwrite, hrest, rfl⟩ := writeAll_cons_eq_ok h
    rw [hx] at hwrite
    exact ih (World.isTree_of_writeFile htree hP hne hwrite) hxs hrest

/-- Where a write fails, the writing stops. -/
theorem writeAll_of_error (hbefore : writer.writeAll before w = (.ok rs, t))
    (hx : writer.write x.1 x.2 t = (.error f, u)) :
    writer.writeAll (before ++ x :: after) w = (.error f, u) := by
  induction before generalizing w rs with
  | nil =>
    cases hbefore
    exact Attempt.bind_eq_error.mpr (.inl hx)
  | cons b before ih =>
    obtain ⟨r, rs', v, hwrite, hrest, rfl⟩ := writeAll_cons_eq_ok hbefore
    refine Attempt.bind_eq_error.mpr (.inr ⟨r, v, hwrite, ?_⟩)
    exact Attempt.bind_eq_error.mpr (.inl (ih hrest))

/-- Either all writes succeed, or there is a first that fails. -/
theorem writeAll_cases (writer : FileWriter (World κ)) (xs : List (Path × ByteArray))
    (w : World κ) : (∃ rs t, writer.writeAll xs w = (.ok rs, t)) ∨
      ∃ before x after rs t f u, xs = before ++ x :: after ∧
        writer.writeAll before w = (.ok rs, t) ∧ writer.write x.1 x.2 t = (.error f, u) := by
  induction xs generalizing w with
  | nil => exact .inl ⟨[], w, rfl⟩
  | cons x xs ih =>
    rcases hx : writer.write x.1 x.2 w with ⟨f | r, v⟩
    · exact .inr ⟨[], x, xs, [], w, f, v, rfl, rfl, hx⟩
    · rcases ih v with ⟨rs, t, hrest⟩ | ⟨before, y, after, rs, t, f, u, rfl, hbefore, hy⟩
      · exact .inl ⟨r :: rs, t, writeAll_cons hx hrest⟩
      · exact .inr ⟨x :: before, y, after, r :: rs, t, f, u, rfl, writeAll_cons hx hbefore, hy⟩

/-- What writes on the disk fail for is a file operation. -/
theorem exists_io_of_writeAll {dryRun : Bool} {xs : List (Path × ByteArray)}
    (h : (diskWriter dryRun).writeAll xs w = (.error f, t)) : ∃ q e, f = .io q e := by
  rcases writeAll_cases (diskWriter dryRun) xs w with
    ⟨rs, u, hall⟩ | ⟨before, x, after, rs, u, g, v, rfl, hbefore, hx⟩
  · cases hall.symm.trans h
  · cases (writeAll_of_error hbefore hx).symm.trans h
    exact World.exists_io_of_writeFile hx

/-! ## Queued writes -/

variable {root : Path} {ts : List (QueuedWrite × Path)}

/-- Queued writes that lead nowhere but inside are handed to the writer in turn. -/
theorem apply_resolved (writer : FileWriter (World κ))
    (h : ∀ t ∈ ts, w.disk.resolveWithin root t.1.path = .ok t.2) :
    writer.apply root (ts.map (·.1)) w = writer.writeAll (ts.map QueuedWrite.call) w := by
  rw [apply, targets_resolved h]
  simp only
  rw [List.map_map, List.zip_map']
  rfl

/-- The writes that are queued before this one are carried out, with these records, and this one
fails. -/
structure FailsAt (writer : FileWriter (World κ)) (root : Path) (before : List QueuedWrite)
    (q : QueuedWrite) (w : World κ) (rs : List WriteRecord) (t : World κ) (f : Failure)
    (u : World κ) : Prop where
  before : writer.apply root before w = (.ok rs, t)
  fails : ∃ p, w.disk.resolveWithin root q.path = .ok p ∧
    writer.write p q.contents t = (.error f, u)

namespace FailsAt

variable {before after : List QueuedWrite} {q : QueuedWrite}

/-- The writer is called for the writes before, which succeed, and for this one. -/
theorem exists_calls (h : FailsAt writer root before q w rs t f u)
    (hbefore : ∀ b ∈ before, b.Resolves w.disk root) :
    ∃ (ts : List (QueuedWrite × Path)) (p : Path), before = ts.map (·.1) ∧
      (∀ t ∈ ts ++ [(q, p)], w.disk.resolveWithin root t.1.path = .ok t.2) ∧
      writer.writeAll (ts.map QueuedWrite.call) w = (.ok rs, t) ∧
      writer.write p q.contents t = (.error f, u) := by
  obtain ⟨happly, p, hp, hfails⟩ := h
  obtain ⟨ts, rfl, hts⟩ := exists_resolved hbefore
  rw [apply_resolved writer hts] at happly
  exact ⟨ts, p, rfl, List.forall_mem_append.mpr ⟨hts, List.forall_mem_singleton.mpr hp⟩, happly,
    hfails⟩

/-- Those after it are not attempted. -/
theorem apply_eq (h : FailsAt writer root before q w rs t f u)
    (hwrites : ∀ b ∈ before ++ q :: after, b.Resolves w.disk root) :
    writer.apply root (before ++ q :: after) w = (.error f, u) := by
  obtain ⟨hbefore, hrest⟩ := List.forall_mem_append.mp hwrites
  obtain ⟨ts, p, rfl, hts, hwritten, hfails⟩ := h.exists_calls hbefore
  obtain ⟨ts', rfl, hts'⟩ := exists_resolved fun b hb => hrest b (List.mem_cons_of_mem q hb)
  have hall : ∀ t ∈ ts ++ (q, p) :: ts', w.disk.resolveWithin root t.1.path = .ok t.2 := by
    rw [List.append_cons]
    exact List.forall_mem_append.mpr ⟨hts, hts'⟩
  have happly := apply_resolved writer hall
  rw [List.map_append, List.map_cons] at happly
  rw [happly, List.map_append, List.map_cons]
  exact writeAll_of_error hwritten hfails

/-- Each is called for once, and in order. -/
theorem log_eq (h : FailsAt writer root before q w rs t f u)
    (hbefore : ∀ b ∈ before, b.Resolves w.disk root) :
    ∃ ps, targets w.disk root (before ++ [q]) = .ok ps ∧ ∀ log, writer.Logs log →
      log u = log w ++ ps.zip ((before ++ [q]).map (·.contents)) := by
  obtain ⟨ts, p, rfl, hts, hwritten, hfails⟩ := h.exists_calls hbefore
  refine ⟨(ts ++ [(q, p)]).map (·.2), ?_, fun log hlog => ?_⟩
  · rw [← targets_resolved hts, List.map_append, List.map_singleton]
  · have hcall := hlog p q.contents t
    rw [hfails] at hcall
    rw [hcall, log_of_writeAll hlog hwritten, List.append_assoc, List.map_append, List.map_append,
      List.map_map, List.zip_append (by simp), List.zip_map']
    rfl

theorem records_eq (h : FailsAt writer root before q w rs t f u)
    (hbefore : ∀ b ∈ before, b.Resolves w.disk root) :
    rs.length = before.length ∧ ∀ records, writer.Remembers records →
      records u = rs.foldl (fun all r => remember r all) (records w) := by
  obtain ⟨ts, p, rfl, -, hwritten, hfails⟩ := h.exists_calls hbefore
  refine ⟨?_, fun records hrecords => ?_⟩
  · rw [length_of_writeAll hwritten, List.length_map, List.length_map]
  · rw [hrecords.error hfails, hrecords.writeAll hwritten]

/-- On the disk nothing changes with the write that fails but that directories are added. -/
theorem adds (h : FailsAt (diskWriter dryRun) root before q w rs t f u)
    (hbefore : ∀ b ∈ before, b.Resolves w.disk root) (htree : w.disk.IsTree) :
    u = { t with disk := u.disk } ∧ t.disk.Adds u.disk := by
  obtain ⟨ts, p, rfl, hts, hwritten, hfails⟩ := h.exists_calls hbefore
  have hplaces : ∀ x ∈ (ts ++ [(q, p)]).map QueuedWrite.call,
      ∃ P : Place, P.Named ∧ P ≠ [] ∧ x.1 = P.path :=
    List.forall_mem_map.mpr fun t ht => Disk.exists_place_of_resolveWithin (hts t ht)
  rw [List.map_append, List.forall_mem_append] at hplaces
  obtain ⟨P, hP, hne, hp⟩ := hplaces.2 _ List.mem_cons_self
  obtain rfl : p = P.path := hp
  exact World.adds_of_writeFile (isTree_of_writeAll htree hplaces.1 hwritten) hP hne hfails

end FailsAt

/-- Where all queued writes lead inside, either all are carried out or there is one that fails. -/
theorem apply_cases {writes : List QueuedWrite} (writer : FileWriter (World κ))
    (hwrites : ∀ q ∈ writes, q.Resolves w.disk root) :
    (∃ rs u, writer.apply root writes w = (.ok rs, u)) ∨
      ∃ before q after rs t f u, writes = before ++ q :: after ∧
        FailsAt writer root before q w rs t f u := by
  obtain ⟨ts, rfl, hts⟩ := exists_resolved hwrites
  rw [apply_resolved writer hts]
  refine (writer.writeAll_cases _ w).imp_right ?_
  rintro ⟨calls, x, calls', rs, t, f, u, hsplit, hbefore, hx⟩
  obtain ⟨before, rest, rfl, rfl, hrest⟩ := List.map_eq_append_iff.mp hsplit
  obtain ⟨y, after, rfl, rfl, -⟩ := List.map_eq_cons_iff.mp hrest
  obtain ⟨hbefore', hrest'⟩ := List.forall_mem_append.mp hts
  refine ⟨before.map (·.1), y.1, after.map (·.1), rs, t, f, u, ?_, ?_,
    y.2, hrest' y List.mem_cons_self, hx⟩
  · rw [List.map_append, List.map_cons]
  · rwa [apply_resolved writer hbefore']

/-- **Where queued writes stop.** If one of them leads out of the root, the first of these fails
all, and nothing has changed. If none does, either all are carried out or one of them fails. Then
the failure is that of this write, and so is the state that is left; the writer was called for those
before it, which are carried out as if they had been queued alone, and for this one, each once and
in order, and for no other. Its summary has the records of those before. The writer on the disk has
changed nothing with the write that failed but that directories were added. -/
theorem apply_stops (writer : FileWriter (World κ)) (root : Path) (writes : List QueuedWrite)
    (w : World κ) :
    (∀ before q after f, writes = before ++ q :: after → (∀ b ∈ before, b.Resolves w.disk root) →
      w.disk.resolveWithin root q.path = .error f → writer.apply root writes w = (.error f, w)) ∧
    ((∀ q ∈ writes, q.Resolves w.disk root) →
      ((∃ rs u, writer.apply root writes w = (.ok rs, u)) ∨
        ∃ before q after rs t f u, writes = before ++ q :: after ∧
          FailsAt writer root before q w rs t f u) ∧
      ∀ before q after rs t f u, writes = before ++ q :: after →
        FailsAt writer root before q w rs t f u →
          writer.apply root writes w = (.error f, u) ∧
          (∃ ps, targets w.disk root (before ++ [q]) = .ok ps ∧ ∀ log, writer.Logs log →
            log u = log w ++ ps.zip ((before ++ [q]).map (·.contents))) ∧
          (rs.length = before.length ∧ ∀ records, writer.Remembers records →
            records u = rs.foldl (fun all r => remember r all) (records w)) ∧
          ∀ dryRun, writer = diskWriter dryRun → writer.Remembers World.records ∧
            (w.disk.IsTree → u = { t with disk := u.disk } ∧ t.disk.Adds u.disk)) := by
  refine ⟨?_, fun hwrites => ⟨apply_cases writer hwrites, ?_⟩⟩
  · rintro before q after f rfl hbefore hq
    rw [apply, targets_of_error hbefore hq]
  · rintro before q after rs t f u rfl hfails
    have hbefore := (List.forall_mem_append.mp hwrites).1
    refine ⟨hfails.apply_eq hwrites, hfails.log_eq hbefore, hfails.records_eq hbefore, ?_⟩
    rintro dryRun rfl
    exact ⟨remembers_diskWriter dryRun, hfails.adds hbefore⟩

theorem exists_eq_ok {ε α : Type} {x : Except ε α} (h : x.isOk = true) : ∃ a, x = .ok a := by
  rcases x with e | a
  · cases h
  · exact ⟨a, rfl⟩

/-- A path leads out of the root, and nothing is written. Without it, the second path leads below
what is a file by then, so the first write alone is carried out. -/
theorem apply_stops_bare :
    let w : World Unit := ⟨Disk.bare, [], [], ()⟩
    let root := Place.path ["out"]
    let file (path : String) : QueuedWrite := ⟨⟨path⟩, ⟨#[1]⟩, "a"⟩
    (∃ f, (diskWriter false).apply root [file "a.txt", file "../b.txt", file "c.txt"] w =
        (.error f, w)) ∧
      ∃ r t f u, FailsAt (diskWriter false) root [file "a.txt"] (file "a.txt/b.txt") w [r] t f u ∧
        (diskWriter false).apply root [file "a.txt", file "a.txt/b.txt", file "c.txt"] w =
          (.error f, u) ∧ u.records = [r] ∧ t.disk.Adds u.disk := by
  intro w root file
  have hfirst : (file "a.txt").Resolves w.disk root := exists_eq_ok (by decide +kernel)
  constructor
  · have hescape : (w.disk.resolveWithin root ⟨"../b.txt"⟩).isOk = false := by decide +kernel
    rcases hresult : w.disk.resolveWithin root ⟨"../b.txt"⟩ with f | p
    · exact ⟨f, (apply_stops (diskWriter false) root _ w).1 [file "a.txt"] (file "../b.txt") _ f rfl
        (List.forall_mem_singleton.mpr hfirst) hresult⟩
    · rw [hresult] at hescape
      cases hescape
  · have hsecond : w.disk.resolveWithin root ⟨"a.txt/b.txt"⟩ = .ok ⟨"/out/a.txt/b.txt"⟩ :=
      eq_ok_of_toOption (by decide +kernel)
    have hthird : (file "c.txt").Resolves w.disk root := exists_eq_ok (by decide +kernel)
    have hresolve : ∀ q ∈ [file "a.txt", file "a.txt/b.txt", file "c.txt"],
        q.Resolves w.disk root :=
      List.forall_mem_cons.mpr ⟨hfirst, List.forall_mem_cons.mpr ⟨⟨_, hsecond⟩,
        List.forall_mem_singleton.mpr hthird⟩⟩
    have hwritten : ((diskWriter false).apply root [file "a.txt"] w).1.isOk = true := by
      decide +kernel
    have hbelow : (World.writeFile false ⟨"/out/a.txt/b.txt"⟩ ⟨#[1]⟩
        ((diskWriter false).apply root [file "a.txt"] w).2).1.isOk = false := by
      decide +kernel
    rcases happly : (diskWriter false).apply root [file "a.txt"] w with ⟨f | rs, t⟩ <;>
      rw [happly] at hwritten hbelow
    · cases hwritten
    rcases hwrite : World.writeFile false ⟨"/out/a.txt/b.txt"⟩ ⟨#[1]⟩ t with ⟨f | r, u⟩ <;>
      rw [hwrite] at hbelow
    · have hfails : FailsAt (diskWriter false) root [file "a.txt"] (file "a.txt/b.txt") w rs t f
          u :=
        ⟨happly, _, hsecond, hwrite⟩
      obtain ⟨-, hstops⟩ := (apply_stops (diskWriter false) root _ w).2 hresolve
      obtain ⟨happlied, -, ⟨hlength, hrecords⟩, hdisk⟩ :=
        hstops _ _ [file "c.txt"] rs t f u rfl hfails
      obtain ⟨hremembers, hadds⟩ := hdisk false rfl
      obtain ⟨r, rfl⟩ := List.length_eq_one_iff.mp hlength
      exact ⟨r, t, f, u, hfails, happlied, hrecords World.records hremembers,
        (hadds Disk.isTree_bare).2⟩
    · cases hbelow

end FileWriter

end StagedCodegen
