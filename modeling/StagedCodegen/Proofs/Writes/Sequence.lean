import StagedCodegen.Proofs.Disk.Confinement
import StagedCodegen.Proofs.Writes.Outside

/-!
# The files that writes leave

Where there are no links, a write that is carried out does three things to the files: the target has
the contents, what was at its neighbour is gone, and nothing else is touched. A write that finds the
contents there already does nothing (`Outcome.Does`, `exists_outcome`). So after any number of
writes each target has the contents that were written to it last, and all other files are as they
were, except for the neighbours of targets: a file that stands there is lost, also if it is a target
of earlier writes (`Disk.Left`).

What is there already is told by its digest alone, so that a target has contents with the digest of
those that were written to it last.

Main statement: `apply_leaves`.
-/

namespace StagedCodegen

/-! ## Files -/

/-- The neighbour of a place: there a file is written before it takes its place. -/
def Place.neighbour (P : Place) : Place := P.dropLast ++ [temporaryName (P.getLastD "")]

@[simp]
theorem Place.neighbour_concat (X : Place) (s : String) :
    neighbour (X ++ [s]) = X ++ [temporaryName s] := by
  simp [neighbour]

theorem temporaryName_ne (s : String) : temporaryName s ≠ s := by
  intro heq
  have hlength := congrArg String.length heq
  have hend : ".genpipe.tmp".length = 12 := by decide
  rw [temporaryName, String.length_append] at hlength
  omega

/-- The regular files, each at its place. -/
abbrev Files : Type := Place → Option ByteArray

/-- The contents of a regular file. -/
def Node.contents? : Node → Option ByteArray
  | .file c => some c
  | _ => none

namespace Disk

variable {d d' : Disk} {P Q X : Place} {s : String} {c x : ByteArray}

/-- The regular files of a tree. -/
def files (d : Disk) : Files := fun P => (d.lookup P).bind Node.contents?

theorem files_eq_some_iff : d.files P = some c ↔ d.lookup P = some (.file c) := by
  unfold files
  rcases d.lookup P with _ | (_ | _ | _) <;> simp [Node.contents?]

theorem files_set (d : Disk) (hne : P ≠ []) (n : Node) (Q : Place) :
    (d.set P n).files Q = if Q = P then n.contents? else d.files Q := by
  rw [files, lookup_set d hne]
  split
  · rfl
  · rfl

theorem files_erase (d : Disk) (hne : P ≠ []) (Q : Place) :
    (d.erase P).files Q = if Q = P then none else d.files Q := by
  rw [files, lookup_erase d hne]
  split
  · rfl
  · rfl

/-- There is no link in the tree. -/
def Linkless (d : Disk) : Prop := ∀ P t, d.lookup P ≠ some (.link t)

theorem linkless_of_entries (h : ∀ e ∈ d.entries, ∀ t, e.2 ≠ .link t) : d.Linkless := by
  intro P t hlink
  by_cases hne : P = []
  · subst hne
    cases hlink
  · exact h (P, .link t) (mem_of_lookup hlink hne) t rfl

theorem Linkless.straight (h : d.Linkless) (P : Place) : d.Straight P := fun Q _ => h Q

theorem Linkless.set {n : Node} (h : d.Linkless) (hne : P ≠ []) (hn : ∀ t, n ≠ .link t) :
    (d.set P n).Linkless := by
  intro Q t hlink
  rw [lookup_set d hne] at hlink
  split at hlink
  · exact hn t (Option.some.inj hlink)
  · exact h Q t hlink

theorem Linkless.erase (h : d.Linkless) (hne : P ≠ []) : (d.erase P).Linkless := by
  intro Q t hlink
  rw [lookup_erase d hne] at hlink
  split at hlink
  · cases hlink
  · exact h Q t hlink

theorem Grows.linkless (h : d.Grows d' P) (hlinkless : d.Linkless) : d'.Linkless := by
  intro Q t hlink
  rcases h Q with hsame | ⟨-, hdir, -⟩
  · exact hlinkless Q t (hsame.symm.trans hlink)
  · cases hdir.symm.trans hlink

/-- Directories that are made change no file. -/
theorem Grows.files (h : d.Grows d' P) : d'.files = d.files := by
  funext Q
  rcases h Q with hsame | ⟨hnone, hdir, -⟩
  · rw [Disk.files, hsame, Disk.files]
  · rw [Disk.files, hdir, Disk.files, hnone]
    rfl

/-! ## One write -/

/-- A file was replaced where it stands, by way of its neighbour, after directories were made on the
way: this has led from the first of these trees to the second. Neither the place nor its neighbour
was a directory, and no name was too long. -/
structure Replaced (d d₁ d' : Disk) (X : Place) (s : String) (c : ByteArray) : Prop where
  cwd : d₁.cwd = d.cwd
  grows : d.Grows d₁ X
  neighbour : d₁.lookup (X ++ [temporaryName s]) ≠ some .dir
  target : d₁.lookup (X ++ [s]) ≠ some .dir
  short : ∀ t ∈ X ++ [s], t.utf8ByteSize ≤ 255
  eq : d' = ((d₁.set (X ++ [temporaryName s]) (.file c)).erase (X ++ [temporaryName s])).set
    (X ++ [s]) (.file c)

theorem cwd_of_makeDir {p : Path} (h : d.makeDir p = .ok d') : d'.cwd = d.cwd := by
  rw [makeDir] at h
  split at h <;> cases h
  rfl

theorem cwd_makeDirsFrom (fuel : Nat) (d : Disk) (p : Path) :
    (makeDirsFrom fuel d p).2.cwd = d.cwd := by
  induction fuel using Nat.strongRecOn generalizing p with
  | ind fuel ih =>
    rcases makeDirsFrom_cases fuel d p with hsame | hmake | ⟨fuel', parent, rfl, -, hd⟩
    · rw [hsame]
    · exact cwd_of_makeDir hmake
    · have habove := ih fuel' fuel'.lt_succ_self parent
      rcases hd with hsame | hmake
      · rw [hsame, habove]
      · exact (cwd_of_makeDir hmake).trans habove

/-- Where no link is on the way and the neighbour is none, it is written where it stands, and from
there it takes the place of the file. -/
theorem replace_eq_ok (htree : d.IsTree) (hX : d.Straight X) (hnamed : (X ++ [s]).Named)
    (hlink : ∀ t, d.lookup (X ++ [temporaryName s]) ≠ some (.link t))
    (h : d.replace (Place.path (X ++ [s])) c = (.ok (), d')) : ∃ d₁, Replaced d d₁ d' X s c := by
  have hneighbour := named_neighbour hnamed
  have hother : X ++ [temporaryName s] ≠ [] := List.concat_ne_nil _ X
  obtain ⟨d₁, d₂, hroom, hwrite, hrename⟩ := exists_steps_of_replace h
  rw [temporaryPath_path hnamed] at hwrite hrename
  have hmade : (d.makeDirs X.path).2 = d₁ := by rw [← makeRoomFor_snd hnamed, hroom]
  have hgrows : d.Grows d₁ X := by
    rw [← hmade]
    exact (grows_of_makeDirsFrom _ htree hX (hnamed.of_isPrefix (List.prefix_append X [s]))).1
  have hX₁ : d₁.Straight X := hgrows.straight hX
  have hlink₁ : ∀ t, d₁.lookup (X ++ [temporaryName s]) ≠ some (.link t) := by
    intro t hlink₁
    rcases hgrows (X ++ [temporaryName s]) with hsame | ⟨-, hdir, -⟩
    · exact hlink t (hsame.symm.trans hlink₁)
    · cases hdir.symm.trans hlink₁
  obtain ⟨r, hlocate, hdir⟩ := locate_of_write hwrite
  have hreal := real_of_locate hneighbour hlocate
  have hplace := (place_of_locate hX₁.clear hneighbour hlocate fun _ => hlink₁).1
  obtain ⟨-, -, -, -, hnot⟩ := hreal.parent hdir
  have hwritten := write_of_locate (c := c) hreal hlocate hdir
  rw [hplace] at hwritten hnot
  obtain rfl := Except.ok.inj (hwrite.symm.trans hwritten)
  have hX₂ := hX₁.set hother (n := .file c) nofun
  obtain ⟨n, rfl, -, hn, -, htarget⟩ := rename_eq_ok hX₂.clear hneighbour hnamed hrename
  rw [lookup_set d₁ hother, if_pos rfl] at hn
  rw [lookup_set d₁ hother, if_neg (by simpa using (temporaryName_ne s).symm)] at htarget
  refine ⟨d₁, ?_, hgrows, hnot, htarget, fun t ht => ?_, by rw [← Option.some.inj hn]⟩
  · rw [← hmade]
    exact cwd_makeDirsFrom _ d X.path
  · have hwalks := walks_of_locate hneighbour hlocate
    rcases List.mem_append.mp ht with ht | ht
    · exact hwalks.short (List.mem_map_of_mem (List.mem_append_left _ ht))
    · rw [List.mem_singleton.mp ht]
      have hlonger : (temporaryName s).utf8ByteSize ≤ 255 :=
        hwalks.short (List.mem_map_of_mem (List.mem_append_right X (List.mem_singleton_self _)))
      rw [temporaryName, String.utf8ByteSize_append] at hlonger
      omega

/-- The files after one is replaced: it has the new contents, and nothing is at its neighbour. -/
theorem files_of_replace (htree : d.IsTree) (hlinkless : d.Linkless) (hP : P.Named) (hne : P ≠ [])
    (h : d.replace P.path c = (.ok (), d')) : d'.IsTree ∧ d'.Linkless ∧
      d'.files = Function.update (Function.update d.files P.neighbour none) P (some c) := by
  obtain ⟨X, s, rfl⟩ : ∃ (X : Place) (s : String), P = X ++ [s] :=
    (List.eq_nil_or_concat' P).resolve_left hne
  have hother : X ++ [temporaryName s] ≠ [] := List.concat_ne_nil _ X
  have htree' := (keptOutside_of_straight (c := c) htree (hlinkless.straight X) hP
    List.nil_prefix fun _ _ _ => List.nil_prefix).1
  rw [h] at htree'
  obtain ⟨d₁, hreplaced⟩ := replace_eq_ok htree (hlinkless.straight X) hP (hlinkless _) h
  obtain rfl := hreplaced.eq
  refine ⟨htree', ?_, ?_⟩
  · have hfile : ∀ t, Node.file c ≠ .link t := nofun
    exact (((hreplaced.grows.linkless hlinkless).set hother hfile).erase hother).set hne hfile
  · funext Q
    rw [files_set _ hne, files_erase _ hother, files_set _ hother, hreplaced.grows.files,
      Function.update_apply, Function.update_apply, Place.neighbour_concat]
    split
    · rfl
    · split
      · rfl
      · rfl

/-- What is read from the path of a place, if no link is on the way, is the file there. -/
theorem lookup_of_read (hstraight : d.Straight P) (hP : P.Named) (h : d.read P.path = .ok c) :
    d.lookup P = some (.file c) ∧ ∀ t ∈ P, t.utf8ByteSize ≤ 255 := by
  rw [read] at h
  split at h
  · next F c' hlocate =>
    obtain rfl := Except.ok.inj h
    have hwalks := walks_of_locate hP hlocate
    obtain rfl : F = P := hwalks.place_eq fun Q hQ _ _ => hstraight Q hQ
    exact ⟨Stands.lookup ⟨40, hwalks⟩ hP, fun t ht => hwalks.short (List.mem_map_of_mem ht)⟩
  · cases h
  · cases h
  · cases h

end Disk

/-- What a write to a place came to. -/
structure Outcome where
  /-- The place. -/
  target : Place
  /-- What was to be written. -/
  contents : ByteArray
  /-- What became of it. -/
  status : WriteStatus

namespace Outcome

variable {o : Outcome} {os before after : List Outcome} {f f' g : Files} {Q : Place}
  {c x : ByteArray}

/-- What a writer says of it. -/
def record (o : Outcome) : WriteRecord := ⟨o.target.path, o.status, contentHash o.contents, none⟩

/-- The write was carried out by way of this place. -/
def Displaces (o : Outcome) (Q : Place) : Prop := o.status = .written ∧ o.target.neighbour = Q

/-- What the write does to the files. -/
inductive Does (o : Outcome) (f : Files) : Files → Prop where
  /-- Contents with the digest are there already, and nothing is done. -/
  | unchanged {x : ByteArray} (status : o.status = .unchanged) (there : f o.target = some x)
      (same : contentHash x = contentHash o.contents) : Does o f f
  /-- The contents are written, by way of the neighbour. -/
  | written (status : o.status = .written) : Does o f
      (Function.update (Function.update f o.target.neighbour none) o.target (some o.contents))

/-- What writes do to the files, one after another. -/
inductive Run : List Outcome → Files → Files → Prop where
  /-- There is no write. -/
  | nil {f : Files} : Run [] f f
  /-- The first write is followed by the others. -/
  | cons {o : Outcome} {os : List Outcome} {f g f' : Files} (first : o.Does f g)
      (rest : Run os g f') : Run (o :: os) f f'

theorem Run.split (h : Run (before ++ os) f f') : ∃ g, Run before f g ∧ Run os g f' := by
  induction before generalizing f with
  | nil => exact ⟨f, .nil, h⟩
  | cons o before ih =>
    cases h with
    | cons first rest =>
      obtain ⟨g, hbefore, hos⟩ := ih rest
      exact ⟨g, .cons first hbefore, hos⟩

/-! ### One place -/

theorem Does.eq_of_ne (h : o.Does f g) (hQ : o.target ≠ Q) :
    (o.Displaces Q → g Q = none) ∧ (¬o.Displaces Q → g Q = f Q) := by
  cases h with
  | unchanged status =>
    refine ⟨fun hdisplaces => ?_, fun _ => rfl⟩
    cases status.symm.trans hdisplaces.1
  | written status =>
    rw [Function.update_of_ne (Ne.symm hQ), Function.update_apply]
    refine ⟨fun hdisplaces => if_pos hdisplaces.2.symm, fun hkept => if_neg fun heq => ?_⟩
    exact hkept ⟨status, heq.symm⟩

/-- After a write its target has contents with the digest, which were there if they are others. -/
theorem Does.target (h : o.Does f g) : ∃ x, g o.target = some x ∧
    contentHash x = contentHash o.contents ∧ (x = o.contents ∨ f o.target = some x) := by
  cases h with
  | unchanged status there same => exact ⟨_, there, same, .inr there⟩
  | written status => exact ⟨_, Function.update_self .., rfl, .inl rfl⟩

/-- A place that is no target keeps its file, unless a write displaces it. -/
theorem Run.eq_of_ne (h : Run os f f') (hQ : ∀ o ∈ os, o.target ≠ Q) :
    ((∃ o ∈ os, o.Displaces Q) → f' Q = none) ∧ ((∀ o ∈ os, ¬o.Displaces Q) → f' Q = f Q) := by
  induction h with
  | nil => exact ⟨fun ⟨_, ho, _⟩ => absurd ho List.not_mem_nil, fun _ => rfl⟩
  | @cons o os f g f' first rest ih =>
    obtain ⟨hlost, hkept⟩ := ih fun o' ho' => hQ o' (List.mem_cons_of_mem o ho')
    obtain ⟨hlost', hkept'⟩ := first.eq_of_ne (hQ o List.mem_cons_self)
    constructor
    · intro hdisplaced
      -- what a later write displaces is lost, and otherwise what the first one left stays
      by_cases hlater : ∃ o' ∈ os, o'.Displaces Q
      · exact hlost hlater
      · obtain ⟨o', ho', hdisplaces⟩ := hdisplaced
        rcases List.mem_cons.mp ho' with rfl | ho'
        · rw [hkept fun o'' ho'' hdisplaces' => hlater ⟨o'', ho'', hdisplaces'⟩, hlost' hdisplaces]
        · exact absurd ⟨o', ho', hdisplaces⟩ hlater
    · intro hnone
      rw [hkept fun o' ho' => hnone o' (List.mem_cons_of_mem o ho'),
        hkept' (hnone o List.mem_cons_self)]

/-- Every file was there before, or is what some write to it was given. -/
theorem Run.there_or_given (h : Run os f f') (hx : f' Q = some x) :
    f Q = some x ∨ ∃ o ∈ os, o.target = Q ∧ o.contents = x := by
  induction h with
  | nil => exact .inl hx
  | @cons o os f g f' first rest ih =>
    rcases ih hx with hg | ⟨o', ho', hgiven⟩
    · by_cases hQ : o.target = Q
      · obtain ⟨y, hy, -, hcontents⟩ := first.target
        rw [hQ, hg] at hy
        obtain rfl := Option.some.inj hy
        rcases hcontents with rfl | hf
        · exact .inr ⟨o, List.mem_cons_self, hQ, rfl⟩
        · exact .inl (hQ ▸ hf)
      · obtain ⟨hlost, hkept⟩ := first.eq_of_ne hQ
        by_cases hdisplaces : o.Displaces Q
        · cases (hlost hdisplaces).symm.trans hg
        · exact .inl ((hkept hdisplaces).symm.trans hg)
    · exact .inr ⟨o', List.mem_cons_of_mem o ho', hgiven⟩

end Outcome

/-! ## All writes -/

/-- What files there are after writes, which were `f` before. -/
structure Files.Left (os : List Outcome) (f f' : Files) : Prop where
  /-- A target has contents with the digest of those that were to be written to it last: these
  themselves, or what was there or was to be written earlier. But if a later write displaces it, it
  is gone. -/
  target : ∀ before o after, os = before ++ o :: after → (∀ o' ∈ after, o'.target ≠ o.target) →
    ((∃ o' ∈ after, o'.Displaces o.target) → f' o.target = none) ∧
    ((∀ o' ∈ after, ¬o'.Displaces o.target) → ∃ x, f' o.target = some x ∧
      contentHash x = contentHash o.contents ∧ (x = o.contents ∨ f o.target = some x ∨
        ∃ o' ∈ before, o'.target = o.target ∧ o'.contents = x))
  /-- A place that is no target keeps its file, unless a write displaces it. -/
  other : ∀ Q, (∀ o ∈ os, o.target ≠ Q) →
    ((∃ o ∈ os, o.Displaces Q) → f' Q = none) ∧ ((∀ o ∈ os, ¬o.Displaces Q) → f' Q = f Q)
  /-- A file that is no target was there before. -/
  added : ∀ Q x, f' Q = some x → (∃ o ∈ os, o.target = Q) ∨ f Q = some x

theorem Outcome.Run.left {os : List Outcome} {f f' : Files} (h : Run os f f') :
    Files.Left os f f' where
  target := by
    rintro before o after rfl hlast
    obtain ⟨g, hbefore, hrun⟩ := h.split
    cases hrun with
    | cons first rest =>
      obtain ⟨hlost, hkept⟩ := rest.eq_of_ne hlast
      refine ⟨hlost, fun hnone => ?_⟩
      obtain ⟨x, hx, hsame, hcontents⟩ := first.target
      refine ⟨x, (hkept hnone).trans hx, hsame, hcontents.imp_right fun hg => ?_⟩
      exact hbefore.there_or_given hg
  other := fun Q hQ => h.eq_of_ne hQ
  added := fun Q x hx => (h.there_or_given hx).elim .inr fun ⟨o, ho, hQ, _⟩ => .inl ⟨o, ho, hQ⟩

variable {κ : Type} {w w' : World κ} {root : Path}

/-- A write on the disk that succeeds comes to something. -/
theorem exists_outcome {P : Place} {c : ByteArray} {r : WriteRecord} (htree : w.disk.IsTree)
    (hlinkless : w.disk.Linkless) (hP : P.Named) (hne : P ≠ [])
    (h : World.writeFile false P.path c w = (.ok r, w')) :
    (∃ o : Outcome, o.target = P ∧ o.contents = c ∧ o.record = r ∧
      o.Does w.disk.files w'.disk.files) ∧ w'.disk.IsTree ∧ w'.disk.Linkless := by
  cases World.writing_of_eq h with
  | unchanged has record =>
    obtain ⟨x, hread, hsame⟩ := has
    obtain ⟨hlookup, -⟩ := Disk.lookup_of_read (hlinkless.straight P) hP hread
    exact ⟨⟨⟨P, c, .unchanged⟩, rfl, rfl, record.symm,
      .unchanged rfl (Disk.files_eq_some_iff.mpr hlookup) hsame⟩, htree, hlinkless⟩
  | written _ replace record =>
    obtain ⟨htree', hlinkless', hfiles⟩ := Disk.files_of_replace htree hlinkless hP hne replace
    refine ⟨⟨⟨P, c, .written⟩, rfl, rfl, record.symm, ?_⟩, htree', hlinkless'⟩
    rw [hfiles]
    exact .written rfl

theorem FileWriter.writeAll_cons_eq_ok {σ : Type} {writer : FileWriter σ} {p : Path} {c : ByteArray}
    {rest : List (Path × ByteArray)} {s s' : σ} {rs : List WriteRecord}
    (h : writer.writeAll ((p, c) :: rest) s = (.ok rs, s')) : ∃ r rs' t,
      writer.write p c s = (.ok r, t) ∧ writer.writeAll rest t = (.ok rs', s') ∧ rs = r :: rs' := by
  obtain ⟨r, t, hwrite, h⟩ := Attempt.bind_eq_ok.mp h
  obtain ⟨rs', u, hrest, h⟩ := Attempt.bind_eq_ok.mp h
  cases h
  exact ⟨r, rs', t, hwrite, hrest, rfl⟩

theorem FileWriter.writeAll_cons {σ : Type} {writer : FileWriter σ} {x : Path × ByteArray}
    {rest : List (Path × ByteArray)} {s t s' : σ} {r : WriteRecord} {rs : List WriteRecord}
    (hwrite : writer.write x.1 x.2 s = (.ok r, t)) (hrest : writer.writeAll rest t = (.ok rs, s')) :
    writer.writeAll (x :: rest) s = (.ok (r :: rs), s') :=
  Attempt.bind_eq_ok.mpr ⟨r, t, hwrite, Attempt.bind_eq_ok.mpr ⟨rs, s', hrest, rfl⟩⟩

theorem exists_outcomes {ts : List (Place × ByteArray)} {rs : List WriteRecord}
    (htree : w.disk.IsTree) (hlinkless : w.disk.Linkless)
    (hnamed : ∀ t ∈ ts, t.1.Named ∧ t.1 ≠ [])
    (h : (diskWriter false).writeAll (ts.map fun t => (t.1.path, t.2)) w = (.ok rs, w')) :
    ∃ os : List Outcome, os.map (fun o => (o.target, o.contents)) = ts ∧
      os.map Outcome.record = rs ∧ Outcome.Run os w.disk.files w'.disk.files := by
  induction ts generalizing w rs with
  | nil =>
    cases h
    exact ⟨[], rfl, rfl, .nil⟩
  | cons t ts ih =>
    obtain ⟨P, c⟩ := t
    obtain ⟨r, rs', w₁, hwrite, hrest, rfl⟩ := FileWriter.writeAll_cons_eq_ok h
    obtain ⟨hP, hne⟩ := hnamed (P, c) List.mem_cons_self
    obtain ⟨⟨o, rfl, rfl, rfl, hdoes⟩, htree₁, hlinkless₁⟩ :=
      exists_outcome htree hlinkless hP hne hwrite
    obtain ⟨os, rfl, rfl, hrun⟩ := ih htree₁ hlinkless₁
      (fun t ht => hnamed t (List.mem_cons_of_mem _ ht)) hrest
    exact ⟨o :: os, rfl, rfl, .cons hdoes hrun⟩

/-- A path is resolved to the path of a place. -/
theorem Disk.exists_place_of_resolveExisting {d : Disk} {p q : Path}
    (h : d.resolveExisting p = .ok q) : ∃ P : Place, P.Named ∧ q = P.path := by
  obtain ⟨A, B, F, n, hnamed, hF, -, -, -, hreach⟩ := d.exists_reach_eq p
  have hFB : Place.Named (F ++ B) := hF.append fun s hs => hnamed s (List.mem_append_right A hs)
  rw [resolveExisting_eq, hreach, Except.map, Place.compose_text] at h
  exact ⟨_, hFB.compose, (Except.ok.inj h).symm⟩

/-- What is accepted inside a boundary is the path of a place other than the root directory. -/
theorem Disk.exists_place_of_resolveWithin {d : Disk} {b p q : Path}
    (h : d.resolveWithin b p = .ok q) : ∃ P : Place, P.Named ∧ P ≠ [] ∧ q = P.path := by
  obtain ⟨b', hb, hq, hbelow⟩ := Disk.resolveWithin_ok_iff.mp h
  obtain ⟨B, hB, rfl⟩ := Disk.exists_place_of_resolveExisting hb
  obtain ⟨P, hP, rfl⟩ := Disk.exists_place_of_resolveExisting hq
  obtain ⟨habove, hne⟩ := (Disk.strictlyBelow_path_iff hP hB).mp hbelow
  refine ⟨P, hP, ?_, rfl⟩
  rintro rfl
  exact hne (List.prefix_nil.mp habove)

theorem targets_cons_eq_ok {d : Disk} {q : QueuedWrite} {qs : List QueuedWrite} {ps : List Path}
    (h : targets d root (q :: qs) = .ok ps) : ∃ p ps', d.resolveWithin root q.path = .ok p ∧
      targets d root qs = .ok ps' ∧ ps = p :: ps' := by
  rw [targets_cons] at h
  split at h
  · cases h
  · next p hp =>
    split at h
    · cases h
    · next ps' hps =>
      cases h
      exact ⟨p, ps', hp, hps, rfl⟩

theorem exists_places_of_targets {d : Disk} {writes : List QueuedWrite} {ps : List Path}
    (h : targets d root writes = .ok ps) : ∃ ts : List (Place × ByteArray),
      ps = ts.map (·.1.path) ∧ ts.map (·.2) = writes.map (·.contents) ∧
      ∀ t ∈ ts, t.1.Named ∧ t.1 ≠ [] := by
  induction writes generalizing ps with
  | nil =>
    cases h
    exact ⟨[], rfl, rfl, fun t ht => absurd ht List.not_mem_nil⟩
  | cons q qs ih =>
    obtain ⟨p, ps', hp, hps, rfl⟩ := targets_cons_eq_ok h
    obtain ⟨P, hP, hne, rfl⟩ := Disk.exists_place_of_resolveWithin hp
    obtain ⟨ts, rfl, hcontents, hnamed⟩ := ih hps
    refine ⟨(P, q.contents) :: ts, rfl, by rw [List.map_cons, List.map_cons, hcontents], ?_⟩
    exact List.forall_mem_cons.mpr ⟨⟨hP, hne⟩, hnamed⟩

/-- What files there are after queued writes were applied to a tree without links. -/
theorem apply_leaves {writes : List QueuedWrite} {rs : List WriteRecord} (htree : w.disk.IsTree)
    (hlinkless : w.disk.Linkless)
    (h : (diskWriter false).apply root writes w = (.ok rs, w')) :
    ∃ os : List Outcome, targets w.disk root writes = .ok (os.map (·.target.path)) ∧
      os.map (·.contents) = writes.map (·.contents) ∧ os.map Outcome.record = rs ∧
      Files.Left os w.disk.files w'.disk.files := by
  rw [FileWriter.apply] at h
  split at h
  · cases h
  · next ps hps =>
    obtain ⟨ts, rfl, hcontents, hnamed⟩ := exists_places_of_targets hps
    rw [← hcontents, List.zip_map'] at h
    obtain ⟨os, rfl, hrecords, hrun⟩ := exists_outcomes htree hlinkless hnamed h
    refine ⟨os, ?_, ?_, hrecords, hrun.left⟩
    · rw [hps, List.map_map]
      rfl
    · rw [← hcontents, List.map_map]
      rfl

/-! ## Neighbours -/

namespace Disk

/-- A tree in which a file stands at the neighbour of another. -/
def occupied : Disk :=
  ⟨[(["out"], .dir), (["out", "a.txt"], .file ⟨#[0]⟩),
    (["out", "a.txt.genpipe.tmp"], .file ⟨#[1]⟩)], []⟩

theorem isTree_occupied : occupied.IsTree :=
  isTree_of_entries (by simp [occupied, lookup, List.lookup_cons])

theorem linkless_occupied : occupied.Linkless := linkless_of_entries (by simp [occupied])

end Disk

/-- Files are written twice, in new directories, and to the neighbour of a later one. -/
theorem apply_leaves_occupied :
    let w : World Unit := ⟨Disk.occupied, [], [], ()⟩
    let writes : List QueuedWrite := [⟨⟨"n/b.txt"⟩, ⟨#[2]⟩, "a"⟩,
      ⟨⟨"a.txt.genpipe.tmp"⟩, ⟨#[3]⟩, "a"⟩,
      ⟨⟨"a.txt"⟩, ⟨#[4]⟩, "b"⟩, ⟨⟨"n/../n/b.txt"⟩, ⟨#[2]⟩, "b"⟩]
    w.disk.IsTree ∧ w.disk.Linkless ∧ ∃ rs w',
      (diskWriter false).apply (Place.path ["out"]) writes w = (.ok rs, w') ∧
      ∃ os : List Outcome,
        targets w.disk (Place.path ["out"]) writes = .ok (os.map (·.target.path)) ∧
        os.map (·.contents) = writes.map (·.contents) ∧ os.map Outcome.record = rs ∧
        Files.Left os w.disk.files w'.disk.files := by
  intro w writes
  have hok : ((diskWriter false).apply (Place.path ["out"]) writes w).1.isOk = true := by
    decide +kernel
  rcases hrun : (diskWriter false).apply (Place.path ["out"]) writes w with ⟨f | rs, w'⟩
  · rw [hrun] at hok
    cases hok
  · exact ⟨Disk.isTree_occupied, Disk.linkless_occupied, rs, w', rfl,
      apply_leaves Disk.isTree_occupied Disk.linkless_occupied hrun⟩

/-- A file that is no target is lost: it stands at the neighbour of the only target. -/
theorem bystander_is_lost :
    let w : World Unit := ⟨Disk.occupied, [], [], ()⟩
    let writes : List QueuedWrite := [⟨Place.path ["out", "a.txt"], ⟨#[4]⟩, "b"⟩]
    w.disk.IsTree ∧ w.disk.Linkless ∧
      targets w.disk (Place.path ["out"]) writes = .ok [Place.path ["out", "a.txt"]] ∧
      ((diskWriter false).apply (Place.path ["out"]) writes w).1.isOk = true ∧
      w.disk.files ["out", "a.txt.genpipe.tmp"] = some ⟨#[1]⟩ ∧
      ((diskWriter false).apply (Place.path ["out"]) writes w).2.disk.files
        ["out", "a.txt.genpipe.tmp"] = none := by
  intro w writes
  have hresolve := Disk.resolveWithin_path Place.named_out_file
    (Disk.linkless_occupied.straight _).clear Text.compose_path_out_file Text.compose_path_out
    (List.prefix_append ["out"] ["a.txt"]) (by decide)
  have hrun : (((diskWriter false).apply (Place.path ["out"]) writes w).1.isOk &&
      (((diskWriter false).apply (Place.path ["out"]) writes w).2.disk.files
        ["out", "a.txt.genpipe.tmp"]).isNone) = true := by
    decide +kernel
  obtain ⟨hok, hnone⟩ := Bool.and_eq_true_iff.mp hrun
  exact ⟨Disk.isTree_occupied, Disk.linkless_occupied, targets_singleton hresolve, hok, rfl,
    Option.isNone_iff_eq_none.mp hnone⟩

end StagedCodegen
