import StagedCodegen.Proofs.Disk.Confinement
import StagedCodegen.Proofs.Writes.Outside

/-!
# What a commit hands to the writer

A commit goes through the queue of a sandbox in order and hands each file to the writer, at the path
to which its target leads by then, up to the first that is refused or fails (`Sandbox.Hands`).
However much the disk has changed since a file was queued, that path is never outside the output
directory, and it is strictly inside if everything that links lead to is found. Otherwise it can be
the output directory itself (`Sandbox.hands_output_directory`).

Main statement: `Sandbox.commit_hands_inside`.
-/

namespace StagedCodegen

open StagedCodegen.Path (Component)

/-- A file that is handed to the writer. -/
structure Handing (κ : Type) where
  /-- The file of the queue. -/
  file : StagedFile
  /-- The path that it is to be written to. -/
  target : Path
  /-- The world in which it is to be written. -/
  world : World κ

/-- What the writer makes of it. -/
def Handing.written {κ : Type} (writer : FileWriter (World κ)) (x : Handing κ) :
    Except Failure WriteRecord × World κ := writer.write x.target x.file.contents x.world

namespace Sandbox

variable {κ : Type} {writer writer' : FileWriter (World κ)} {outputDir : Path}
  {queue : List StagedFile} {w v : World κ} {hs : List (Handing κ)} {result : Except Failure Unit}
  {d : Disk} {p : Path} {s : Sandbox}

/-! ## Going through a queue -/

/-- What of a queue is handed to the writer, what comes of it, and the world that is left. -/
inductive Hands (writer : FileWriter (World κ)) (outputDir : Path) :
    List StagedFile → World κ → List (Handing κ) → Except Failure Unit → World κ → Prop where
  /-- Nothing is left. -/
  | done {w : World κ} : Hands writer outputDir [] w [] (.ok ()) w
  /-- A target does not pass the check. -/
  | refused {file : StagedFile} {rest : List StagedFile} {w : World κ} {f : Failure}
      (fails : recheck w.disk outputDir file.target = .error f) :
      Hands writer outputDir (file :: rest) w [] (.error f) w
  /-- The writer fails. -/
  | failed {file : StagedFile} {rest : List StagedFile} {target : Path} {w v : World κ}
      {f : Failure} (checked : recheck w.disk outputDir file.target = .ok target)
      (fails : writer.write target file.contents w = (.error f, v)) :
      Hands writer outputDir (file :: rest) w [⟨file, target, w⟩] (.error f) v
  /-- The writer succeeds, and the rest of the queue follows. -/
  | written {file : StagedFile} {rest : List StagedFile} {target : Path} {w v u : World κ}
      {r : WriteRecord} {hs : List (Handing κ)} {result : Except Failure Unit}
      (checked : recheck w.disk outputDir file.target = .ok target)
      (writes : writer.write target file.contents w = (.ok r, v))
      (others : Hands writer outputDir rest v hs result u) :
      Hands writer outputDir (file :: rest) w (⟨file, target, w⟩ :: hs) result u

theorem exists_hands (writer : FileWriter (World κ)) (outputDir : Path) (queue : List StagedFile)
    (w : World κ) : ∃ hs result v, Hands writer outputDir queue w hs result v := by
  induction queue generalizing w with
  | nil => exact ⟨[], _, w, .done⟩
  | cons file rest ih =>
    rcases hcheck : recheck w.disk outputDir file.target with f | target
    · exact ⟨[], _, w, .refused hcheck⟩
    · rcases hwrite : writer.write target file.contents w with ⟨f | r, v⟩
      · exact ⟨_, _, v, .failed hcheck hwrite⟩
      · obtain ⟨hs, result, u, hrest⟩ := ih v
        exact ⟨_, result, u, .written hcheck hwrite hrest⟩

/-- A queue is written as it is handed to the writer, and the records are of what it has written. -/
theorem Hands.writeQueue_eq (h : Hands writer outputDir queue w hs result v) :
    writeQueue writer outputDir queue w =
      (result, hs.filterMap fun x => (x.written writer).1.toOption, v) := by
  induction h with
  | done => rfl
  | refused fails => rw [writeQueue_cons, fails, List.filterMap_nil]
  | failed checked fails =>
    rw [writeQueue_cons, checked]
    simp only [fails, Handing.written, List.filterMap_cons, Except.toOption, List.filterMap_nil]
  | @written file rest target w v u r hs result checked writes others ih =>
    rw [writeQueue_cons, checked]
    simp only [writes, ih, Handing.written, List.filterMap_cons, Except.toOption]

/-- What is handed to the writer comes from the front of the queue. -/
theorem Hands.files_isPrefix (h : Hands writer outputDir queue w hs result v) :
    hs.map (·.file) <+: queue := by
  induction h with
  | done => exact List.prefix_refl []
  | refused fails => exact List.nil_prefix
  | @failed file rest target w v f checked fails =>
    exact (List.prefix_cons_inj file).mpr List.nil_prefix
  | @written file rest target w v u r hs result checked writes others ih =>
    exact (List.prefix_cons_inj file).mpr ih

/-- Nothing is left out if nothing is refused or fails. -/
theorem Hands.files_eq (h : Hands writer outputDir queue w hs result v) (hok : result = .ok ()) :
    hs.map (·.file) = queue := by
  induction h with
  | done => rfl
  | refused fails => cases hok
  | failed checked fails => cases hok
  | written checked writes others ih => rw [List.map_cons, ih hok]

theorem Hands.checked (h : Hands writer outputDir queue w hs result v) {x : Handing κ}
    (hx : x ∈ hs) : recheck x.world.disk outputDir x.file.target = .ok x.target := by
  induction h with
  | done | refused fails => cases hx
  | failed checked fails =>
    obtain rfl := List.mem_singleton.mp hx
    exact checked
  | written checked writes others ih =>
    rcases List.mem_cons.mp hx with rfl | hx
    · exact checked
    · exact ih hx

theorem Hands.unique {hs' : List (Handing κ)} {result' : Except Failure Unit} {v' : World κ}
    (h : Hands writer outputDir queue w hs result v)
    (h' : Hands writer outputDir queue w hs' result' v') :
    hs = hs' ∧ result = result' ∧ v = v' := by
  induction h generalizing hs' with
  | done =>
    cases h'
    exact ⟨rfl, rfl, rfl⟩
  | refused fails =>
    cases h' with
    | refused fails' =>
      rw [fails] at fails'
      cases fails'
      exact ⟨rfl, rfl, rfl⟩
    | failed checked | written checked => cases fails.symm.trans checked
  | failed checked fails =>
    cases h' with
    | refused fails' => cases checked.symm.trans fails'
    | failed checked' fails' =>
      cases checked.symm.trans checked'
      cases fails.symm.trans fails'
      exact ⟨rfl, rfl, rfl⟩
    | written checked' writes =>
      cases checked.symm.trans checked'
      cases fails.symm.trans writes
  | written checked writes others ih =>
    cases h' with
    | refused fails' => cases checked.symm.trans fails'
    | failed checked' fails' =>
      cases checked.symm.trans checked'
      cases writes.symm.trans fails'
    | written checked' writes' others' =>
      cases checked.symm.trans checked'
      cases writes.symm.trans writes'
      obtain ⟨rfl, rfl, rfl⟩ := ih others'
      exact ⟨rfl, rfl, rfl⟩

/-- Of the writer, nothing counts but what it does with the files that are handed to it. -/
theorem Hands.writeQueue_congr (h : Hands writer outputDir queue w hs result v)
    (hsame : ∀ x ∈ hs, writer'.write x.target x.file.contents x.world =
      writer.write x.target x.file.contents x.world) :
    writeQueue writer' outputDir queue w = writeQueue writer outputDir queue w := by
  induction h with
  | done => rfl
  | refused fails => rw [writeQueue_cons, writeQueue_cons, fails]
  | @failed file rest target w v f checked fails =>
    have hfile := hsame ⟨file, target, w⟩ (List.mem_singleton_self _)
    simp only [writeQueue_cons, checked, hfile, fails]
  | @written file rest target w v u r hs result checked writes others ih =>
    have hfile := hsame ⟨file, target, w⟩ List.mem_cons_self
    have hrest := ih fun x hx => hsame x (List.mem_cons_of_mem _ hx)
    simp only [writeQueue_cons, checked, hfile, writes, hrest]

theorem Hands.commit_eq (h : Hands writer s.outputDir s.queue w hs result v)
    (hsettled : s.state ≠ .pending → s.queue = []) :
    (s.commit writer w).1 = result ∧ (s.commit writer w).2.2 = v := by
  by_cases hstate : s.state = .pending
  · rw [commit, if_pos hstate, h.writeQueue_eq]
    exact ⟨rfl, rfl⟩
  · rw [commit_of_settled hstate]
    rw [hsettled hstate] at h
    cases h with
    | done => exact ⟨rfl, rfl⟩

theorem Hands.commit_congr (h : Hands writer s.outputDir s.queue w hs result v)
    (hsame : ∀ x ∈ hs, writer'.write x.target x.file.contents x.world =
      writer.write x.target x.file.contents x.world) :
    s.commit writer' w = s.commit writer w := by
  rw [commit, commit, h.writeQueue_congr hsame]

/-! ## What is queued -/

/-- What a sandbox can come to, on whatever disks and with whatever writers, if all names are
composed. -/
inductive Reached : Sandbox → Prop where
  /-- It is made for an output directory. -/
  | new {d : Disk} {dir : Path} {hasScratch : Bool} {s : Sandbox} (composed : d.Composed)
      (names : dir.place.Composed) (made : Sandbox.new d dir hasScratch = .ok s) : Reached s
  /-- A file was to be queued. -/
  | stage {d : Disk} {adapter : String} {p : Path} {contents : ByteArray} {s : Sandbox}
      (reached : Reached s) (composed : d.Composed) (names : p.place.Composed) :
      Reached (stage d adapter p contents s).2
  /-- It was committed. -/
  | commit {κ : Type} {writer : FileWriter (World κ)} {w : World κ} {s : Sandbox}
      (reached : Reached s) : Reached (s.commit writer w).2.1
  /-- It was rolled back. -/
  | rollback {s : Sandbox} (reached : Reached s) : Reached s.rollback

/-- All paths of a sandbox are those of places with composed names, and a settled sandbox has no
files. -/
structure Sound (s : Sandbox) : Prop where
  output : ∃ O : Place, O.Named ∧ O.Composed ∧ s.outputDir = O.path
  targets : ∀ file ∈ s.queue, ∃ T : Place, T.Named ∧ T.Composed ∧ file.target = T.path
  settled : s.state ≠ .pending → s.queue = []

theorem Sound.new {hasScratch : Bool} (hd : d.Composed) (hp : p.place.Composed)
    (h : Sandbox.new d p hasScratch = .ok s) : s.Sound := by
  obtain ⟨O, hnamed, hcomposed, hreach⟩ := Disk.exists_reach_composed hd hp
  rw [Sandbox.new, Disk.canonicalBoundary, Disk.resolveExisting_eq_reach hd hp, hreach] at h
  obtain rfl := Except.ok.inj h
  exact ⟨⟨O, hnamed, hcomposed, rfl⟩, fun _ h => absurd h List.not_mem_nil, fun _ => rfl⟩

/-- Queueing leaves a sandbox alone or adds a file that is accepted to a pending one. -/
theorem stage_cases (d : Disk) (adapter : String) (p : Path) (contents : ByteArray) (s : Sandbox) :
    (stage d adapter p contents s).2 = s ∨ ∃ target, s.state = .pending ∧
      d.resolveWithin s.outputDir p = .ok target ∧
      stage d adapter p contents s = (.ok target, { s with
        queue := s.queue ++ [⟨target, contents, s.accepted, adapter⟩]
        accepted := s.accepted + 1 }) := by
  unfold stage
  rcases d.resolveWithin s.outputDir p with f | target
  · exact .inl rfl
  · by_cases hstate : s.state = .pending
    · exact .inr ⟨target, hstate, rfl, if_pos hstate⟩
    · left
      simp only
      rw [if_neg hstate]

theorem Sound.stage (h : s.Sound) (hd : d.Composed) (hp : p.place.Composed) (adapter : String)
    (contents : ByteArray) : (stage d adapter p contents s).2.Sound := by
  rcases stage_cases d adapter p contents s with hsame | ⟨target, hpending, htarget, hstage⟩
  · rwa [hsame]
  · obtain ⟨O, hO, hOcomposed, houtput⟩ := h.output
    rw [hstage]
    refine ⟨h.output, fun file hfile => ?_, fun hstate => absurd hpending hstate⟩
    rcases List.mem_append.mp hfile with hfile | hfile
    · exact h.targets file hfile
    · obtain rfl := List.mem_singleton.mp hfile
      obtain ⟨b, hb, hresolve, -⟩ := Disk.resolveWithin_ok_iff.mp htarget
      obtain ⟨B, hB, hBcomposed, hreach⟩ :=
        Disk.exists_reach_composed hd (Place.composed_path hO hOcomposed)
      rw [houtput, Disk.canonicalBoundary,
        Disk.resolveExisting_eq_reach hd (Place.composed_path hO hOcomposed), hreach] at hb
      obtain rfl := Except.ok.inj hb
      have hjoin := Disk.composed_join hB hBcomposed hp
      obtain ⟨T, hT, hTcomposed, hreach⟩ := Disk.exists_reach_composed hd hjoin
      rw [Disk.resolveExisting_eq_reach hd hjoin, hreach] at hresolve
      exact ⟨T, hT, hTcomposed, (Except.ok.inj hresolve).symm⟩

theorem Sound.commit (h : s.Sound) (writer : FileWriter (World κ)) (w : World κ) :
    (s.commit writer w).2.1.Sound := by
  by_cases hstate : s.state = .pending
  · rw [Sandbox.commit, if_pos hstate]
    rcases writeQueue writer s.outputDir s.queue w with ⟨result, rs, v⟩
    exact ⟨h.output, fun _ hfile => absurd hfile List.not_mem_nil, fun _ => rfl⟩
  · rwa [commit_of_settled hstate]

theorem Sound.rollback (h : s.Sound) : s.rollback.Sound := by
  by_cases hstate : s.state = .pending
  · rw [Sandbox.rollback, if_pos hstate]
    exact ⟨h.output, fun _ hfile => absurd hfile List.not_mem_nil, fun _ => rfl⟩
  · rwa [rollback_of_settled hstate]

theorem Reached.sound (h : Reached s) : s.Sound := by
  induction h with
  | new composed names made => exact .new composed names made
  | stage reached composed names ih => exact ih.stage composed names _ _
  | commit reached ih => exact ih.commit _ _
  | rollback reached ih => exact ih.rollback

/-! ## Inside the output directory -/

/-- What passes the check is strictly inside the output directory, if everything that links lead to
is found. -/
theorem strictlyBelow_of_recheck {O T : Place} (hd : d.Composed) (hO : O.Named)
    (hOcomposed : O.Composed) (hT : T.Named) (hTcomposed : T.Composed) (hfollows : d.Follows T)
    (h : recheck d O.path T.path = .ok p) : Disk.strictlyBelow p O.path = true := by
  obtain ⟨hresolve, hstarts⟩ := recheck_eq_ok_iff.mp h
  obtain ⟨b, hb, hp, hbelow⟩ := Disk.resolveWithin_ok_iff.mp hresolve
  obtain ⟨Q, hQ⟩ := d.exists_leadsTo T
  have hreach : d.reach T.path = .ok Q.path := by
    refine Disk.reach_of_follows ?_ ?_ <;> rwa [Disk.names_path hT]
  rw [Path.join, if_pos T.isAbsolute_path,
    Disk.resolveExisting_eq_reach hd (Place.composed_path hT hTcomposed), hreach] at hp
  obtain rfl := Except.ok.inj hp
  have hQnamed := hQ.named hT
  refine (Disk.strictlyBelow_path_iff hQnamed hO).mpr
    ⟨(Place.startsWith_path_iff hQnamed hO).mp hstarts, ?_⟩
  rintro rfl
  -- the output directory leads to itself, and would have to be below itself
  have hself : d.reach O.path = .ok O.path :=
    Disk.reach_eq_self_iff.mpr ⟨O, hO, rfl, (hQ.settled hT).clear hO⟩
  rw [Disk.canonicalBoundary,
    Disk.resolveExisting_eq_reach hd (Place.composed_path hO hOcomposed), hself] at hb
  obtain rfl := Except.ok.inj hb
  simp [Disk.strictlyBelow, Path.same] at hbelow

/-- A commit hands files from the front of the queue to the writer, all of them unless it fails, and
each at a path in the output directory, which is strictly inside if everything that links lead to is
found. Of the writer, nothing else counts. -/
theorem commit_hands_inside (h : Reached s) (writer : FileWriter (World κ)) (w : World κ) :
    ∃ hs result v, Hands writer s.outputDir s.queue w hs result v ∧
      (s.commit writer w).1 = result ∧ (s.commit writer w).2.2 = v ∧
      hs.map (·.file) <+: s.queue ∧ (result = .ok () → hs.map (·.file) = s.queue) ∧
      (∀ x ∈ hs, x.target.startsWith s.outputDir = true ∧
        (x.world.disk.Composed → x.world.disk.Follows (x.world.disk.names x.file.target) →
          Disk.strictlyBelow x.target s.outputDir = true)) ∧
      ∀ writer' : FileWriter (World κ),
        (∀ x ∈ hs, writer'.write x.target x.file.contents x.world =
          writer.write x.target x.file.contents x.world) →
        s.commit writer' w = s.commit writer w := by
  obtain ⟨hs, result, v, hhands⟩ := exists_hands writer s.outputDir s.queue w
  obtain ⟨hresult, hworld⟩ := hhands.commit_eq h.sound.settled
  refine ⟨hs, result, v, hhands, hresult, hworld, hhands.files_isPrefix, hhands.files_eq,
    fun x hx => ⟨(recheck_eq_ok_iff.mp (hhands.checked hx)).2, fun hd hfollows => ?_⟩,
    fun writer' hsame => hhands.commit_congr hsame⟩
  have hfile : x.file ∈ s.queue := hhands.files_isPrefix.subset (List.mem_map_of_mem hx)
  obtain ⟨O, hO, hOcomposed, houtput⟩ := h.sound.output
  obtain ⟨T, hT, hTcomposed, htarget⟩ := h.sound.targets _ hfile
  have hchecked := hhands.checked hx
  rw [houtput, htarget] at hchecked
  rw [htarget, Disk.names_path hT] at hfollows
  rw [houtput]
  exact strictlyBelow_of_recheck hd hO hOcomposed hT hTcomposed hfollows hchecked

/-! ## A directory that becomes a link -/

/-- The path of an output directory and so many names below it, all the same. -/
def nested (n : Nat) : Place := List.replicate (n + 1) "out"

/-- A sandbox with one file. -/
def nestedFile (n : Nat) : Sandbox :=
  ⟨Place.path ["out"], false, .pending, [⟨(nested n).path, ⟨#[1]⟩, 0, "a"⟩], 1, []⟩

/-- A writer that writes nothing but keeps the paths. -/
def keeper : FileWriter (World (List Path)) :=
  ⟨fun p _ w => (.ok ⟨p, .skipped, "", none⟩, { w with client := w.client ++ [p] })⟩

theorem named_nested (n : Nat) : (nested n).Named := by
  intro s hs
  obtain rfl := List.eq_of_mem_replicate hs
  decide

theorem composed_nested (n : Nat) : (nested n).Composed := by
  intro s hs
  obtain rfl := List.eq_of_mem_replicate hs
  decide

theorem composed_bare : Disk.bare.Composed := ⟨by decide, by decide, Place.named_nil⟩

theorem straight_nested (n : Nat) : Disk.bare.Straight (nested n) :=
  Disk.straight_of_entries (by simp [Disk.bare])

theorem isPrefix_nested (n : Nat) : ["out"] <+: nested n := ⟨List.replicate n "out", rfl⟩

/-- A sandbox for the directory `out` of the bare disk. -/
def bare (hasScratch : Bool) : Sandbox := ⟨Place.path ["out"], hasScratch, .pending, [], 0, []⟩

theorem new_bare (hasScratch : Bool) :
    Sandbox.new Disk.bare (Place.path ["out"]) hasScratch = .ok (bare hasScratch) := by
  have hboundary : Disk.bare.canonicalBoundary (Place.path ["out"]) = .ok (Place.path ["out"]) :=
    Disk.resolveExisting_path (named_nested 0) (straight_nested 0).clear
      (Place.compose_path (composed_nested 0))
  rw [Sandbox.new, hboundary]
  rfl

theorem stage_nested {n : Nat} (hn : n ≠ 0) :
    stage Disk.bare "a" (nested n).path ⟨#[1]⟩ (bare false) =
      (.ok (nested n).path, nestedFile n) := by
  have hne : ["out"] ≠ nested n := by
    intro h
    have hlength := congrArg List.length h
    rw [nested, List.length_replicate] at hlength
    exact hn (Nat.succ.inj hlength).symm
  have hresolve : Disk.bare.resolveWithin (bare false).outputDir (nested n).path =
      .ok (nested n).path :=
    Disk.resolveWithin_path (named_nested n) (straight_nested n).clear
      (Place.compose_path (composed_nested n)) (Place.compose_path (composed_nested 0))
      (isPrefix_nested n) hne
  exact stage_of_resolveWithin rfl hresolve

theorem reached_nestedFile {n : Nat} (hn : n ≠ 0) : Reached (nestedFile n) := by
  have hout := Place.composed_path (named_nested 0) (composed_nested 0)
  have hpath := Place.composed_path (named_nested n) (composed_nested n)
  have hreached : Reached (stage Disk.bare "a" (nested n).path ⟨#[1]⟩ (bare false)).2 :=
    .stage (.new composed_bare hout (new_bare false)) composed_bare hpath
  rwa [stage_nested hn] at hreached

theorem hands_nestedFile {n : Nat} {w : World (List Path)}
    (h : recheck w.disk (Place.path ["out"]) (nested n).path = .ok p) :
    ∃ x : Handing (List Path), x.file.target = (nested n).path ∧ x.target = p ∧ x.world = w ∧
      Hands keeper (nestedFile n).outputDir (nestedFile n).queue w [x] (.ok ())
        { w with client := w.client ++ [p] } :=
  ⟨⟨_, p, w⟩, rfl, rfl, rfl, .written h rfl .done⟩

/-- A file is handed to the writer at a path below the output directory. -/
theorem commit_hands_inside_nested :
    let w : World (List Path) := ⟨Disk.bare, [], [], []⟩
    Reached (nestedFile 1) ∧ w.disk.Composed ∧ w.disk.Follows (w.disk.names (nested 1).path) ∧
      ((nestedFile 1).commit keeper w).2.2.client = [(nested 1).path] ∧
      Disk.strictlyBelow (nested 1).path (nestedFile 1).outputDir = true := by
  intro w
  have hreached := reached_nestedFile (n := 1) (by decide)
  have hrecheck : recheck w.disk (Place.path ["out"]) (nested 1).path = .ok (nested 1).path :=
    recheck_path (named_nested 1) (straight_nested 1).clear
      (Place.compose_path (composed_nested 1)) (Place.compose_path (composed_nested 0))
      (isPrefix_nested 1) (by decide)
  have hlocate : w.disk.locate true (Place.path ["out"]) = .ok (.found ["out"] .dir) :=
    Disk.locate_of_walks (named_nested 0) ⟨by decide, by decide, by decide⟩
      (.enter (by decide) rfl (.stay rfl))
  have hfollows : w.disk.Follows (w.disk.names (nested 1).path) := by
    rw [Disk.names_path (named_nested 1)]
    exact Disk.follows_concat (A := ["out"]) (named_nested 1) hlocate rfl
  obtain ⟨x, hfile, htarget, hworld, hsingle⟩ := hands_nestedFile hrecheck
  obtain ⟨hs, result, v, hhands, -, hleft, -, -, hinside, -⟩ :=
    commit_hands_inside hreached keeper w
  obtain ⟨rfl, -, rfl⟩ := hhands.unique hsingle
  refine ⟨hreached, composed_bare, hfollows, by rw [hleft]; rfl, ?_⟩
  rw [← htarget]
  exact (hinside x (List.mem_singleton_self x)).2 (hworld ▸ composed_bare)
    (by rw [hworld, hfile]; exact hfollows)

/-- A tree in which the output directory has become a link that leads, by way of two others, back to
the directory that it is in. -/
def ring : Disk :=
  ⟨[(["out"], .link ⟨"p"⟩), (["p"], .link ⟨"q"⟩), (["q"], .link ⟨"."⟩)], []⟩

theorem composed_ring : ring.Composed := ⟨by decide, by decide, Place.named_nil⟩

/-- Every round costs three hops. -/
theorem walk_ring (n hops : Nat) (rest : List Disk.Step) :
    ring.walk true (hops + n * 3) [] ((List.replicate n "out").map .name ++ rest) =
      ring.walk true hops [] rest := by
  rw [List.map_replicate]
  refine Disk.walk_replicate (fun hops rest => ?_) n hops rest
  have hp : Disk.steps ⟨"p"⟩ = [.name "p"] := rfl
  have hq : Disk.steps ⟨"q"⟩ = [.name "q"] := rfl
  have hhere : Disk.steps ⟨"."⟩ = [.here] := rfl
  rw [Disk.walk_link (t := ⟨"p"⟩) (by decide) rfl, hp, List.singleton_append]
  rw [Disk.walk_link (t := ⟨"q"⟩) (by decide) rfl, hq, List.singleton_append]
  rw [Disk.walk_link (t := ⟨"."⟩) (by decide) rfl, hhere, List.singleton_append, Disk.walk_here]
  rfl

theorem locate_ring {n : Nat} (hn : n * 3 ≤ 40)
    (husable : Disk.Usable (Place.path (List.replicate n "out")))
    (hnamed : Place.Named (List.replicate n "out")) :
    ring.locate true (Place.path (List.replicate n "out")) = .ok (.found [] .dir) := by
  have hwalk := walk_ring n 0 []
  rw [List.append_nil, Nat.zero_add] at hwalk
  have hwalks := Disk.walks_of_walk (hwalk.trans (Disk.Walks.stay rfl).walk_eq)
  exact Disk.locate_of_walks hnamed husable (hwalks.mono hn)

/-- After so many rounds that another cannot be made, the last name counts as missing. -/
theorem reach_ring : ring.reach (nested 13).path = .ok (Place.path ["out"]) := by
  have hnested : nested 13 = List.replicate 13 "out" ++ ["out"] := List.replicate_succ'
  have hnamed := named_nested 13
  have hlocate := locate_ring (n := 13) (by decide) ⟨by decide, by decide, by decide⟩
    (named_nested 12)
  rw [hnested] at hnamed ⊢
  have hp : Disk.steps ⟨"p"⟩ = [.name "p"] := rfl
  refine Disk.reach_path_eq_of_walk hnamed hlocate (e := .of .tooManyLinks) ?_
  rw [List.map_append, List.map_singleton, walk_ring 13 1,
    Disk.walk_link (t := ⟨"p"⟩) (by decide) rfl, hp, List.append_nil,
    Disk.walk_link_zero (t := ⟨"q"⟩) (by decide) rfl]

/-- The output directory itself is handed to the writer, when it has become a link. -/
theorem hands_output_directory :
    let w : World (List Path) := ⟨ring, [], [], []⟩
    Reached (nestedFile 13) ∧ w.disk.Composed ∧
      ((nestedFile 13).commit keeper w).1 = .ok () ∧
      ((nestedFile 13).commit keeper w).2.2.client = [(nestedFile 13).outputDir] ∧
      Disk.strictlyBelow (nestedFile 13).outputDir (nestedFile 13).outputDir = false := by
  intro w
  have hreached := reached_nestedFile (n := 13) (by decide)
  have hout : Place.Named ["out"] := named_nested 0
  have hboundary : w.disk.canonicalBoundary (Place.path ["out"]) = .ok (Place.path []) := by
    rw [Disk.canonicalBoundary, Disk.resolveExisting_eq_reach composed_ring
      (Place.composed_path hout (composed_nested 0))]
    exact Disk.reach_path_eq (A := ["out"]) (B := []) hout
      (locate_ring (n := 1) (by decide) ⟨by decide, by decide, by decide⟩ hout)
      fun s C h => absurd h (List.cons_ne_nil s C).symm
  have hresolve : w.disk.resolveExisting ((Place.path []).join (nested 13).path) =
      .ok (Place.path ["out"]) := by
    rw [Path.join, if_pos (Place.isAbsolute_path _), Disk.resolveExisting_eq_reach composed_ring
      (Place.composed_path (named_nested 13) (composed_nested 13)), reach_ring]
  have hrecheck : recheck w.disk (Place.path ["out"]) (nested 13).path = .ok (Place.path ["out"]) :=
    recheck_eq_ok_iff.mpr ⟨Disk.resolveWithin_ok_iff.mpr ⟨_, hboundary, hresolve,
      (Disk.strictlyBelow_path_iff hout Place.named_nil).mpr (by decide)⟩,
      Place.startsWith_path hout (List.prefix_refl _)⟩
  obtain ⟨x, -, -, -, hhands⟩ := hands_nestedFile hrecheck
  obtain ⟨hresult, hworld⟩ := hhands.commit_eq hreached.sound.settled
  refine ⟨hreached, composed_ring, hresult, by rw [hworld]; rfl, ?_⟩
  simp [Disk.strictlyBelow, Path.same]

end Sandbox

end StagedCodegen
