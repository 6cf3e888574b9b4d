import StagedCodegen.Proofs.Disk.Reach

/-!
# Where names lead

Names lead to something if they do so through any number of links (`Disk.Stands`), and from there on
by the names that are left (`Disk.LeadsTo`); this is a matter of the tree alone. An operating system
gives up on long ways. So the place that a path is resolved to is the one that its names lead to
just if whatever a link on the way leads to is found (`Disk.Follows`): otherwise the link counts as
missing, and the way goes through it (`Disk.reach_of_follows`, `Disk.follows_of_reach`).

The place that names lead to is settled: no link on the way down leads anywhere
(`Disk.LeadsTo.settled`).
-/

namespace StagedCodegen

open StagedCodegen.Path (Component)

namespace Disk

variable {d : Disk} {A B C F G P Q X : Place} {m n : Node} {s : String} {p : Path}
  {followLast : Bool} {hops hops' : Nat} {r : Located}

/-! ## Walks in any number of hops -/

theorem Walks.mono {at_ : Place} {rest : List Step} (h : d.Walks followLast hops at_ rest r)
    (hle : hops ≤ hops') : d.Walks followLast hops' at_ rest r := by
  induction h generalizing hops' with
  | stay there => exact .stay there
  | here on ih => exact .here (ih hle)
  | up on ih => exact .up (ih hle)
  | vacant short there => exact .vacant short there
  | enter short there on ih => exact .enter short there (ih hle)
  | file short there => exact .file short there
  | link short there last => exact .link short there last
  | follow short there inner on ih =>
    obtain ⟨k, rfl⟩ : ∃ k, hops' = k + 1 := ⟨hops' - 1, by omega⟩
    exact .follow short there inner (ih (by omega))

/-- A walk to a directory and one from there make one walk. -/
theorem Walks.trans {at_ : Place} {a b : List Step} (h : d.Walks true hops at_ a (.found P .dir))
    (h' : d.Walks followLast hops' P b r) (hb : b ≠ []) :
    d.Walks followLast (hops + hops') at_ (a ++ b) r := by
  generalize hend : Located.found P .dir = e at h
  induction h with
  | stay there =>
    cases hend
    exact h'.mono (by omega)
  | here on ih => exact .here (ih hend)
  | up on ih => exact .up (ih hend)
  | enter short there on ih => exact .enter short there (ih hend)
  | vacant | file | link => cases hend
  | @follow hops at_ s t rest r short there inner on ih =>
    have hon := ih hend
    rw [List.append_assoc] at hon
    rw [Nat.add_right_comm]
    exact .follow short there (fun hnil => absurd (List.append_eq_nil_iff.mp hnil).2 hb) hon

theorem walk_link {t : Path} (short : s.utf8ByteSize ≤ 255)
    (there : d.lookup (P ++ [s]) = some (.link t)) (hops : Nat) (rest : List Step) :
    d.walk true (hops + 1) P (.name s :: rest) =
      d.walk true hops (if t.isAbsolute then [] else P) (steps t ++ rest) := by
  rw [walk_name]
  simp [there, Nat.not_lt.mpr short]

theorem walk_link_zero {t : Path} (short : s.utf8ByteSize ≤ 255)
    (there : d.lookup (P ++ [s]) = some (.link t)) (rest : List Step) :
    d.walk true 0 P (.name s :: rest) = .error (.of .tooManyLinks) := by
  rw [walk_name]
  simp [there, Nat.not_lt.mpr short]

/-- Every round through links that leads back to where it begins costs the same hops. -/
theorem walk_replicate {k : Nat}
    (hloop : ∀ hops rest,
      d.walk followLast (hops + k) P (.name s :: rest) = d.walk followLast hops P rest)
    (n hops : Nat) (rest : List Step) :
    d.walk followLast (hops + n * k) P (List.replicate n (.name s) ++ rest) =
      d.walk followLast hops P rest := by
  induction n with
  | zero => simp
  | succ n ih =>
    rw [List.replicate_succ, List.cons_append, Nat.add_one_mul, ← Nat.add_assoc, hloop, ih]

/-! ## What stands at the end of names -/

/-- The names lead to something, through any number of links. -/
def Stands (d : Disk) (P F : Place) (n : Node) : Prop :=
  ∃ hops, d.Walks true hops [] (P.map .name) (.found F n)

theorem stands_nil (d : Disk) : d.Stands [] [] .dir := ⟨0, .stay rfl⟩

theorem Stands.unique (h : d.Stands P F n) (h' : d.Stands P G m) : F = G ∧ n = m := by
  obtain ⟨hops, hF⟩ := h
  obtain ⟨hops', hG⟩ := h'
  have hF := (hF.mono (Nat.le_max_left hops hops')).walk_eq
  have hG := (hG.mono (Nat.le_max_right hops hops')).walk_eq
  simpa using hF.symm.trans hG

theorem Stands.real (h : d.Stands P F n) (hP : P.Named) : d.Real true (.found F n) := by
  obtain ⟨hops, h⟩ := h
  exact h.real (opens_nil d) Place.named_nil (namedSteps_names hP)

theorem Stands.named (h : d.Stands P F n) (hP : P.Named) : F.Named := by
  cases h.real hP with
  | found named reaches lookup last => exact named

theorem Stands.lookup (h : d.Stands P F n) (hP : P.Named) : d.lookup F = some n := by
  cases h.real hP with
  | found named reaches lookup last => exact lookup

/-- Nothing stands behind a link. -/
theorem Stands.straight (h : d.Stands P F n) (hP : P.Named) : d.Straight F := by
  cases h.real hP with
  | found named reaches lookup last =>
    intro Q hQ t hlink
    by_cases hne : Q = F
    · rw [hne, lookup] at hlink
      exact last rfl t (Option.some.inj hlink)
    · rw [reaches Q hQ hne] at hlink
      cases hlink

/-- Before the last name, names lead to a directory, from which the way goes on. -/
theorem Stands.split (h : d.Stands (A ++ B) G m) (hB : B ≠ []) :
    ∃ F hops, d.Stands A F .dir ∧ d.Walks true hops F (B.map .name) (.found G m) := by
  obtain ⟨hops, h⟩ := h
  rw [List.map_append] at h
  obtain ⟨F, hops', -, hA, hB⟩ := h.append (by simpa using hB) (opens_nil d)
  exact ⟨F, hops', ⟨hops, hA⟩, hB⟩

theorem Stands.append (h : d.Stands A F .dir)
    (h' : d.Walks true hops F (B.map .name) (.found G m)) (hB : B ≠ []) :
    d.Stands (A ++ B) G m := by
  obtain ⟨hops', h⟩ := h
  refine ⟨hops' + hops, ?_⟩
  rw [List.map_append]
  exact h.trans h' (by simpa using hB)

theorem Stands.of_isPrefix (h : d.Stands P G m) (hA : A <+: P) : ∃ F n, d.Stands A F n := by
  obtain ⟨B, rfl⟩ := hA
  by_cases hB : B = []
  · subst hB
    exact ⟨G, m, by rwa [List.append_nil] at h⟩
  · obtain ⟨F, -, hF, -⟩ := h.split hB
    exact ⟨F, .dir, hF⟩

/-- Names that lead on through no link lead to where they say. -/
theorem Stands.eq_append (h : d.Stands A F n) (h' : d.Stands (A ++ B) G m)
    (hlinks : ∀ C, C <+: B → C ≠ [] → ∀ t, d.lookup (F ++ C) ≠ some (.link t)) : G = F ++ B := by
  by_cases hB : B = []
  · subst hB
    rw [List.append_nil] at h' ⊢
    exact (h'.unique h).1
  · obtain ⟨F', hops, hF', hwalks⟩ := h'.split hB
    obtain ⟨rfl, rfl⟩ := h.unique hF'
    exact hwalks.place_eq fun C hC hne _ => hlinks C hC hne

/-- What names lead to, the names of its place lead to. -/
theorem Stands.self (h : d.Stands P F n) (hP : P.Named) : d.Stands F F n := by
  have hshort : ∀ s ∈ F, s.utf8ByteSize ≤ 255 := by
    obtain ⟨hops, hwalks⟩ := h
    exact hwalks.place_short fun s hs => absurd hs List.not_mem_nil
  cases h.real hP with
  | found named reaches lookup last =>
    exact ⟨0, walks_of_reaches (P := []) reaches lookup (last rfl) hshort⟩

/-- From what names lead to, further names lead on as they do from the names. -/
theorem Stands.append_iff (h : d.Stands P F n) (h' : d.Stands Q F n) (hC : C ≠ []) :
    d.Stands (P ++ C) G m ↔ d.Stands (Q ++ C) G m := by
  have hon : ∀ {P Q : Place}, d.Stands P F n → d.Stands Q F n → d.Stands (P ++ C) G m →
      d.Stands (Q ++ C) G m := by
    intro P Q hP hQ hG
    obtain ⟨F', hops, hF', hwalks⟩ := hG.split hC
    obtain ⟨rfl, rfl⟩ := hP.unique hF'
    exact hQ.append hwalks hC
  exact ⟨hon h h', hon h' h⟩

/-- What an operating system finds is there. -/
theorem stands_of_exists (hP : P.Named) (h : d.exists_ P.path = true) : ∃ F n, d.Stands P F n := by
  obtain ⟨F, n, hlocate⟩ := exists_locate h
  exact ⟨F, n, 40, walks_of_locate hP hlocate⟩

/-! ## Where names lead -/

/-- The names of a place lead through all links as far as something stands, and on by those that are
left. -/
inductive LeadsTo (d : Disk) : (P Q : Place) → Prop where
  /-- Something stands at the end of the first names, but not with the next one. -/
  | on {A B F : Place} {n : Node} (stands : d.Stands A F n)
      (missing : ∀ s C, B = s :: C → ∀ G m, ¬d.Stands (A ++ [s]) G m) :
      LeadsTo d (A ++ B) (F ++ B)

theorem exists_leadsTo (d : Disk) (P : Place) : ∃ Q, d.LeadsTo P Q := by
  have hparts : ∃ A B F n, P = A ++ B ∧ d.Stands A F n ∧
      ∀ s C, B = s :: C → ∀ G m, ¬d.Stands (A ++ [s]) G m := by
    induction P using List.reverseRecOn with
    | nil => exact ⟨[], [], [], .dir, rfl, d.stands_nil, fun s C h => absurd h nofun⟩
    | append_singleton P s ih =>
      by_cases hP : ∃ F n, d.Stands (P ++ [s]) F n
      · obtain ⟨F, n, hF⟩ := hP
        exact ⟨P ++ [s], [], F, n, (List.append_nil _).symm, hF, fun s C h => absurd h nofun⟩
      · obtain ⟨A, B, F, n, rfl, hF, hmissing⟩ := ih
        refine ⟨A, B ++ [s], F, n, List.append_assoc A B [s], hF, fun t C hB G m hG => ?_⟩
        rcases B with _ | ⟨u, B⟩
        · obtain ⟨rfl, -⟩ := List.cons.inj hB
          exact hP ⟨G, m, by rwa [List.append_nil]⟩
        · obtain ⟨rfl, -⟩ := List.cons.inj hB
          exact hmissing u B rfl G m hG
  obtain ⟨A, B, F, n, rfl, hF, hmissing⟩ := hparts
  exact ⟨F ++ B, .on hF hmissing⟩

/-- Something stands at the end of no more names than up to where the next is missing. -/
theorem Stands.isPrefix_of_missing (h : d.Stands A F n) (hP : A ++ B = C ++ X)
    (missing : ∀ s Y, X = s :: Y → ∀ G m, ¬d.Stands (C ++ [s]) G m) : A <+: C := by
  have hA : A <+: C ++ X := ⟨B, hP⟩
  refine (List.prefix_or_prefix_of_prefix hA (List.prefix_append C X)).elim id fun hC => ?_
  obtain ⟨Y, rfl⟩ := hC
  rcases Y with _ | ⟨s, Y⟩
  · exact ⟨[], by simp⟩
  · have hX : X = s :: (Y ++ B) := by simpa using hP.symm
    obtain ⟨G, m, hG⟩ := h.of_isPrefix (A := C ++ [s]) ⟨Y, by simp⟩
    exact absurd hG (missing s _ hX G m)

theorem Stands.leadsTo (h : d.Stands P F n) : d.LeadsTo P F := by
  have hon := LeadsTo.on (B := []) h fun s C hs => absurd hs nofun
  rwa [List.append_nil, List.append_nil] at hon

/-- Nothing stands where a name is missing from a directory. -/
theorem Stands.not_concat (h : d.Stands A F .dir) (hs : d.lookup (F ++ [s]) = none) (G : Place)
    (m : Node) : ¬d.Stands (A ++ [s]) G m := by
  intro hG
  obtain ⟨F', hops, hF', hwalks⟩ := hG.split (List.cons_ne_nil s [])
  obtain ⟨rfl, -⟩ := h.unique hF'
  cases hwalks with
  | enter short there | file short there | link short there | follow short there =>
    rw [hs] at there
    cases there

theorem Stands.leadsTo_concat (h : d.Stands A F .dir) (hs : d.lookup (F ++ [s]) = none) :
    d.LeadsTo (A ++ [s]) (F ++ [s]) := by
  refine .on h fun t C ht => ?_
  obtain ⟨rfl, -⟩ := List.cons.inj ht
  exact h.not_concat hs

theorem LeadsTo.named (h : d.LeadsTo P Q) (hP : P.Named) : Q.Named := by
  cases h with
  | @on A B F n stands missing =>
    have hF : F.Named := stands.named (hP.of_isPrefix (List.prefix_append A B))
    exact hF.append fun s hs => hP s (List.mem_append_right A hs)

theorem LeadsTo.of_stands (h : d.Stands A F n) (hA : A.Named) (h' : d.LeadsTo (A ++ C) X) :
    d.LeadsTo (F ++ C) X := by
  have hself := h.self hA
  generalize hP : A ++ C = P at h'
  cases h' with
  | @on A' B' G m stands missing =>
    obtain ⟨D, rfl⟩ := h.isPrefix_of_missing hP missing
    obtain rfl : C = D ++ B' := by simpa using hP
    have hG : d.Stands (F ++ D) G m := by
      by_cases hD : D = []
      · subst hD
        rw [List.append_nil] at stands ⊢
        obtain ⟨rfl, rfl⟩ := h.unique stands
        exact hself
      · exact (h.append_iff hself hD).mp stands
    rw [← List.append_assoc]
    refine .on hG fun s E hE H k hH => missing s E hE H k ?_
    rw [List.append_assoc] at hH ⊢
    exact (h.append_iff hself (by simp)).mpr hH

/-- From the place that names lead to, further names lead on as they do from the names. -/
theorem LeadsTo.resume (h : d.LeadsTo A B) (hA : A.Named) (h' : d.LeadsTo (A ++ C) X) :
    d.LeadsTo (B ++ C) X := by
  cases h with
  | @on A B F n stands missing =>
    rw [List.append_assoc] at h' ⊢
    exact .of_stands stands (hA.of_isPrefix (List.prefix_append A B)) h'

/-- All links lead somewhere. -/
def LinksResolve (d : Disk) : Prop :=
  ∀ P t, d.lookup P = some (.link t) → ∃ F n, d.Stands P F n

/-- No link on the way down to a place leads anywhere. -/
def Settled (d : Disk) (P : Place) : Prop :=
  ∀ Q, Q <+: P → ∀ t, d.lookup Q = some (.link t) → ∀ F n, ¬d.Stands Q F n

theorem Settled.straight (h : d.Settled P) (hlinks : d.LinksResolve) : d.Straight P := by
  intro Q hQ t hlink
  obtain ⟨F, n, hF⟩ := hlinks Q t hlink
  exact h Q hQ t hlink F n hF

theorem Settled.clear (h : d.Settled P) (hP : P.Named) : d.Clear P := by
  intro Q hQ hexists t hlink
  obtain ⟨F, n, hF⟩ := stands_of_exists (hP.of_isPrefix hQ) hexists
  exact h Q hQ t hlink F n hF

/-- Names that are no links lead to their own place. -/
theorem Stands.eq_self (h : d.Stands P F n) (hP : d.Straight P) : F = P := by
  obtain ⟨hops, h⟩ := h
  exact h.place_eq fun Q hQ _ _ => hP Q hQ

/-- The place that names lead to is settled. -/
theorem LeadsTo.settled (h : d.LeadsTo P Q) (hP : P.Named) : d.Settled Q := by
  cases h with
  | @on A B F n stands missing =>
    have hA : A.Named := hP.of_isPrefix (List.prefix_append A B)
    have hF : d.Straight F := stands.straight hA
    intro Q hQ t hlink G m hG
    rcases List.prefix_or_prefix_of_prefix hQ (List.prefix_append F B) with hQF | ⟨C, rfl⟩
    · exact hF Q hQF t hlink
    · rcases C with _ | ⟨s, C⟩
      · rw [List.append_nil] at hlink
        exact hF F (List.prefix_refl F) t hlink
      · -- with the next name something stands at `F`, and so it would at the end of `A`
        obtain ⟨X, hX⟩ := (List.prefix_append_right_inj F).mp hQ
        obtain ⟨G', m', hG'⟩ := hG.of_isPrefix (A := F ++ [s]) ⟨C, by simp⟩
        obtain ⟨F', hops, hF', hs⟩ := hG'.split (List.cons_ne_nil s [])
        obtain rfl : F' = F := hF'.eq_self hF
        have hdir : n = .dir := by
          have hlookup := hF'.lookup (stands.named hA)
          rw [stands.lookup hA] at hlookup
          exact Option.some.inj hlookup
        subst hdir
        exact missing s (C ++ X) hX.symm G' m' (stands.append hs (List.cons_ne_nil s []))

/-! ## Where paths lead -/

/-- The names of a path, seen from the root directory, in normal form. -/
def names (d : Disk) (p : Path) : Place :=
  (Path.collapse (d.absolute p).components).filterMap Component.name?

theorem names_eq (h : Path.collapse (d.absolute p).components = .root :: P.pieces.map .name) :
    d.names p = P := by
  rw [names, h, List.filterMap_cons_none rfl, Place.filterMap_names]

theorem names_path (hP : P.Named) : d.names P.path = P := by
  refine names_eq ?_
  rw [absolute, if_pos P.isAbsolute_path, Place.collapse_components hP]

theorem named_names (d : Disk) (p : Path) : (d.names p).Named := by
  obtain ⟨P, hP, hcollapse⟩ := Path.exists_collapse_eq (d.isAbsolute_absolute p)
  rwa [names_eq hcollapse]

/-- The place that a path begins at: the root directory if it is absolute, or else the current
directory. -/
def base (d : Disk) (p : Path) : Place := if p.isAbsolute then [] else d.cwd

theorem named_base (hcwd : d.cwd.Named) (p : Path) : (d.base p).Named := by
  rw [base]
  split
  · exact Place.named_nil
  · exact hcwd

theorem base_join {q : Path} (hq : q.isAbsolute = false) : d.base (p.join q) = d.base p := by
  rw [base, Path.isAbsolute_join hq, base]

theorem names_eq_along (hcwd : d.cwd.Named) (p : Path) : d.names p = (d.base p).along p.moves := by
  rw [names_eq (Path.collapse_components (d.isAbsolute_absolute p)), absolute, base]
  split
  · rfl
  · next hrelative =>
    rw [currentDir, Path.moves_join (Bool.eq_false_iff.mpr hrelative), Place.along_append,
      Place.moves_path hcwd, Place.along_names, List.nil_append]

/-- A path that goes up nowhere adds its names. -/
theorem names_join {q : Path} (hcwd : d.cwd.Named) (hq : q.isAbsolute = false)
    (hup : .up ∉ q.components) : d.names (p.join q) = d.names p ++ q.place := by
  rw [names_eq_along hcwd, names_eq_along hcwd, base_join hq, Path.moves_join hq,
    Place.along_append, Place.along_eq_append (mt Path.up_mem_components_iff.mpr hup),
    ← Path.place_eq]

/-- The names of a path, seen from the root directory, are its own or those of the current
directory. -/
theorem mem_place_of_mem_names {s : String} (h : s ∈ d.names p) (hcwd : d.cwd.Named) :
    s ∈ p.place ∨ s ∈ d.cwd := by
  rw [names_eq_along hcwd] at h
  rw [Path.place_eq]
  refine (Place.mem_of_mem_along h).symm.imp_right fun hs => ?_
  rw [base] at hs
  split at hs
  · exact absurd hs List.not_mem_nil
  · exact hs

/-- Whatever a link on the way leads to is found, although an operating system does not follow any
number of links and not all paths are short enough for it. -/
def Follows (d : Disk) (P : Place) : Prop :=
  ∀ Q s F t G m, Q ++ [s] <+: P → d.Stands Q F .dir → d.lookup (F ++ [s]) = some (.link t) →
    d.Stands (Q ++ [s]) G m → d.exists_ (Place.path (Q ++ [s])) = true

theorem follows_of_exists (hP : P.Named) (h : d.exists_ P.path = true) : d.Follows P :=
  fun _ _ _ _ _ _ hQ _ _ _ => exists_of_exists hP h hQ

/-- If the first names are found, and nothing stands with the next one, all links on the way were
followed. -/
theorem follows_of_missing (hA : A.Named) (hexists : d.exists_ A.path = true)
    (missing : ∀ s C, B = s :: C → ∀ G m, ¬d.Stands (A ++ [s]) G m) : d.Follows (A ++ B) := by
  intro Q t G u X x ⟨Y, hY⟩ _ _ hX
  exact exists_of_exists hA hexists (hX.isPrefix_of_missing hY missing)

/-- If the directory is found that a last name is missing from, all links before were followed. -/
theorem follows_concat (hnamed : (A ++ [s]).Named)
    (hA : d.locate true A.path = .ok (.found F .dir)) (hs : d.lookup (F ++ [s]) = none) :
    d.Follows (A ++ [s]) := by
  have hAnamed : A.Named := hnamed.of_isPrefix (List.prefix_append A [s])
  refine follows_of_missing hAnamed (exists_of_locate hA) fun t C ht => ?_
  obtain ⟨rfl, -⟩ := List.cons.inj ht
  exact Stands.not_concat ⟨40, walks_of_locate hAnamed hA⟩ hs

/-- After the last name with which anything is found, no link is on the way to what stands. -/
theorem Follows.lookup_ne_link (hfollows : d.Follows (A ++ B)) (hnamed : (A ++ B).Named)
    (hF : d.Stands A F n) (hB : ∀ s X, B = s :: X → d.exists_ (Place.path (A ++ [s])) = false)
    (hCB : C <+: B) (hG : d.Stands (A ++ C) G m) :
    ∀ D, D <+: C → D ≠ [] → ∀ t, d.lookup (F ++ D) ≠ some (.link t) := by
  -- the first link on the way would be one that is followed
  have hall : ∀ D, D <+: C → ∀ E, E <+: D → E ≠ [] → ∀ t, d.lookup (F ++ E) ≠ some (.link t) := by
    intro D
    induction D using List.reverseRecOn with
    | nil => exact fun _ E hE hne => absurd (List.prefix_nil.mp hE) hne
    | append_singleton D s ih =>
      intro hD E hE hne t hlink
      have hlinks := ih ((List.prefix_append D [s]).trans hD)
      rcases List.prefix_concat_iff.mp hE with rfl | hE
      · have hAD : A ++ (D ++ [s]) <+: A ++ C := (List.prefix_append_right_inj A).mpr hD
        have hADB : A ++ (D ++ [s]) <+: A ++ B :=
          hAD.trans ((List.prefix_append_right_inj A).mpr hCB)
        obtain ⟨X, x, hX⟩ := hG.of_isPrefix hAD
        rw [← List.append_assoc] at hX hADB hlink
        obtain ⟨Y, -, hY, -⟩ := hX.split (List.cons_ne_nil s [])
        rw [hF.eq_append hY hlinks] at hY
        have hexists := hfollows _ s _ t X x hADB hY hlink hX
        obtain ⟨u, Z, hDs⟩ := List.exists_cons_of_ne_nil (List.concat_ne_nil s D)
        obtain ⟨V, rfl⟩ := hD.trans hCB
        have hu : A ++ [u] <+: A ++ D ++ [s] := by
          rw [List.append_assoc, hDs]
          exact ⟨Z, by simp⟩
        have hmissing := hB u (Z ++ V) (by rw [hDs, List.cons_append])
        rw [exists_of_exists (hnamed.of_isPrefix hADB) hexists hu] at hmissing
        cases hmissing
      · exact hlinks E hE hne t hlink
  exact hall C (List.prefix_refl C)

/-- Where everything that links lead to is found, a path is resolved to the place that its names
lead to. -/
theorem reach_of_follows (h : d.LeadsTo (d.names p) Q) (hfollows : d.Follows (d.names p)) :
    d.reach p = .ok Q.path := by
  obtain ⟨A, B, F, n, hnamed, -, hcollapse, hF, hB, hreach⟩ := d.exists_reach_eq p
  rw [names_eq hcollapse] at h hfollows
  have hA : d.Stands A F n := ⟨40, walks_of_locate (hnamed.of_isPrefix (List.prefix_append A B)) hF⟩
  generalize hP : A ++ B = P at h
  cases h with
  | @on A' B' F' n' stands missing =>
    obtain ⟨C, rfl⟩ := hA.isPrefix_of_missing hP missing
    obtain rfl : B = C ++ B' := by simpa using hP
    have hlinks := hfollows.lookup_ne_link hnamed hA hB (List.prefix_append C B') stands
    rw [hreach, hA.eq_append stands hlinks, List.append_assoc]

/-- If a path is resolved to the place that its names lead to, everything that links lead to was
found. -/
theorem follows_of_reach (h : d.LeadsTo (d.names p) Q) (hlinks : d.LinksResolve)
    (hreach : d.reach p = .ok Q.path) : d.Follows (d.names p) := by
  have hQ := h.settled (d.named_names p) |>.straight hlinks
  have hQnamed := h.named (d.named_names p)
  obtain ⟨A, B, F, n, hnamed, hFnamed, hcollapse, hF, hB, hreach'⟩ := d.exists_reach_eq p
  have hA : A.Named := hnamed.of_isPrefix (List.prefix_append A B)
  have hstands : d.Stands A F n := ⟨40, walks_of_locate hA hF⟩
  obtain rfl : Q = F ++ B := by
    refine Place.path_inj hQnamed (hFnamed.append fun s hs => hnamed s (by simp [hs])) ?_
    exact Except.ok.inj (hreach.symm.trans hreach')
  rw [names_eq hcollapse]
  intro X s G t Y y hX hG hlink hY
  rcases List.prefix_or_prefix_of_prefix hX (List.prefix_append A B) with hXA | hAX
  · exact exists_of_exists hA (exists_of_locate hF) hXA
  rcases List.prefix_concat_iff.mp hAX with rfl | ⟨C, rfl⟩
  · exact exists_of_locate hF
  -- the link would be on the way down to where the names lead
  obtain ⟨D, hD⟩ := hX
  obtain rfl : B = C ++ [s] ++ D := by simpa using hD.symm
  rw [hstands.eq_append hG fun E hE _ t => hQ _ ?_ t, List.append_assoc] at hlink
  · exact absurd hlink (hQ _ ⟨D, by simp⟩ t)
  · exact (List.prefix_append_right_inj F).mpr (hE.trans ⟨[s] ++ D, by simp⟩)

end Disk

end StagedCodegen
