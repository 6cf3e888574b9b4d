import StagedCodegen.Proofs.Disk.Locations

/-!
# Paths as they are written

An operating system walks along a path as it is written, while the place that a path is resolved to
is found from its names. Where a path goes up, the two can differ, for the parent of what a link
leads to is not the directory of the link. They do not if every name before which a path goes up is
that of a directory (`Disk.Level`): then what the names of the path lead to is found by the path
(`Disk.walk_along`).

So what is put at the place that such a path is resolved to is what is found by the path from then
on, whatever directories and files were added meanwhile, as long as no link was (`Disk.Steady`).

Main statement: `Disk.locate_of_reach`.
-/

namespace StagedCodegen

open StagedCodegen.Path (Component pieceComponent pieceComponents)

namespace Path

theorem moves_of_name {s : String} (hs : IsName s.toList) : moves ⟨s⟩ = [.name s.toList] := by
  rw [moves, Text.split_of_not_mem hs.slash_notMem]
  exact pieceComponents_of_names fun t ht => by rwa [List.mem_singleton.mp ht]

theorem place_of_name {s : String} (hs : IsName s.toList) : place ⟨s⟩ = [s] := by
  rw [place_eq, moves_of_name hs]
  simp [Component.name?]

theorem up_notMem_of_name {s : String} (hs : IsName s.toList) : .up ∉ components ⟨s⟩ := by
  rw [up_mem_components_iff, moves_of_name hs]
  simp

/-- Slashes at the end of a path do not count. -/
theorem pieceComponents_dropEndWhile (cs : List Char) :
    pieceComponents (Text.split '/' (Text.dropEndWhile (· == '/') cs)) =
      pieceComponents (Text.split '/' cs) := by
  induction cs using List.reverseRecOn with
  | nil => rfl
  | append_singleton cs c ih =>
    by_cases hc : c = '/'
    · subst hc
      have hdrop : Text.dropEndWhile (· == '/') (cs ++ ['/']) =
        Text.dropEndWhile (· == '/') cs := by
        simp [Text.dropEndWhile]
      rw [hdrop, ih, pieceComponents_slash]
    · rw [Text.dropEndWhile_of_getLast? (by simpa using hc)]

end Path

namespace Disk

variable {d d' : Disk} {p q : Path} {F P Q : Place} {m n : Node} {s : String} {followLast : Bool}
  {hops : Nat} {r : Located}

/-! ## Steps -/

/-- What is glued to a name ends in this piece. -/
theorem exists_split_glue (a : List Char) {b : List Char} (hb : '/' ∉ b) :
    ∃ ps, Text.split '/' (Path.glue a b) = ps ++ [b] ∧
      pieceComponents ps = pieceComponents (Text.split '/' a) := by
  rw [Path.glue]
  split
  · next h =>
    rcases h with rfl | h
    · exact ⟨[], Text.split_of_not_mem hb, rfl⟩
    · obtain ⟨a, rfl⟩ := List.getLast?_eq_some_iff.mp h
      refine ⟨Text.split '/' a, ?_, ?_⟩
      · rw [List.append_assoc, List.singleton_append, Text.split_append, Text.split_of_not_mem hb]
      · rw [Path.pieceComponents_slash]
  · exact ⟨Text.split '/' a, by rw [Text.split_append, Text.split_of_not_mem hb], rfl⟩

/-- A path that a name is joined to goes the way of the path, and then to the name. -/
theorem exists_steps_join (p : Path) (hs : Path.IsName s.toList) : ∃ ps,
    steps (p.join ⟨s⟩) = ps.filterMap pieceStep ++ [.name s] ∧ pieceComponents ps = p.moves := by
  have hrelative := Path.isAbsolute_of_name hs
  obtain ⟨ps, hsplit, hps⟩ := exists_split_glue p.text.toList hs.slash_notMem
  have hlast : (Path.glue p.text.toList s.toList).getLast? ≠ some '/' := by
    have hend : (Path.glue p.text.toList s.toList).getLast? = s.toList.getLast? := by
      rw [Path.glue]
      split
      · exact List.getLast?_append_of_ne_nil _ hs.ne_nil
      · rw [List.getLast?_append_of_ne_nil _ (List.cons_ne_nil _ _),
          List.getLast?_cons_of_ne_nil hs.ne_nil]
    rw [hend]
    exact fun hslash => hs.slash_notMem (List.mem_of_getLast? hslash)
  refine ⟨ps, ?_, hps⟩
  rw [steps, Path.toList_join hrelative, if_neg hlast, hsplit, List.append_nil,
    List.filterMap_append, List.filterMap_cons_some (pieceStep_of_name hs), String.ofList_toList]
  rfl

/-! ## Walking along a path as it is written -/

/-- The last of the names leads from a directory to one that is in it. -/
def Nested (d : Disk) (P : Place) : Prop :=
  ∀ Q s, P = Q ++ [s] → ∃ F, d.Stands Q F .dir ∧ d.Stands P (F ++ [s]) .dir

/-- Whenever the path goes up, the name before leads from a directory to one that is in it. -/
def Level (d : Disk) (p : Path) : Prop :=
  ∀ before after, p.moves = before ++ .up :: after → d.Nested ((d.base p).along before)

theorem Level.join (h : d.Level p) (hq : q.isAbsolute = false) (hup : .up ∉ q.components) :
    d.Level (p.join q) := by
  intro before after hmoves
  rw [Path.moves_join hq, List.append_eq_append_iff] at hmoves
  rw [base_join hq]
  rcases hmoves with ⟨rest, -, hrest⟩ | ⟨rest, hp, hrest⟩
  · rw [Path.up_mem_components_iff, hrest] at hup
    exact absurd (List.mem_append_right rest List.mem_cons_self) hup
  · rcases rest with _ | ⟨x, rest⟩
    · rw [Path.up_mem_components_iff, ← List.nil_append q.moves, ← hrest] at hup
      exact absurd List.mem_cons_self hup
    · obtain ⟨rfl, -⟩ := List.cons.inj hrest
      exact h before rest hp

/-- To stay somewhere on the way changes nothing. -/
theorem walk_insert_here {b : List Step} (hb : b ≠ []) (hops : Nat) (at_ : Place) (a : List Step) :
    d.walk followLast hops at_ (a ++ .here :: b) = d.walk followLast hops at_ (a ++ b) := by
  have hrest : ∀ a : List Step, (a ++ .here :: b).isEmpty = (a ++ b).isEmpty := by
    intro a
    have hb' : b.isEmpty = false := List.isEmpty_eq_false_iff.mpr hb
    cases a <;> simp [hb']
  induction hops generalizing at_ a with
  | zero =>
    induction a generalizing at_ with
    | nil => exact d.walk_here followLast 0 at_ b
    | cons x a ih =>
      rw [List.cons_append, List.cons_append]
      cases x with
      | here => rw [walk_here, walk_here, ih]
      | up => rw [walk_up, walk_up, ih]
      | name s => rw [walk_name, walk_name, hrest, ih]
  | succ hops ihops =>
    induction a generalizing at_ with
    | nil => exact d.walk_here followLast (hops + 1) at_ b
    | cons x a ih =>
      rw [List.cons_append, List.cons_append]
      cases x with
      | here => rw [walk_here, walk_here, ih]
      | up => rw [walk_up, walk_up, ih]
      | name s =>
        rw [walk_name, walk_name, hrest, ih]
        -- the steps of a link come before those that are left
        simp only [← List.append_assoc, ihops]

/-- Steps after a directory can be replaced by others that lead on in the same way. -/
theorem walk_congr {a b b' : List Step} {at_ : Place} {k : Nat}
    (h : d.Walks true k at_ a (.found F .dir)) (hb : b ≠ []) (hb' : b' ≠ [])
    (hsame : ∀ hops, d.walk followLast hops F b = d.walk followLast hops F b') (hops : Nat) :
    d.walk followLast hops at_ (a ++ b) = d.walk followLast hops at_ (a ++ b') := by
  have hrest : ∀ rest : List Step, (rest ++ b).isEmpty = false ∧ (rest ++ b').isEmpty = false := by
    intro rest
    simp [List.isEmpty_eq_false_iff, hb, hb']
  generalize hend : Located.found F .dir = e at h
  induction h generalizing hops with
  | stay there =>
    cases hend
    exact hsame hops
  | here on ih => rw [List.cons_append, List.cons_append, walk_here, walk_here, ih hops hend]
  | up on ih => rw [List.cons_append, List.cons_append, walk_up, walk_up, ih hops hend]
  | enter short there on ih =>
    rw [List.cons_append, List.cons_append, walk_name, walk_name, there]
    simp only [ih hops hend]
  | follow short there inner on ih =>
    rw [List.cons_append, List.cons_append, walk_name, walk_name, there, (hrest _).1, (hrest _).2]
    cases hops with
    | zero => rfl
    | succ hops => simp only [← List.append_assoc, ih hops hend]
  | vacant | file => cases hend
  | link short there last => cases last

/-- To enter a directory and to go up again changes nothing. -/
theorem walk_cancel {b : List Step} (hP : (P ++ [s]).Named) (h : d.Nested (P ++ [s])) (hb : b ≠ [])
    (hops : Nat) : d.walk followLast hops [] (P.map .name ++ .name s :: .up :: b) =
      d.walk followLast hops [] (P.map .name ++ b) := by
  obtain ⟨F, ⟨k, hwalks⟩, hin⟩ := h P s rfl
  refine walk_congr hwalks (List.cons_ne_nil _ _) hb (fun hops => ?_) hops
  have hshort : s.utf8ByteSize ≤ 255 := by
    obtain ⟨k, hwalks⟩ := hin
    exact hwalks.short (List.mem_map_of_mem (by simp))
  rw [walk_name, hin.lookup hP, if_neg (Nat.not_lt.mpr hshort)]
  simp only
  rw [walk_up, List.dropLast_concat]

/-- What a piece means to a walk is what it means in a path, but to stay somewhere is a step. -/
theorem pieceStep_cases (t : List Char) :
    (pieceStep t = none ∧ pieceComponent t = none) ∨
    (pieceStep t = some .here ∧ pieceComponent t = none) ∨
    (pieceStep t = some .up ∧ pieceComponent t = some .up) ∨
    (pieceStep t = some (.name (String.ofList t)) ∧ pieceComponent t = some (.name t)) := by
  unfold pieceStep
  split
  · exact .inl ⟨rfl, rfl⟩
  · exact .inr (.inl ⟨rfl, rfl⟩)
  · exact .inr (.inr (.inl ⟨rfl, rfl⟩))
  · simp [pieceComponent]

/-- Pieces that go up only where they may lead on as their names do. -/
theorem walk_along {ps : List (List Char)} {b : List Step} (hb : b ≠ []) (hP : P.Named)
    (hnames : ∀ t, .name t ∈ pieceComponents ps → Path.IsName t)
    (hlevel : ∀ before after, pieceComponents ps = before ++ .up :: after →
      d.Nested (P.along before)) :
    d.walk followLast hops [] (P.map .name ++ (ps.filterMap pieceStep ++ b)) =
      d.walk followLast hops [] ((P.along (pieceComponents ps)).map .name ++ b) := by
  induction ps generalizing P with
  | nil => rfl
  | cons t ps ih =>
    have hrest : ps.filterMap pieceStep ++ b ≠ [] := by simp [hb]
    rcases pieceStep_cases t with ⟨hs, hc⟩ | ⟨hs, hc⟩ | ⟨hs, hc⟩ | ⟨hs, hc⟩
    · rw [pieceComponents, List.filterMap_cons_none hc, ← pieceComponents] at hnames hlevel ⊢
      rw [List.filterMap_cons_none hs]
      exact ih hP hnames hlevel
    · rw [pieceComponents, List.filterMap_cons_none hc, ← pieceComponents] at hnames hlevel ⊢
      rw [List.filterMap_cons_some hs, List.cons_append, walk_insert_here hrest]
      exact ih hP hnames hlevel
    · rw [pieceComponents, List.filterMap_cons_some hc, ← pieceComponents] at hnames hlevel ⊢
      rw [List.filterMap_cons_some hs, List.cons_append, Place.along]
      have hon := ih (hP.of_isPrefix (List.dropLast_prefix P))
        (fun u hu => hnames u (List.mem_cons_of_mem _ hu))
        fun before after hps => hlevel (.up :: before) after (by rw [hps, List.cons_append])
      rw [← hon]
      rcases List.eq_nil_or_concat' P with rfl | ⟨Q, u, rfl⟩
      · exact d.walk_up followLast hops [] _
      · rw [List.dropLast_concat, List.map_append, List.append_assoc]
        exact walk_cancel hP (hlevel [] _ rfl) hrest hops
    · rw [pieceComponents, List.filterMap_cons_some hc, ← pieceComponents] at hnames hlevel ⊢
      rw [List.filterMap_cons_some hs, Place.along, ← ih, List.map_append, List.append_assoc]
      · rfl
      · exact hP.concat (by simpa using hnames t List.mem_cons_self)
      · exact fun u hu => hnames u (List.mem_cons_of_mem _ hu)
      · exact fun before after hps =>
          hlevel (.name t :: before) after (by rw [hps, List.cons_append])

/-- A walk through directories goes on from there. -/
theorem Walks.of_opens {ns : List String} {rest : List Step}
    (h : d.Walks followLast hops P (ns.map .name ++ rest) r) (hopens : d.Opens (P ++ ns)) :
    d.Walks followLast hops (P ++ ns) rest r := by
  induction ns generalizing P with
  | nil => rwa [List.append_nil]
  | cons s ns ih =>
    rw [List.append_cons] at hopens ⊢
    have hs : d.lookup (P ++ [s]) = some .dir := hopens _ (List.prefix_append _ ns)
    refine ih ?_ hopens
    rw [List.map_cons, List.cons_append] at h
    generalize ns.map Step.name ++ rest = others at h
    cases h with
    | enter short there on => exact on
    | vacant short there | file short there | link short there | follow short there =>
      cases hs.symm.trans there

theorem Opens.base (h : d.Opens d.cwd) (p : Path) : d.Opens (d.base p) := by
  rw [Disk.base]
  split
  · exact opens_nil d
  · exact h

/-- What the names of a level path lead to, with one name more, is found by the path as it is
written. -/
theorem locate_join_of_walks (hcwd : d.Opens d.cwd) (hnamed : d.cwd.Named) (hlevel : d.Level p)
    (hs : Path.IsName s.toList) (husable : Usable (p.join ⟨s⟩))
    (h : d.Walks followLast 40 [] ((d.names (p.join ⟨s⟩)).map .name) r) :
    d.locate followLast (p.join ⟨s⟩) = .ok r := by
  have hrelative := Path.isAbsolute_of_name hs
  obtain ⟨ps, hsteps, hps⟩ := exists_steps_join p hs
  have hlast : [Step.name s] ≠ [] := List.cons_ne_nil _ _
  have hnames : ∀ t, .name t ∈ Path.pieceComponents ps → Path.IsName t :=
    fun t ht => Path.isName_of_mem_moves (hps ▸ ht)
  have hwalk := h.walk_eq
  rw [names_join hnamed hrelative (Path.up_notMem_of_name hs), Path.place_of_name hs,
    names_eq_along hnamed, List.map_append, List.map_singleton, ← hps,
    ← walk_along hlast (named_base hnamed p) hnames fun _ _ heq => hlevel _ _ (hps ▸ heq),
    ← hsteps] at hwalk
  rw [locate_eq husable, ← base, base_join hrelative]
  exact ((walks_of_walk hwalk).of_opens (hcwd.base p)).walk_eq

/-! ## Trees that differ in directories and files -/

/-- Files may come and go, and directories may be added, but links are the same. -/
structure Steady (d d' : Disk) : Prop where
  cwd : d'.cwd = d.cwd
  dir : ∀ P, d.lookup P = some .dir → d'.lookup P = some .dir
  link : ∀ P t, d'.lookup P = some (.link t) ↔ d.lookup P = some (.link t)

theorem Steady.refl (d : Disk) : d.Steady d := ⟨rfl, fun _ h => h, fun _ _ => Iff.rfl⟩

theorem Steady.trans {d'' : Disk} (h : d.Steady d') (h' : d'.Steady d'') : d.Steady d'' :=
  ⟨h'.cwd.trans h.cwd, fun P hP => h'.dir P (h.dir P hP),
    fun P t => (h'.link P t).trans (h.link P t)⟩

theorem Steady.opens (h : d.Steady d') (hP : d.Opens P) : d'.Opens P :=
  fun Q hQ => h.dir Q (hP Q hQ)

theorem Steady.base (h : d.Steady d') (p : Path) : d'.base p = d.base p := by
  rw [Disk.base, h.cwd, Disk.base]

/-- Walks go on as before, whatever has become of the place where they end. -/
theorem Walks.steady {at_ : Place} {rest : List Step}
    (h : d.Walks true hops at_ rest (.found F m)) (hsteady : d.Steady d')
    (hF : d'.lookup F = some n) (hn : ∀ t, n ≠ .link t) :
    d'.Walks true hops at_ rest (.found F n) := by
  generalize hend : Located.found F m = r at h
  induction h with
  | stay there => cases hend; exact .stay hF
  | here on ih => exact .here (ih hend)
  | up on ih => exact .up (ih hend)
  | enter short there on ih => exact .enter short (hsteady.dir _ there) (ih hend)
  | file short there =>
    cases hend
    cases n with
    | dir => exact .enter short hF (.stay hF)
    | file c => exact .file short hF
    | link t => exact absurd rfl (hn t)
  | follow short there inner on ih =>
    exact .follow short ((hsteady.link _ _).mpr there) inner (ih hend)
  | vacant => cases hend
  | link short there last => cases last

theorem Stands.steady (h : d.Stands P F .dir) (hP : P.Named) (hsteady : d.Steady d') :
    d'.Stands P F .dir := by
  have hF := hsteady.dir F (h.lookup hP)
  obtain ⟨hops, hwalks⟩ := h
  exact ⟨hops, hwalks.steady hsteady hF nofun⟩

theorem Level.steady (h : d.Level p) (hnamed : d.cwd.Named) (hsteady : d.Steady d') :
    d'.Level p := by
  intro before after hmoves Q s hQ
  rw [hsteady.base] at hQ
  have hP : ((d.base p).along before).Named := by
    refine (named_base hnamed p).along fun t ht => Path.isName_of_mem_moves (p := p) ?_
    rw [hmoves]
    exact List.mem_append_left _ ht
  obtain ⟨F, hF, hin⟩ := h before after hmoves Q s hQ
  rw [hsteady.base, hQ]
  rw [hQ] at hP hin
  exact ⟨F, hF.steady (hP.of_isPrefix (List.prefix_append Q [s])) hsteady, hin.steady hP hsteady⟩

/-- What is put at the place that a level path is resolved to is found by the path as it is written,
if nothing has changed but directories and files. -/
theorem locate_of_reach {c : ByteArray} (hcwd : d.Opens d.cwd) (hnamed : d.cwd.Named)
    (hlevel : d.Level p) (hs : Path.IsName s.toList) (husable : Usable (p.join ⟨s⟩))
    (hreach : d.reach (p.join ⟨s⟩) = .ok F.path) (hF : F.Named) (hsteady : d.Steady d')
    (htree : d'.IsTree) (hfile : d'.lookup F = some (.file c))
    (hshort : ∀ t ∈ F, t.utf8ByteSize ≤ 255) :
    d'.locate true (p.join ⟨s⟩) = .ok (.found F (.file c)) := by
  obtain ⟨A, B, G, n, hAB, hG, hcollapse, hA, -, hreach'⟩ := d.exists_reach_eq (p.join ⟨s⟩)
  obtain rfl : F = G ++ B := by
    refine Place.path_inj hF (hG.append fun t ht => hAB t (List.mem_append_right A ht)) ?_
    exact Except.ok.inj (hreach.symm.trans hreach')
  have hwalks := walks_of_locate (hAB.of_isPrefix (List.prefix_append A B)) hA
  have hnamed' : d'.cwd.Named := hsteady.cwd ▸ hnamed
  have hnames : d'.names (p.join ⟨s⟩) = A ++ B := by
    rw [names_eq_along hnamed', hsteady.base, ← names_eq_along hnamed, names_eq hcollapse]
  refine locate_join_of_walks (hsteady.cwd ▸ hsteady.opens hcwd) hnamed'
    (hlevel.steady hnamed hsteady) hs husable ?_
  rw [hnames, List.map_append]
  by_cases hB : B = []
  · subst hB
    rw [List.append_nil] at hfile ⊢
    simpa using hwalks.steady hsteady hfile nofun
  · -- the file is below the place where the part that was there leads to
    have hreaches := htree.reaches hfile
    have hdir : d'.lookup G = some .dir :=
      hreaches G (List.prefix_append G B) (by simpa using Ne.symm hB)
    have hon : d'.Walks true 0 G (B.map .name) (.found (G ++ B) (.file c)) :=
      walks_of_reaches hreaches hfile nofun fun t ht => hshort t (List.mem_append_right G ht)
    exact (hwalks.steady hsteady hdir nofun).trans hon (by simpa using hB)

end Disk

end StagedCodegen
