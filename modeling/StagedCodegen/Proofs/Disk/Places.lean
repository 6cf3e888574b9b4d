import Mathlib.Data.List.Basic
import Mathlib.Data.List.Induction
import StagedCodegen.Disk

/-!
# Places as paths

A place is a list of names, and its path is these names with slashes before them. As long as the
names can be names of entries (`Place.Named`), nothing is lost on the way: the components and the
steps of the path are the names again (`Place.components_path`, `Disk.steps_path`), and joining a
name, going to the parent and changing the last name do to the path what they do to the place
(`Place.join_path`, `Place.parent?_path`, `Place.withFileName_path`).

Main statement: the normal form of an absolute path is the path of a place
(`Path.exists_collapse_eq`).
-/

namespace StagedCodegen

open StagedCodegen.Path (Component pieceComponent pieceComponents)

/-! ## Names -/

/-- The text can be the name of an entry: it is not empty, it does not stand for this directory or
its parent, and it has no slash. -/
structure Path.IsName (s : List Char) : Prop where
  ne_nil : s ≠ []
  ne_here : s ≠ ['.']
  ne_up : s ≠ ['.', '.']
  slash_notMem : '/' ∉ s

instance (s : List Char) : Decidable (Path.IsName s) :=
  decidable_of_iff (s ≠ [] ∧ s ≠ ['.'] ∧ s ≠ ['.', '.'] ∧ '/' ∉ s)
    ⟨fun ⟨hnil, hhere, hup, hslash⟩ => ⟨hnil, hhere, hup, hslash⟩,
      fun h => ⟨h.ne_nil, h.ne_here, h.ne_up, h.slash_notMem⟩⟩

theorem Path.IsName.pieceComponent {s : List Char} (h : Path.IsName s) :
    pieceComponent s = some (.name s) := by
  unfold Path.pieceComponent
  split
  · exact absurd rfl h.ne_nil
  · exact absurd rfl h.ne_here
  · exact absurd rfl h.ne_up
  · rfl

/-- A piece between slashes means a name, the parent, or nothing. -/
theorem Path.eq_of_pieceComponent {s : List Char} {c : Component} (hs : '/' ∉ s)
    (h : pieceComponent s = some c) : c = .up ∨ c = .name s ∧ Path.IsName s := by
  unfold Path.pieceComponent at h
  split at h
  · exact absurd h (by simp)
  · exact absurd h (by simp)
  · exact .inl (Option.some.inj h).symm
  · next h₁ h₂ h₃ => exact .inr ⟨(Option.some.inj h).symm, h₁, h₂, h₃, hs⟩

theorem Path.isAbsolute_of_name {s : String} (hs : IsName s.toList) : isAbsolute ⟨s⟩ = false := by
  rw [isAbsolute, beq_eq_false_iff_ne]
  exact fun hhead => hs.slash_notMem (List.mem_of_head? hhead)

theorem Path.pieceComponents_of_names {ps : List (List Char)} (h : ∀ s ∈ ps, Path.IsName s) :
    pieceComponents ps = ps.map .name := by
  induction ps with
  | nil => rfl
  | cons s ps ih =>
    rw [pieceComponents, List.filterMap_cons_some (h s (by simp)).pieceComponent,
      ← pieceComponents, ih fun t ht => h t (by simp [ht]), List.map_cons]

/-! ## The text of a place -/

namespace Place

variable {P Q : Place} {s : String}

/-- All names can be names of entries. -/
def Named (P : Place) : Prop := ∀ s ∈ P, Path.IsName s.toList

instance (P : Place) : Decidable P.Named :=
  inferInstanceAs (Decidable (∀ s ∈ P, Path.IsName s.toList))

/-- The names as lists of characters. -/
def pieces (P : Place) : List (List Char) := P.map String.toList

theorem Named.pieces (h : P.Named) : ∀ s ∈ P.pieces, Path.IsName s := by
  intro s hs
  obtain ⟨t, ht, rfl⟩ := List.mem_map.mp hs
  exact h t ht

theorem Named.slash_notMem (h : P.Named) : ∀ s ∈ P.pieces, '/' ∉ s :=
  fun s hs => (h.pieces s hs).slash_notMem

theorem named_nil : Named [] := fun _ h => absurd h List.not_mem_nil

theorem Named.append (hP : P.Named) (hQ : Q.Named) : (P ++ Q).Named := by
  intro s hs
  rcases List.mem_append.mp hs with hs | hs
  · exact hP s hs
  · exact hQ s hs

theorem Named.concat (hP : P.Named) (hs : Path.IsName s.toList) : (P ++ [s]).Named :=
  hP.append fun t ht => by rwa [List.mem_singleton.mp ht]

theorem Named.of_isPrefix (h : P.Named) (hQ : Q <+: P) : Q.Named := fun s hs => h s (hQ.subset hs)

theorem toList_path (P : Place) : P.path.text.toList = '/' :: Text.joinWith ['/'] P.pieces := by
  have hjoin : ∀ ps : List (List Char), ['/'].intercalate ps = Text.joinWith ['/'] ps := by
    intro ps
    induction ps with
    | nil => rfl
    | cons p ps ih =>
      cases ps with
      | nil => simp [Text.joinWith]
      | cons q qs => rw [List.intercalate_cons_cons, ih, Text.joinWith, List.append_assoc]
  simp [path, Text.joinTexts, hjoin, pieces]

theorem isAbsolute_path (P : Place) : P.path.isAbsolute = true := by
  simp [Path.isAbsolute, toList_path]

theorem split_joinWith_pieces (h : P.Named) (hne : P ≠ []) :
    Text.split '/' (Text.joinWith ['/'] P.pieces) = P.pieces :=
  Text.split_joinWith (by simpa [Place.pieces] using hne) h.slash_notMem

/-- The components of the path of a place are the root and its names. -/
theorem components_path (h : P.Named) : P.path.components = .root :: P.pieces.map .name := by
  rw [Path.components, toList_path]
  by_cases hne : P = []
  · subst hne; rfl
  · simp only [Path.parse]
    rw [split_joinWith_pieces h hne, Path.pieceComponents_of_names h.pieces]

/-- The path of a place begins with the paths of the places above it. -/
theorem startsWith_path (hP : P.Named) (hQP : Q <+: P) : P.path.startsWith Q.path = true := by
  rw [Path.startsWith, List.isPrefixOf_iff_prefix, components_path hP,
    components_path (hP.of_isPrefix hQP), List.cons_prefix_cons]
  exact ⟨rfl, (hQP.map String.toList).map Component.name⟩

theorem eq_of_names (h : P.pieces.map Component.name = Q.pieces.map .name) : P = Q := by
  have hpieces : P.pieces = Q.pieces :=
    (List.map_inj_right fun _ _ h => Component.name.inj h).mp h
  exact (List.map_inj_right fun _ _ h => String.toList_inj.mp h).mp hpieces

/-- Different places have different paths. -/
theorem path_inj (hP : P.Named) (hQ : Q.Named) (h : P.path = Q.path) : P = Q := by
  have hcomponents := congrArg Path.components h
  rw [components_path hP, components_path hQ] at hcomponents
  exact eq_of_names (List.cons.inj hcomponents).2

/-! ## Steps -/

theorem toList_path_concat (P : Place) (s : String) : (path (P ++ [s])).text.toList =
    (if P = [] then [] else P.path.text.toList) ++ '/' :: s.toList := by
  rw [toList_path, pieces, List.map_append, List.map_singleton]
  split
  · next h => subst h; rfl
  · next h =>
    have hpieces : P.map String.toList ≠ [] := by simpa using h
    rw [Text.joinWith_concat hpieces, toList_path, pieces, List.cons_append, List.cons_append]
    rfl

theorem toList_path_isPrefix (h : Q <+: P) : Q.path.text.toList <+: P.path.text.toList := by
  obtain ⟨R, rfl⟩ := h
  induction R using List.reverseRecOn with
  | nil => simp
  | append_singleton R s ih =>
    refine ih.trans ?_
    rw [← List.append_assoc, toList_path_concat]
    split
    · next h => rw [h]; exact ⟨s.toList, rfl⟩
    · exact List.prefix_append _ _

/-- The path of a place ends in a slash only at the root. -/
theorem getLast?_toList_path (h : P.Named) (hne : P ≠ []) :
    P.path.text.toList.getLast? ≠ some '/' := by
  obtain ⟨Q, s, rfl⟩ := (List.eq_nil_or_concat' P).resolve_left hne
  have hs : Path.IsName s.toList := h s (by simp)
  rw [toList_path_concat, List.getLast?_append_of_ne_nil _ (List.cons_ne_nil _ _),
    List.getLast?_cons_of_ne_nil hs.ne_nil]
  exact fun hlast => hs.slash_notMem (List.mem_of_getLast? hlast)

theorem withoutEndSlashes_path (h : P.Named) : P.path.withoutEndSlashes = P.path := by
  by_cases hne : P = []
  · subst hne; rfl
  · have hkeep : Text.dropEndWhile (· == '/') P.path.text.toList = P.path.text.toList := by
      refine Text.dropEndWhile_of_getLast? fun c hc => ?_
      rw [beq_eq_false_iff_ne]
      rintro rfl
      exact getLast?_toList_path h hne hc
    rw [Path.withoutEndSlashes, hkeep]
    split
    · next hnil => rw [toList_path] at hnil; exact absurd hnil (List.cons_ne_nil _ _)
    · simp

/-! ## Joining and taking apart -/

theorem path_eq_of_toList {p : Path} (h : p.text.toList = P.path.text.toList) : p = P.path := by
  cases p
  exact congrArg Path.mk (String.toList_inj.mp h)

theorem glue_path (h : P.Named) (s : String) :
    Path.glue P.path.text.toList s.toList = (path (P ++ [s])).text.toList := by
  rw [toList_path_concat, Path.glue]
  by_cases hne : P = []
  · subst hne; rfl
  · have hnil : P.path.text.toList ≠ [] := by rw [toList_path]; exact List.cons_ne_nil _ _
    rw [if_neg hne, if_neg (not_or.mpr ⟨hnil, getLast?_toList_path h hne⟩)]

/-- Joining a name to the path of a place gives the path of the place below it. -/
theorem join_path (h : P.Named) (hs : Path.IsName s.toList) :
    P.path.join ⟨s⟩ = path (P ++ [s]) := by
  refine path_eq_of_toList ?_
  rw [Path.join, Path.isAbsolute_of_name hs, if_neg Bool.false_ne_true, String.toList_ofList]
  exact glue_path h s

/-- A path with the components of a place is its path. -/
theorem ofComponents_eq (h : P.Named) :
    Path.ofComponents (.root :: P.pieces.map .name) = P.path := by
  refine path_eq_of_toList ?_
  rw [Path.ofComponents, String.toList_ofList]
  induction P using List.reverseRecOn with
  | nil => rfl
  | append_singleton P s ih =>
    have hP : Named P := h.of_isPrefix (List.prefix_append P [s])
    rw [pieces, List.map_append, List.map_append, ← List.cons_append, List.foldl_append,
      ← pieces, ih hP, List.map_singleton, List.map_singleton, List.foldl_cons, List.foldl_nil,
      if_neg (by simp), Path.Component.text, glue_path hP]

theorem components_concat (h : (P ++ [s]).Named) :
    (path (P ++ [s])).components = P.path.components ++ [.name s.toList] := by
  rw [components_path h, components_path (h.of_isPrefix (List.prefix_append P [s])), pieces,
    List.map_append, List.map_append]
  rfl

theorem split_path (h : P.Named) (hne : P ≠ []) :
    Text.split '/' P.path.text.toList = [] :: P.pieces := by
  rw [toList_path, Text.split, if_pos rfl, split_joinWith_pieces h hne]

theorem dropIdleEnd_pieces (h : P.Named) : Path.dropIdleEnd ([] :: P.pieces) = [] :: P.pieces := by
  rw [Path.dropIdleEnd]
  rcases List.eq_nil_or_concat' P with rfl | ⟨Q, s, rfl⟩
  · rfl
  · have hs : Path.IsName s.toList := h s (by simp)
    have hidle : ¬Path.isIdle s.toList = true := by simp [Path.isIdle, hs.ne_nil, hs.ne_here]
    rw [pieces, List.map_append, List.map_singleton, List.reverse_append, List.reverse_singleton,
      List.singleton_append, List.dropWhile_cons_of_neg hidle, List.reverse_cons,
      List.reverse_reverse]

theorem ofPieces_pieces (P : Place) : Path.ofPieces ([] :: P.pieces) = P.path := by
  cases P with
  | nil => rfl
  | cons s P =>
    refine path_eq_of_toList ?_
    rw [toList_path, pieces, List.map_cons, Path.ofPieces, String.toList_ofList, Text.joinWith]
    · rfl
    · simp

/-- The parent of the path of a place is the path of the place above it. -/
theorem parent?_path (h : (P ++ [s]).Named) : (path (P ++ [s])).parent? = some P.path := by
  have hP : P.Named := h.of_isPrefix (List.prefix_append P [s])
  have hlast : (path (P ++ [s])).components.getLast? = some (.name s.toList) := by
    rw [components_concat h, List.getLast?_concat]
  have hdrop : ([] :: pieces (P ++ [s])).dropLast = [] :: P.pieces := by
    rw [pieces, List.map_append, ← List.cons_append, List.map_singleton, List.dropLast_concat]
    rfl
  rw [Path.parent?, hlast]
  simp only
  rw [split_path h (by simp), dropIdleEnd_pieces h, hdrop]
  simp only
  rw [dropIdleEnd_pieces hP, ofPieces_pieces]

theorem fileName?_path (h : (P ++ [s]).Named) : (path (P ++ [s])).fileName? = some s := by
  rw [Path.fileName?, components_concat h, List.getLast?_concat]
  simp

/-- The path of a place with another last name is that of the place with this name. -/
theorem withFileName_path {t : String} (h : (P ++ [s]).Named) (ht : Path.IsName t.toList) :
    (path (P ++ [s])).withFileName t = path (P ++ [t]) := by
  rw [Path.withFileName, fileName?_path h, parent?_path h]
  exact join_path (h.of_isPrefix (List.prefix_append P [s])) ht

end Place

/-! ## Components after the start -/

namespace Path

variable {p q : Path}

/-- The components after the one that says where a path begins: each is a name or the parent. -/
def moves (p : Path) : List Component := pieceComponents (Text.split '/' p.text.toList)

theorem exists_components (p : Path) : ∃ start : List Component,
    p.components = start ++ p.moves ∧ ∀ c ∈ start, c = .root ∨ c = .here := by
  rw [components, moves]
  unfold parse
  split
  · next cs htext =>
    refine ⟨[.root], ?_, by simp⟩
    rw [htext, Text.split, if_pos rfl]
    rfl
  · split
    · next ps hsplit =>
      refine ⟨[.here], ?_, by simp⟩
      rw [hsplit]
      rfl
    · exact ⟨[], rfl, by simp⟩

theorem components_of_isAbsolute (h : p.isAbsolute = true) : p.components = .root :: p.moves := by
  rcases htext : p.text.toList with _ | ⟨c, cs⟩
  · simp [isAbsolute, htext] at h
  · obtain rfl : c = '/' := by simpa [isAbsolute, htext] using h
    rw [components, moves, htext, parse, Text.split, if_pos rfl]
    rfl

theorem eq_of_mem_moves {c : Component} (h : c ∈ p.moves) :
    c = .up ∨ ∃ s, c = .name s ∧ IsName s := by
  obtain ⟨s, hs, hpiece⟩ := List.mem_filterMap.mp h
  refine (eq_of_pieceComponent (Text.not_mem_of_mem_split hs) hpiece).imp_right ?_
  exact fun ⟨hc, hname⟩ => ⟨s, hc, hname⟩

theorem root_notMem_moves (p : Path) : .root ∉ p.moves := by
  intro h
  rcases eq_of_mem_moves h with heq | ⟨s, heq, -⟩ <;> cases heq

theorem isName_of_mem_moves {s : List Char} (h : .name s ∈ p.moves) : IsName s := by
  rcases eq_of_mem_moves h with heq | ⟨t, heq, ht⟩
  · cases heq
  · rwa [Component.name.inj heq]

theorem up_mem_components_iff : .up ∈ p.components ↔ .up ∈ p.moves := by
  obtain ⟨start, hcomponents, hstart⟩ := p.exists_components
  rw [hcomponents, List.mem_append, or_iff_right]
  intro hup
  rcases hstart _ hup with heq | heq <;> cases heq

/-- Only an absolute path begins with the root. -/
theorem isAbsolute_of_components {cs : List Component} (h : p.components = .root :: cs) :
    p.isAbsolute = true := by
  rw [components] at h
  unfold parse at h
  split at h
  · next cs' htext => rw [isAbsolute, htext]; rfl
  · split at h
    · cases h
    · have hroot : .root ∈ p.moves := by rw [moves, h]; exact List.mem_cons_self
      exact absurd hroot p.root_notMem_moves

theorem pieceComponents_append (ps qs : List (List Char)) :
    pieceComponents (ps ++ qs) = pieceComponents ps ++ pieceComponents qs :=
  List.filterMap_append

/-- A slash at the end of a path does not count. -/
theorem pieceComponents_slash (cs : List Char) :
    pieceComponents (Text.split '/' (cs ++ ['/'])) = pieceComponents (Text.split '/' cs) := by
  rw [Text.split_append, pieceComponents_append]
  simp [Text.split, pieceComponents, pieceComponent]

theorem toList_join (h : q.isAbsolute = false) :
    (p.join q).text.toList = glue p.text.toList q.text.toList := by
  rw [join, h, if_neg Bool.false_ne_true, String.toList_ofList]

/-- A relative path goes on from another. -/
theorem moves_join (h : q.isAbsolute = false) : (p.join q).moves = p.moves ++ q.moves := by
  rw [moves, toList_join h, glue]
  split
  · next hglue =>
    rcases hglue with hnil | hlast
    · rw [moves, hnil]
      rfl
    · obtain ⟨cs, hcs⟩ := List.getLast?_eq_some_iff.mp hlast
      rw [moves, hcs, pieceComponents_slash, List.append_assoc, List.singleton_append,
        Text.split_append, pieceComponents_append]
      rfl
  · rw [Text.split_append, pieceComponents_append]
    rfl

theorem isAbsolute_join (h : q.isAbsolute = false) : (p.join q).isAbsolute = p.isAbsolute := by
  rw [isAbsolute, toList_join h, isAbsolute]
  rw [isAbsolute] at h
  rcases p.text.toList with _ | ⟨c, cs⟩
  · exact h
  · rw [glue]
    split <;> rfl

end Path

theorem Place.moves_path {P : Place} (hP : P.Named) : P.path.moves = P.pieces.map .name := by
  have h := components_path hP
  rw [Path.components_of_isAbsolute P.isAbsolute_path] at h
  exact (List.cons.inj h).2

/-! ## Where components lead without links -/

namespace Place

variable {P : Place} {cs : List Component}

/-- The place that components lead to from another if there are no links. -/
def along (P : Place) : List Component → Place
  | [] => P
  | .name s :: cs => along (P ++ [String.ofList s]) cs
  | .up :: cs => along P.dropLast cs
  | .root :: cs => along P cs
  | .here :: cs => along P cs

theorem along_append (P : Place) (cs cs' : List Component) :
    P.along (cs ++ cs') = (P.along cs).along cs' := by
  induction cs generalizing P with
  | nil => rfl
  | cons c cs ih => cases c <;> exact ih _

theorem along_names (P Q : Place) : P.along (Q.pieces.map .name) = P ++ Q := by
  induction Q generalizing P with
  | nil => simp [pieces, along]
  | cons s Q ih =>
    rw [pieces, List.map_cons, List.map_cons, along, ← pieces, ih, String.ofList_toList,
      List.append_assoc, List.singleton_append]

theorem Named.along (hP : P.Named) (h : ∀ s, .name s ∈ cs → Path.IsName s) :
    (P.along cs).Named := by
  induction cs generalizing P with
  | nil => exact hP
  | cons c cs ih =>
    have hrest : ∀ s, .name s ∈ cs → Path.IsName s := fun s hs => h s (List.mem_cons_of_mem c hs)
    cases c with
    | root | here => exact ih hP hrest
    | up => exact ih (hP.of_isPrefix (List.dropLast_prefix P)) hrest
    | name s => exact ih (hP.concat (by simpa using h s List.mem_cons_self)) hrest

/-- The stack of components, last to first, of a place in normal form. -/
def stack (P : Place) : List Component := (.root :: P.pieces.map .name).reverse

theorem stack_concat (P : Place) (s : String) : stack (P ++ [s]) = .name s.toList :: P.stack := by
  simp [stack, pieces]

/-- The normal form of components is the place that they lead to. -/
theorem foldl_collapseStep (P : Place) (h : .root ∉ cs) :
    cs.foldl Path.collapseStep P.stack = (P.along cs).stack := by
  induction cs generalizing P with
  | nil => rfl
  | cons c cs ih =>
    rw [List.mem_cons, not_or] at h
    rw [List.foldl_cons]
    cases c with
    | root => exact absurd rfl h.1
    | here => exact ih P h.2
    | name s =>
      have hstep : Path.collapseStep P.stack (.name s) = stack (P ++ [String.ofList s]) := by
        rw [stack_concat, String.toList_ofList]
        cases hstack : P.stack <;> rfl
      rw [hstep, ih _ h.2, along]
    | up =>
      have hstep : Path.collapseStep P.stack .up = stack P.dropLast := by
        rcases List.eq_nil_or_concat' P with rfl | ⟨Q, s, rfl⟩
        · rfl
        · rw [stack_concat, List.dropLast_concat]
          rfl
      rw [hstep, ih _ h.2, along]

end Place

theorem Path.collapse_components {p : Path} (h : p.isAbsolute = true) :
    Path.collapse p.components = .root :: (Place.along [] p.moves).pieces.map .name := by
  have hroot : Path.collapseStep [] .root = Place.stack [] := rfl
  rw [components_of_isAbsolute h, Path.collapse, List.foldl_cons, hroot,
    Place.foldl_collapseStep _ p.root_notMem_moves, Place.stack, List.reverse_reverse]

/-- The components of the normal form of an absolute path are those of the path of a place. -/
theorem Path.exists_collapse_eq {p : Path} (h : p.isAbsolute = true) :
    ∃ P : Place, P.Named ∧ Path.collapse p.components = .root :: P.pieces.map .name :=
  ⟨_, Place.named_nil.along fun _ hs => isName_of_mem_moves hs, Path.collapse_components h⟩

theorem Place.collapse_components {P : Place} (h : P.Named) :
    Path.collapse P.path.components = .root :: P.pieces.map .name := by
  rw [Path.collapse_components P.isAbsolute_path, Place.moves_path h, Place.along_names,
    List.nil_append]

/-! ## Places of paths -/

/-- The name that a component stands for. -/
def Path.Component.name? : Component → Option String
  | .name s => some (String.ofList s)
  | _ => none

/-- The names of a path. -/
def Path.place (p : Path) : Place := p.components.filterMap Component.name?

theorem Place.filterMap_names (P : Place) :
    (P.pieces.map Component.name).filterMap Component.name? = P := by
  induction P with
  | nil => rfl
  | cons s P ih =>
    rw [pieces, List.map_cons, List.map_cons, List.filterMap_cons_some (b := s), ← pieces, ih]
    simp [Component.name?]

theorem Place.place_path {P : Place} (hP : P.Named) : P.path.place = P := by
  rw [Path.place, components_path hP, List.filterMap_cons_none rfl, filterMap_names]

/-- A path that comes first in that of a place has the first of its names, and is absolute if it has
any. -/
theorem Place.place_isPrefix {P : Place} {b : Path} (hP : P.Named)
    (h : P.path.startsWith b = true) : b.place <+: P ∧
      (b.place ≠ [] → b.components = .root :: (Place.pieces b.place).map .name) := by
  rw [Path.startsWith, List.isPrefixOf_iff_prefix, components_path hP] at h
  rcases hb : b.components with _ | ⟨c, cs⟩
  · simp [Path.place, hb]
  · rw [hb, List.cons_prefix_cons] at h
    obtain ⟨rfl, hcs⟩ := h
    have hnames : cs = (Place.pieces (P.take cs.length)).map .name := by
      rw [List.prefix_iff_eq_take] at hcs
      rw [pieces, List.map_take, List.map_take]
      exact hcs
    have hplace : b.place = P.take cs.length := by
      rw [Path.place, hb, List.filterMap_cons_none rfl, hnames, filterMap_names]
      simp [pieces]
    rw [hplace]
    refine ⟨?_, fun _ => by rw [← hnames]⟩
    exact List.take_prefix _ _

theorem Place.startsWith_path_iff {P Q : Place} (hP : P.Named) (hQ : Q.Named) :
    P.path.startsWith Q.path = true ↔ Q <+: P := by
  refine ⟨fun h => ?_, startsWith_path hP⟩
  rw [← place_path hQ]
  exact (place_isPrefix hP h).1

/-- The names of a path come after the component that says where it begins. -/
theorem Path.place_eq (p : Path) : p.place = p.moves.filterMap Component.name? := by
  obtain ⟨start, hcomponents, hstart⟩ := p.exists_components
  rw [place, hcomponents, List.filterMap_append, List.filterMap_eq_nil_iff.mpr, List.nil_append]
  intro c hc
  rcases hstart c hc with rfl | rfl <;> rfl

/-- A relative path adds its names. -/
theorem Path.place_join {p q : Path} (h : q.isAbsolute = false) :
    (p.join q).place = p.place ++ q.place := by
  rw [place_eq, moves_join h, List.filterMap_append, ← place_eq, ← place_eq]

/-- A relative path adds its names to those of a place. -/
theorem Place.place_join {P : Place} {p : Path} (hP : P.Named) (h : p.isAbsolute = false) :
    (P.path.join p).place = P ++ p.place := by
  rw [Path.place_join h, place_path hP]

/-- Components that go up nowhere add their names. -/
theorem Place.along_eq_append {P : Place} {cs : List Component} (h : .up ∉ cs) :
    P.along cs = P ++ cs.filterMap Component.name? := by
  induction cs generalizing P with
  | nil => simp [along]
  | cons c cs ih =>
    rw [List.mem_cons, not_or] at h
    cases c with
    | up => exact absurd rfl h.1
    | root | here => exact ih h.2
    | name s =>
      have hs : Component.name? (.name s) = some (String.ofList s) := rfl
      rw [along, ih h.2, List.filterMap_cons_some hs, List.append_assoc, List.singleton_append]

/-- Components lead to no names but their own and those from which they go on. -/
theorem Place.mem_of_mem_along {P : Place} {cs : List Component} {s : String}
    (h : s ∈ P.along cs) : s ∈ P ∨ s ∈ cs.filterMap Component.name? := by
  induction cs generalizing P with
  | nil => exact .inl h
  | cons c cs ih =>
    cases c with
    | root | here => exact ih h
    | up => exact (ih h).imp_left fun hs => List.dropLast_subset P hs
    | name t =>
      have ht : Component.name? (.name t) = some (String.ofList t) := rfl
      rw [List.filterMap_cons_some ht, List.mem_cons, ← or_assoc]
      exact (ih h).imp_left fun hs => by simpa using hs

/-! ## Steps of places -/

namespace Disk

variable {P : Place}

theorem pieceStep_of_name {cs : List Char} (h : Path.IsName cs) :
    pieceStep cs = some (.name (String.ofList cs)) := by
  unfold pieceStep
  split
  · exact absurd rfl h.ne_nil
  · exact absurd rfl h.ne_here
  · exact absurd rfl h.ne_up
  · rfl

/-- The steps of the path of a place are its names. -/
theorem steps_path (h : P.Named) (hne : P ≠ []) : steps P.path = P.map .name := by
  have hpieces : ∀ ps : List (List Char), (∀ s ∈ ps, Path.IsName s) →
      ps.filterMap pieceStep = ps.map fun s => .name (String.ofList s) := by
    intro ps hps
    induction ps with
    | nil => rfl
    | cons s ps ih =>
      rw [List.filterMap_cons_some (pieceStep_of_name (hps s (by simp))),
        ih fun t ht => hps t (by simp [ht]), List.map_cons]
  rw [steps, if_neg (Place.getLast?_toList_path h hne), Place.toList_path, Text.split,
    if_pos rfl, Place.split_joinWith_pieces h hne, List.filterMap_cons_none rfl,
    hpieces _ h.pieces, Place.pieces, List.map_map, List.append_nil]
  simp

theorem steps_root : steps (Place.path []) = [.here] := rfl

/-- Every name among the steps of a path can be the name of an entry. -/
theorem isName_of_mem_steps {p : Path} {s : String} (h : .name s ∈ steps p) :
    Path.IsName s.toList := by
  rcases List.mem_append.mp h with h | h
  · obtain ⟨cs, hcs, hstep⟩ := List.mem_filterMap.mp h
    unfold pieceStep at hstep
    split at hstep
    · cases hstep
    · cases hstep
    · cases hstep
    · next hnil hhere hup =>
      obtain rfl := Step.name.inj (Option.some.inj hstep)
      rw [String.toList_ofList]
      exact ⟨hnil, hhere, hup, Text.not_mem_of_mem_split hcs⟩
  · split at h
    · exact absurd (List.mem_singleton.mp h) (by simp)
    · exact absurd h List.not_mem_nil

end Disk

end StagedCodegen