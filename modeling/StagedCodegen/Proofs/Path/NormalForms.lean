import StagedCodegen.Proofs.Disk.Locations

/-!
# Normal forms of paths

What is left of a path once every `.` is dropped and every `..` is taken against the name before it.
The components so far are a stack, and the next one is compared with the top of it only. The
invariant is `Path.Collapsed`: names lie on goes up, and these on the ground; for an absolute path,
names lie on the root. One component keeps it (`Collapsed.step`), so all do (`Collapsed.foldl`),
and a stack that has this shape is its own normal form (`Collapsed.foldl_self`).

Nothing is lost on the way into the text and back (`Collapsed.components_ofComponents`), so what
follows a path depends on that stack alone (`residue_join`, `residue_normalize`).

Main statement: `normalize_is_normal`.
-/

namespace StagedCodegen

open StagedCodegen.Path (Component pieceComponents)

namespace Path

variable {stack cs : List Component} {c : Component} {p q : Path}

/-! ## Steps after the start -/

/-- A component that can stand after the start of a path: it goes up, or it is a name. -/
def IsMove (c : Component) : Prop := c = .up ∨ ∃ s, c = .name s ∧ IsName s

theorem IsMove.ne_root (h : IsMove c) : c ≠ .root := by
  rcases h with rfl | ⟨s, rfl, -⟩ <;> simp

theorem IsMove.ne_here (h : IsMove c) : c ≠ .here := by
  rcases h with rfl | ⟨s, rfl, -⟩ <;> simp

theorem IsMove.text_ne_nil (h : IsMove c) : c.text ≠ [] := by
  rcases h with rfl | ⟨s, rfl, hs⟩
  · exact List.cons_ne_nil _ _
  · exact hs.ne_nil

theorem IsMove.text_ne_here (h : IsMove c) : c.text ≠ ['.'] := by
  rcases h with rfl | ⟨s, rfl, hs⟩
  · simp [Component.text]
  · exact hs.ne_here

theorem IsMove.slash_notMem (h : IsMove c) : '/' ∉ c.text := by
  rcases h with rfl | ⟨s, rfl, hs⟩
  · simp [Component.text]
  · exact hs.slash_notMem

theorem IsMove.pieceComponent_text (h : IsMove c) : pieceComponent c.text = some c := by
  rcases h with rfl | ⟨s, rfl, hs⟩
  · rfl
  · exact hs.pieceComponent

theorem pieceComponents_texts (h : ∀ c ∈ cs, IsMove c) :
    pieceComponents (cs.map Component.text) = cs := by
  induction cs with
  | nil => rfl
  | cons c cs ih =>
    rw [List.map_cons, pieceComponents,
      List.filterMap_cons_some (h c List.mem_cons_self).pieceComponent_text, ← pieceComponents,
      ih fun d hd => h d (List.mem_cons_of_mem c hd)]

/-! ## The text of components -/

/-- The components with a slash between each two. -/
def slashed (cs : List Component) : List Char := Text.joinWith ['/'] (cs.map Component.text)

theorem slashed_concat (hcs : cs ≠ []) (c : Component) :
    slashed (cs ++ [c]) = slashed cs ++ '/' :: c.text := by
  rw [slashed, List.map_append, List.map_singleton, Text.joinWith_concat (by simpa using hcs)]
  rfl

/-- The text of components is not empty and does not end in a slash. -/
theorem exists_getLast?_slashed (hcs : cs ≠ []) (h : ∀ c ∈ cs, IsMove c) :
    ∃ b, (slashed cs).getLast? = some b ∧ b ≠ '/' := by
  obtain ⟨cs, c, rfl⟩ := (List.eq_nil_or_concat' cs).resolve_left hcs
  have hc : IsMove c := h c (by simp)
  obtain ⟨b, hb⟩ := Option.isSome_iff_exists.mp (List.getLast?_isSome.mpr hc.text_ne_nil)
  have hlast : (slashed (cs ++ [c])).getLast? = some b := by
    by_cases hnil : cs = []
    · rw [hnil]
      exact hb
    · rw [slashed_concat hnil, List.getLast?_append_of_ne_nil _ (List.cons_ne_nil _ _),
        List.getLast?_cons_of_ne_nil hc.text_ne_nil, hb]
  refine ⟨b, hlast, ?_⟩
  rintro rfl
  exact hc.slash_notMem (List.mem_of_getLast? hb)

/-- Components are written after a start, which is nothing or ends in a slash. -/
theorem foldl_glue {start : List Char} (hstart : start = [] ∨ start.getLast? = some '/')
    (h : ∀ c ∈ cs, IsMove c) :
    cs.foldl (fun acc c => if c = .root then ['/'] else glue acc c.text) start =
      start ++ slashed cs := by
  induction cs using List.reverseRecOn with
  | nil => simp [slashed, Text.joinWith]
  | append_singleton cs c ih =>
    have hcs : ∀ c ∈ cs, IsMove c := fun d hd => h d (List.mem_append_left _ hd)
    have hc : IsMove c := h c (by simp)
    rw [List.foldl_append, ih hcs, List.foldl_cons, List.foldl_nil, if_neg hc.ne_root, glue]
    by_cases hnil : cs = []
    · subst hnil
      rw [if_pos (by simpa [slashed, Text.joinWith] using hstart)]
      simp [slashed, Text.joinWith]
    · obtain ⟨b, hb, hslash⟩ := exists_getLast?_slashed hnil hcs
      have hlast : (start ++ slashed cs).getLast? = some b := by
        rw [List.getLast?_append, hb]
        rfl
      have hne : start ++ slashed cs ≠ [] := List.getLast?_isSome.mp (by rw [hlast]; rfl)
      rw [if_neg (not_or.mpr ⟨hne, by simpa [hlast] using hslash⟩), slashed_concat hnil,
        List.append_assoc]

theorem split_slashed (hcs : cs ≠ []) (h : ∀ c ∈ cs, IsMove c) :
    Text.split '/' (slashed cs) = cs.map Component.text := by
  refine Text.split_joinWith (by simpa using hcs) fun t ht => ?_
  obtain ⟨c, hc, rfl⟩ := List.mem_map.mp ht
  exact (h c hc).slash_notMem

theorem pieceComponents_split_slashed (h : ∀ c ∈ cs, IsMove c) :
    pieceComponents (Text.split '/' (slashed cs)) = cs := by
  by_cases hcs : cs = []
  · subst hcs
    rfl
  · rw [split_slashed hcs h, pieceComponents_texts h]

/-- A path has nothing before its moves if its first piece is a name or goes up. -/
theorem components_of_split {t : List Char} {ps : List (List Char)}
    (h : Text.split '/' p.text.toList = t :: ps) (hnil : t ≠ []) (hhere : t ≠ ['.']) :
    p.components = p.moves := by
  rw [components, moves]
  unfold parse
  split
  · next cs htext =>
    rw [htext, Text.split, if_pos rfl] at h
    exact absurd (List.cons.inj h).1.symm hnil
  · split
    · next ps' hsplit => exact absurd (List.cons.inj (h.symm.trans hsplit)).1 hhere
    · rfl

theorem components_ofComponents (h : ∀ c ∈ cs, IsMove c) : (ofComponents cs).components = cs := by
  have htext : (ofComponents cs).text.toList = slashed cs := by
    rw [ofComponents, String.toList_ofList, foldl_glue (.inl rfl) h, List.nil_append]
  have hmoves : (ofComponents cs).moves = cs := by
    rw [moves, htext, pieceComponents_split_slashed h]
  rcases cs with _ | ⟨c, cs⟩
  · rfl
  · have hc : IsMove c := h c List.mem_cons_self
    have hsplit : Text.split '/' (ofComponents (c :: cs)).text.toList =
        c.text :: cs.map Component.text := by
      rw [htext, split_slashed (List.cons_ne_nil c cs) h, List.map_cons]
    rw [components_of_split hsplit hc.text_ne_nil hc.text_ne_here, hmoves]

theorem components_ofComponents_root (h : ∀ c ∈ cs, IsMove c) :
    (ofComponents (.root :: cs)).components = .root :: cs := by
  have htext : (ofComponents (.root :: cs)).text.toList = '/' :: slashed cs := by
    rw [ofComponents, String.toList_ofList, List.foldl_cons, if_pos rfl, foldl_glue (.inr rfl) h]
    rfl
  have habsolute : (ofComponents (.root :: cs)).isAbsolute = true := by simp [isAbsolute, htext]
  rw [components_of_isAbsolute habsolute, moves, htext, Text.split, if_pos rfl]
  exact congrArg (Component.root :: ·) (pieceComponents_split_slashed h)

/-! ## Collapsed stacks -/

/-- A stack of components in normal form, last to first: names, and below them steps up or the
root. -/
inductive Collapsed : List Component → Prop
  /-- Nothing yet. -/
  | nil : Collapsed []
  /-- The start of an absolute path. -/
  | root : Collapsed [.root]
  /-- A step up, with nothing but steps up below it. -/
  | up {stack : List Component} (ups : ∀ c ∈ stack, c = .up) (below : Collapsed stack) :
    Collapsed (.up :: stack)
  /-- A name. -/
  | name {s : List Char} {stack : List Component} (isName : IsName s) (below : Collapsed stack) :
    Collapsed (.name s :: stack)

theorem collapseStep_name (stack : List Component) (s : List Char) :
    collapseStep stack (.name s) = .name s :: stack := by
  cases stack <;> rfl

theorem collapseStep_up_of_ups (h : ∀ c ∈ stack, c = .up) :
    collapseStep stack .up = .up :: stack := by
  rcases stack with _ | ⟨c, stack⟩
  · rfl
  · obtain rfl := h c List.mem_cons_self
    rfl

theorem root_mem_collapseStep_iff (hc : IsMove c) :
    .root ∈ collapseStep stack c ↔ .root ∈ stack := by
  rcases hc with rfl | ⟨s, rfl, -⟩
  · rcases stack with _ | ⟨d, stack⟩
    · simp [collapseStep]
    · cases d <;> simp [collapseStep]
  · simp [collapseStep_name]

theorem root_mem_foldl_iff (hcs : ∀ c ∈ cs, IsMove c) :
    .root ∈ cs.foldl collapseStep stack ↔ .root ∈ stack := by
  induction cs generalizing stack with
  | nil => rfl
  | cons c cs ih =>
    rw [List.foldl_cons, ih fun d hd => hcs d (List.mem_cons_of_mem c hd),
      root_mem_collapseStep_iff (hcs c List.mem_cons_self)]

namespace Collapsed

/-- One component more. -/
theorem step (h : Collapsed stack) (hc : IsMove c) : Collapsed (collapseStep stack c) := by
  rcases hc with rfl | ⟨s, rfl, hs⟩
  · cases h with
    | nil => exact .up (by simp) .nil
    | root => exact .root
    | up ups below => exact .up (by simpa using ups) (.up ups below)
    | name _ below => exact below
  · rw [collapseStep_name]
    exact .name hs h

theorem foldl (h : Collapsed stack) (hcs : ∀ c ∈ cs, IsMove c) :
    Collapsed (cs.foldl collapseStep stack) := by
  induction cs generalizing stack with
  | nil => exact h
  | cons c cs ih =>
    exact ih (h.step (hcs c List.mem_cons_self)) fun d hd => hcs d (List.mem_cons_of_mem c hd)

/-- A collapsed stack is its own normal form. -/
theorem foldl_self (h : Collapsed stack) : stack.reverse.foldl collapseStep [] = stack := by
  induction h with
  | nil | root => rfl
  | up ups _ ih =>
    rw [List.reverse_cons, List.foldl_append, ih, List.foldl_cons, List.foldl_nil,
      collapseStep_up_of_ups ups]
  | name _ _ ih =>
    rw [List.reverse_cons, List.foldl_append, ih, List.foldl_cons, List.foldl_nil,
      collapseStep_name]

/-- From the bottom up, a collapsed stack has moves only, but for a root at the bottom. -/
theorem isMove (h : Collapsed stack) : (∀ c ∈ stack.reverse, IsMove c) ∨
    ∃ cs, stack.reverse = .root :: cs ∧ ∀ c ∈ cs, IsMove c := by
  induction h with
  | nil => exact .inl (by simp)
  | root => exact .inr ⟨[], rfl, by simp⟩
  | up ups _ _ =>
    refine .inl fun c hc => .inl ?_
    rw [List.mem_reverse, List.mem_cons] at hc
    exact hc.elim id (ups c)
  | @name s stack hs _ ih =>
    have hname : IsMove (.name s) := .inr ⟨s, rfl, hs⟩
    rw [List.reverse_cons]
    rcases ih with ih | ⟨cs, hcs, ih⟩
    · exact .inl (List.forall_mem_append.mpr ⟨ih, by simpa using hname⟩)
    · exact .inr ⟨cs ++ [.name s], by rw [hcs, List.cons_append],
        List.forall_mem_append.mpr ⟨ih, by simpa using hname⟩⟩

/-- A path that is written with the components of a collapsed stack has just these. -/
theorem components_ofComponents (h : Collapsed stack) :
    (ofComponents stack.reverse).components = stack.reverse := by
  rcases h.isMove with hmoves | ⟨cs, hcs, hmoves⟩
  · exact Path.components_ofComponents hmoves
  · rw [hcs, components_ofComponents_root hmoves]

theorem of_append {above : List Component} (h : Collapsed (above ++ stack)) : Collapsed stack := by
  induction above with
  | nil => exact h
  | cons c above ih =>
    rw [List.cons_append] at h
    generalize hrest : above ++ stack = rest at h
    cases h with
    | root =>
      rw [(List.append_eq_nil_iff.mp hrest).2]
      exact .nil
    | up _ below | name _ below => exact ih (hrest ▸ below)

/-- Below a step up there is nothing but steps up. -/
theorem ups_of_append {above : List Component} (h : Collapsed (above ++ .up :: stack)) :
    ∀ c ∈ stack, c = .up := by
  cases h.of_append with
  | up ups _ => exact ups

end Collapsed

/-! ## Where a stack leads -/

section Along

variable {P : Place}

/-- A component leads from where the stack leads to where the stack with that component does. From
the root a step up leads nowhere else. -/
theorem Collapsed.along_step (h : Collapsed stack) (hroot : .root ∈ stack → P = [])
    (hc : IsMove c) :
    P.along (collapseStep stack c).reverse = (P.along stack.reverse).along [c] := by
  rcases hc with rfl | ⟨s, rfl, -⟩
  · cases h with
    | nil => rfl
    | root =>
      rw [hroot List.mem_cons_self]
      rfl
    | up ups _ =>
      rw [← Place.along_append, ← List.reverse_cons]
      rfl
    | @name s stack _ _ =>
      rw [List.reverse_cons, Place.along_append]
      simp [collapseStep, Place.along]
  · rw [collapseStep_name, List.reverse_cons, Place.along_append]

theorem Collapsed.along_foldl (h : Collapsed stack) (hroot : .root ∈ stack → P = [])
    (hcs : ∀ c ∈ cs, IsMove c) :
    P.along (cs.foldl collapseStep stack).reverse = (P.along stack.reverse).along cs := by
  induction cs generalizing stack with
  | nil => rfl
  | cons c cs ih =>
    have hc : IsMove c := hcs c List.mem_cons_self
    have hstep : .root ∈ collapseStep stack c → P = [] := fun hmem =>
      hroot ((root_mem_collapseStep_iff hc).mp hmem)
    rw [List.foldl_cons, ih (h.step hc) hstep fun d hd => hcs d (List.mem_cons_of_mem c hd),
      h.along_step hroot hc, ← Place.along_append, List.singleton_append]

end Along

/-! ## What is left of a path -/

/-- What is left of a path: the components of its normal form, last to first. -/
def residue (p : Path) : List Component := p.components.foldl collapseStep []

/-- What lies on a stack before the first move of the path. -/
def ground (p : Path) : List Component := if p.isAbsolute then [.root] else []

theorem collapsed_ground (p : Path) : Collapsed p.ground := by
  rw [ground]
  split
  · exact .root
  · exact .nil

theorem root_mem_ground_iff : .root ∈ p.ground ↔ p.isAbsolute = true := by
  rw [ground]
  split <;> simp_all

theorem isMove_of_mem_moves (p : Path) : ∀ c ∈ p.moves, IsMove c := fun _ => eq_of_mem_moves

/-- What stands before the moves of a relative path is dropped. -/
theorem components_of_relative (h : p.isAbsolute = false) :
    p.components = p.moves ∨ p.components = .here :: p.moves := by
  rw [components, moves]
  unfold parse
  split
  · next cs htext => simp [isAbsolute, htext] at h
  · split
    · next ps hsplit =>
      rw [hsplit]
      exact .inr rfl
    · exact .inl rfl

theorem residue_eq (p : Path) : p.residue = p.moves.foldl collapseStep p.ground := by
  rw [residue, ground]
  split
  · next h =>
    rw [components_of_isAbsolute h]
    rfl
  · next h =>
    rcases components_of_relative (Bool.not_eq_true _ ▸ h) with heq | heq
    · rw [heq]
    · rw [heq]
      rfl

theorem collapsed_residue (p : Path) : Collapsed p.residue := by
  rw [residue_eq]
  exact p.collapsed_ground.foldl p.isMove_of_mem_moves

theorem components_normalize (p : Path) : p.normalize.components = p.residue.reverse :=
  p.collapsed_residue.components_ofComponents

/-- As much is left of the normal form of a path as of the path. -/
theorem residue_normalize (p : Path) : p.normalize.residue = p.residue := by
  rw [residue, components_normalize, p.collapsed_residue.foldl_self]

/-- A relative path goes on from what is left of the path before it. -/
theorem residue_join (h : q.isAbsolute = false) :
    (p.join q).residue = q.moves.foldl collapseStep p.residue := by
  rw [residue_eq, moves_join h, List.foldl_append, ground, isAbsolute_join h, ← ground,
    ← residue_eq]

theorem normalize_eq_of_residue (h : p.residue = q.residue) : p.normalize = q.normalize :=
  congrArg (fun left : List Component => ofComponents left.reverse) h

theorem isAbsolute_iff_root_mem : p.isAbsolute = true ↔ .root ∈ p.components := by
  constructor
  · intro h
    rw [components_of_isAbsolute h]
    exact List.mem_cons_self
  · intro hroot
    by_contra h
    rcases components_of_relative (Bool.not_eq_true _ ▸ h) with heq | heq
    · exact p.root_notMem_moves (heq ▸ hroot)
    · exact p.root_notMem_moves (by simpa [heq] using hroot)

theorem isAbsolute_normalize (p : Path) : p.normalize.isAbsolute = p.isAbsolute := by
  rw [Bool.eq_iff_iff, isAbsolute_iff_root_mem, components_normalize, List.mem_reverse, residue_eq,
    root_mem_foldl_iff p.isMove_of_mem_moves, root_mem_ground_iff]

theorem along_components (P : Place) (p : Path) : P.along p.components = P.along p.moves := by
  by_cases h : p.isAbsolute = true
  · rw [components_of_isAbsolute h]
    rfl
  · rcases components_of_relative (Bool.not_eq_true _ ▸ h) with heq | heq
    · rw [heq]
    · rw [heq]
      rfl

/-! ## Normal forms -/

/-- A path in normal form: it has no `.`, and `..` only at the start and not in an absolute path. -/
structure IsNormal (p : Path) : Prop where
  /-- Nowhere does it stay where it is. -/
  here_notMem : .here ∉ p.components
  /-- Before a step up there are only steps up. -/
  up_leads : ∀ before after, p.components = before ++ .up :: after → ∀ c ∈ before, c = .up
  /-- From the root it does not go up. -/
  up_notMem : p.isAbsolute = true → .up ∉ p.components

theorem isNormal_normalize (p : Path) : p.normalize.IsNormal := by
  have hleads : ∀ before after, p.normalize.components = before ++ .up :: after →
      ∀ c ∈ before, c = .up := by
    intro before after hsplit c hc
    have hstack : p.residue = after.reverse ++ .up :: before.reverse := by
      rw [← List.reverse_reverse p.residue, ← components_normalize, hsplit]
      simp
    exact (hstack ▸ p.collapsed_residue).ups_of_append c (List.mem_reverse.mpr hc)
  refine ⟨?_, hleads, fun habsolute hup => ?_⟩
  · rw [components_normalize]
    rcases p.collapsed_residue.isMove with hmoves | ⟨cs, hcs, hmoves⟩
    · exact fun hhere => (hmoves _ hhere).ne_here rfl
    · rw [hcs, List.mem_cons, not_or]
      exact ⟨by simp, fun hhere => (hmoves _ hhere).ne_here rfl⟩
  · -- the root would stand before the step up
    obtain ⟨before, after, hsplit⟩ := List.append_of_mem hup
    have hroot := components_of_isAbsolute habsolute
    rcases before with _ | ⟨c, before⟩
    · cases hroot.symm.trans hsplit
    · obtain rfl := (List.cons.inj (hroot.symm.trans hsplit)).1
      cases hleads _ after hsplit .root List.mem_cons_self

/-- **Normal forms of paths.** The normal form of a path has no `.`, it has `..` only at the start
of a relative path, and it is absolute if the path is. It is its own normal form, a path that is
joined to it leads on as it does from the path itself, and without links both lead to the same
place. -/
theorem normalize_is_normal (p q : Path) :
    (p.normalize.IsNormal ∧ p.normalize.isAbsolute = p.isAbsolute) ∧
    p.normalize.normalize = p.normalize ∧
    (p.join q).normalize = (p.normalize.join q).normalize ∧
    ∀ d : Disk, (d.base p.normalize).along p.normalize.moves = (d.base p).along p.moves := by
  refine ⟨⟨p.isNormal_normalize, p.isAbsolute_normalize⟩,
    normalize_eq_of_residue p.residue_normalize, ?_, fun d => ?_⟩
  · by_cases hq : q.isAbsolute = true
    · rw [join, if_pos hq, join, if_pos hq]
    · rw [Bool.not_eq_true] at hq
      exact normalize_eq_of_residue (by rw [residue_join hq, residue_join hq, residue_normalize])
  · have hbase : d.base p.normalize = d.base p := by
      rw [Disk.base, isAbsolute_normalize, Disk.base]
    have hground : .root ∈ p.ground → d.base p = [] := fun hroot => by
      rw [Disk.base, if_pos (root_mem_ground_iff.mp hroot)]
    have hstart : (d.base p).along p.ground.reverse = d.base p := by
      rw [ground]
      split <;> rfl
    rw [hbase, ← along_components, components_normalize, residue_eq,
      p.collapsed_ground.along_foldl hground p.isMove_of_mem_moves, hstart]

/-- A step up goes past the name before it, and stays when there is none. -/
example : (⟨"a/./../../b/"⟩ : Path).normalize = ⟨"../b"⟩ ∧
    (⟨"//../b/.."⟩ : Path).normalize = ⟨"/"⟩ := by cbv

end Path

end StagedCodegen
