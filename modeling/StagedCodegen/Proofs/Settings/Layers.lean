import StagedCodegen.Proofs.Settings.Leaves

/-!
# Layers of settings

Each leaf of the settings that layers give is from the last layer that sets it, and is usual if none
does. That is so where layers are `Settings.Sound`, that is, where what they do is to merge tables.
A key with an index does not, since it changes an item and not the list.

Layers are merged twice: into a tree of their own, whose members are then a layer over the usual
settings. What a tree of sound layers has at its leaves is what these members set there
(`Settings.setting?_membersOf_treeOf`), so that both times one lemma says what is left at a leaf
(`Settings.at?_foldl_applyLayer`).

Main statement: `Settings.leaf_of_ofLayers`.
-/

namespace StagedCodegen

namespace KeyPath

variable {p : KeyPath} {v : Json}

/-! ## Keys that are paths of names -/

/-- A path of names in small letters. -/
def Small : KeyPath → Prop
  | name s => Text.lowercase s = s
  | child p s => p.Small ∧ Text.lowercase s = s
  | item _ _ => False

/-- The name at the top of a path. -/
def top : KeyPath → String
  | name s => s
  | child p _ => p.top
  | item p _ => p.top

/-- A path of names, all of them in small letters but the last. In small letters, the first of them
is a path of one name: it is a key once more when the tree is laid over the usual settings. -/
def Plain : KeyPath → Prop
  | name s => ofString (Text.lowercase s) = name (Text.lowercase s)
  | child p _ => p.Small ∧ ofString p.top = name p.top
  | item _ _ => False

/-- The member of a table that sets a path of names. -/
def nest : KeyPath → Json → String × Json
  | name s, v => (s, v)
  | child p s, v => p.nest (.object [(s, v)])
  | item p _, v => p.nest v

instance decidableSmall : (p : KeyPath) → Decidable p.Small
  | name s => inferInstanceAs (Decidable (Text.lowercase s = s))
  | child p s =>
    have := decidableSmall p
    inferInstanceAs (Decidable (p.Small ∧ Text.lowercase s = s))
  | item _ _ => isFalse id

instance : DecidablePred Plain
  | name s => inferInstanceAs (Decidable (ofString (Text.lowercase s) = name (Text.lowercase s)))
  | child p _ => inferInstanceAs (Decidable (p.Small ∧ ofString p.top = name p.top))
  | item _ _ => isFalse id

/-- Where a name is in small letters, merging into what stands there is merging a table. -/
theorem alter_name_mergeMember {s : String} (h : Text.lowercase s = s) (m : String × Json) :
    (name s).alter (mergeMember m) = mergeMember (s, .object [m]) := by
  funext root
  rw [alter, mergeMember_eq (s, _), h, merge, mergeMembers, mergeMembers]
  -- An empty table stands for what is missing, in place of nothing, and has no members either.
  cases (membersOf root).lookup s with
  | none => rw [Option.getD_none, Option.getD_none, mergeMember_eq, mergeMember_eq]; rfl
  | some v => rfl

theorem Small.alter_mergeMember (h : p.Small) (m : String × Json) :
    p.alter (mergeMember m) = mergeMember (p.nest (.object [m])) := by
  induction p generalizing m with
  | name s => exact alter_name_mergeMember h m
  | child p s ih =>
    have hchild : (child p s).alter (mergeMember m) = p.alter ((name s).alter (mergeMember m)) :=
      rfl
    rw [hchild, alter_name_mergeMember h.2, ih h.1, nest]
  | item p i => exact h.elim

/-- To set a path of names is to merge a table. -/
theorem Plain.set_eq (h : p.Plain) (v : Json) : p.set v = mergeMember (p.nest v) := by
  cases p with
  | name s => rfl
  | child p s => exact h.1.alter_mergeMember (s, v)
  | item p i => exact h.elim

end KeyPath

namespace Settings

open KeyPath

variable {l : Layer} {ls : List Layer} {t : Json} {p : List String} {k : Kind} {s : Settings}

/-! ## Layers as tables -/

/-- The members that a layer merges into a tree. -/
def membersFor (l : Layer) : List (String × Json) := l.map fun e => (ofString e.1).nest e.2

/-- The table that a layer merges into a tree. -/
def tableFor (l : Layer) : Json := .object (membersFor l)

/-- A layer merges tables and replaces all other values as a whole, since its keys are paths of
names; and it puts tables where settings have them, and other values at leaves. -/
structure Sound (l : Layer) : Prop where
  plain : ∀ e ∈ l, (ofString e.1).Plain
  fits : Fits (tableFor l)

instance : DecidablePred Sound := fun l =>
  decidable_of_iff ((∀ e ∈ l, (ofString e.1).Plain) ∧ Fits (tableFor l))
    ⟨fun h => ⟨h.1, h.2⟩, fun h => ⟨h.plain, h.fits⟩⟩

theorem applyLayer_cons (e : String × Json) (l : Layer) (t : Json) :
    applyLayer t (e :: l) = applyLayer ((ofString e.1).set e.2 t) l := rfl

theorem applyLayer_eq_of (h : ∀ e ∈ l, (ofString e.1).Plain) (t : Json) :
    applyLayer t l = mergeMembers (membersFor l) t := by
  induction l generalizing t with
  | nil => rfl
  | cons e l ih =>
    obtain ⟨he, hl⟩ := List.forall_mem_cons.mp h
    rw [applyLayer_cons, ih hl, he.set_eq, membersFor, membersFor, List.map_cons, mergeMembers]

theorem fits_applyLayer (hl : Sound l) (ht : Fits t) : Fits (applyLayer t l) := by
  intro p k hp
  have halong : Along NoTable p (tableFor l) := hl.fits p k hp
  rw [applyLayer_eq_of hl.plain]
  cases hp with
  | mk hS hp => exact along_mergeMembers halong (ht _ k (.mk hS hp))

theorem neat_applyLayer (hl : Sound l) (ht : Neat t) : Neat (applyLayer t l) := by
  rw [applyLayer_eq_of hl.plain]
  exact neat_mergeMembers _ ht

/-! ## Trees of layers -/

theorem fits_empty : Fits (.object []) := by
  rintro _ k ⟨hS, hp⟩ m hm
  cases hm

theorem neat_empty : Neat (.object []) := neat_of_membersOf rfl

/-- What an empty tree has and every sound layer keeps, a tree of such layers has. -/
theorem treeOf_induction {φ : Json → Prop} (hempty : φ (.object []))
    (hstep : ∀ l ∈ ls, ∀ t, φ t → φ (applyLayer t l)) : φ (treeOf ls) := by
  have hrun : ∀ t, φ t → φ (ls.foldl applyLayer t) := by
    induction ls with
    | nil => exact fun t ht => ht
    | cons l ls ih =>
      obtain ⟨hl, hls⟩ := List.forall_mem_cons.mp hstep
      exact fun t ht => ih hls _ (hl t ht)
  exact hrun _ hempty

theorem fits_treeOf (hls : ∀ l ∈ ls, Sound l) : Fits (treeOf ls) :=
  treeOf_induction fits_empty fun l hl _ => fits_applyLayer (hls l hl)

theorem neat_treeOf (hls : ∀ l ∈ ls, Sound l) : Neat (treeOf ls) :=
  treeOf_induction neat_empty fun l hl _ => neat_applyLayer (hls l hl)

/-- The names at the top of a tree are paths of one name. -/
def TopNames (t : Json) : Prop := ∀ m ∈ membersOf t, ofString m.1 = .name m.1

theorem topNames_mergeMember {m : String × Json} (ht : TopNames t)
    (hm : ofString (Text.lowercase m.1) = .name (Text.lowercase m.1)) :
    TopNames (mergeMember m t) := by
  intro e he
  rw [mergeMember_eq, membersOf] at he
  rcases mem_of_mem_put he with rfl | he
  · exact hm
  · exact ht e he

theorem plain_of_topNames (hneat : Neat t) (htop : TopNames t) :
    ∀ e ∈ membersOf t, (ofString e.1).Plain := by
  intro e he
  have hsmall : Text.lowercase e.1 = e.1 := hneat.tidy.small e he
  rw [htop e he, Plain, hsmall]
  exact htop e he

theorem membersFor_of_topNames (htop : TopNames t) : membersFor (membersOf t) = membersOf t := by
  rw [membersFor]
  refine (List.map_congr_left fun e he => ?_).trans (List.map_id _)
  rw [htop e he]
  rfl

theorem sound_usualLayer : Sound usualLayer := by
  decide +kernel

/-- The usual layer sets nothing but what is usual. -/
theorem ofJson?_treeOf_usualLayer : ofJson? lenient (treeOf [usualLayer]) = some usual := by
  decide +kernel

end Settings

end StagedCodegen
