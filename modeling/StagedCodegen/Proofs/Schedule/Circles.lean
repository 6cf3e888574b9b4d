import Mathlib.Data.List.Chain
import Mathlib.Data.List.Nodup
import Mathlib.Logic.Relation
import StagedCodegen.Schedule

/-!
# The search for circles

What the depth first search behind a schedule finds. Two invariants of the search carry this module:

* `OnWay`: the stack is a way along which one key leads to the next, and no key of it is white;
  a child met again on the stack therefore closes a circle.
* `Explored`: a key that is neither white nor on the stack is *settled*, that is, only finitely
  many steps lead on from it; when nothing is white and the stack is empty, all keys are settled.

Main statements: `isCircle_of_circle?`, by which what the search reports is a circle, and
`circle?_eq_none_iff`, by which it misses none.
-/

namespace StagedCodegen

namespace Schedule

variable {next : String → List String} {keys : List String}

/-- One of the given keys leads on to another of them. -/
def Leads (next : String → List String) (keys : List String) (a b : String) : Prop :=
  a ∈ keys ∧ b ∈ keys ∧ b ∈ next a

/-- A walk among the given keys that ends where it began and meets no other key twice. -/
structure IsCircle (next : String → List String) (keys : List String) (walk : List String) :
    Prop where
  /-- It comes back to its first key. -/
  closed : ∃ k between, walk = k :: between ++ [k]
  /-- It meets every key once before it is back. -/
  simple : walk.dropLast.Nodup
  /-- Each of its keys leads to the one after it. -/
  chain : walk.IsChain (Leads next keys)

/-- A circle is a way from one of its keys to that key. -/
theorem IsCircle.transGen {walk : List String} (h : IsCircle next keys walk) :
    ∃ k, Relation.TransGen (Leads next keys) k k := by
  obtain ⟨⟨k, between, rfl⟩, -, hchain⟩ := h
  refine ⟨k, ?_⟩
  rw [List.cons_append] at hchain
  cases between with
  | nil => exact .single (List.isChain_pair.1 hchain)
  | cons b bs =>
    rw [List.cons_append, List.isChain_cons_cons] at hchain
    exact .head' hchain.1 (List.relationReflTransGen_of_exists_isChain_cons _ hchain.2 (by simp))

/-! ## What is reported is a circle -/

/-- The stack of a search, whose keys are a way from its last key to its first. -/
structure OnWay (next : String → List String) (keys white : List String)
    (stack : List (String × List String)) : Prop where
  /-- Nothing is white but what is to be searched. -/
  white_subset : ∀ k ∈ white, k ∈ keys
  /-- Nothing is on the stack but what is to be searched. -/
  stack_subset : ∀ k ∈ stack.map (·.1), k ∈ keys
  /-- No key is on the stack twice. -/
  nodup : (stack.map (·.1)).Nodup
  /-- A key on the stack is not white. -/
  disjoint : ∀ k ∈ stack.map (·.1), k ∉ white
  /-- Each key on the stack is led to by the one below it. -/
  chain : (stack.map (·.1)).IsChain fun a b => Leads next keys b a
  /-- What is still to be visited from a key is led to by it. -/
  pending : ∀ e ∈ stack, ∀ d ∈ e.2, d ∈ next e.1

theorem mem_without {k key : String} {ks : List String} :
    k ∈ without key ks ↔ k ∈ ks ∧ k ≠ key := by
  simp [without]

variable {white rest : List String} {stack : List (String × List String)} {node child : String}

theorem OnWay.start : OnWay next keys keys [] where
  white_subset _ hk := hk
  stack_subset := by simp
  nodup := by simp
  disjoint := by simp
  chain := by simp
  pending := by simp

theorem OnWay.root (h : OnWay next keys (node :: white) []) :
    OnWay next keys (without node white) [(node, next node)] where
  white_subset k hk := h.white_subset k (List.mem_cons_of_mem _ (mem_without.1 hk).1)
  stack_subset := by simpa using h.white_subset node (List.mem_cons_self ..)
  nodup := by simp
  disjoint := by simp [mem_without]
  chain := by simp
  pending := by simp

theorem OnWay.pop (h : OnWay next keys white ((node, rest) :: stack)) :
    OnWay next keys white stack where
  white_subset := h.white_subset
  stack_subset k hk := h.stack_subset k (List.mem_cons_of_mem _ hk)
  nodup := (List.nodup_cons.1 h.nodup).2
  disjoint k hk := h.disjoint k (List.mem_cons_of_mem _ hk)
  chain := (List.isChain_cons.1 h.chain).2
  pending d hd := h.pending d (List.mem_cons_of_mem _ hd)

/-- Passing over a child keeps the way. -/
theorem OnWay.skip (h : OnWay next keys white ((node, child :: rest) :: stack)) :
    OnWay next keys white ((node, rest) :: stack) where
  white_subset := h.white_subset
  stack_subset := h.stack_subset
  nodup := h.nodup
  disjoint := h.disjoint
  chain := h.chain
  pending := by
    intro e he d hd
    rcases List.mem_cons.1 he with rfl | he
    · exact h.pending _ (List.mem_cons_self ..) d (List.mem_cons_of_mem _ hd)
    · exact h.pending e (List.mem_cons_of_mem _ he) d hd

/-- The key on top of the stack leads to its next child. -/
theorem OnWay.leads (h : OnWay next keys white ((node, child :: rest) :: stack))
    (hchild : child ∈ keys) : Leads next keys node child :=
  ⟨h.stack_subset _ (List.mem_cons_self ..), hchild,
    h.pending _ (List.mem_cons_self ..) _ (List.mem_cons_self ..)⟩

/-- A child that is white prolongs the way. -/
theorem OnWay.push (h : OnWay next keys white ((node, child :: rest) :: stack))
    (hwhite : child ∈ white) :
    OnWay next keys (without child white) ((child, next child) :: (node, rest) :: stack) := by
  have hchild : child ∈ keys := h.white_subset child hwhite
  refine ⟨fun k hk => h.white_subset k (mem_without.1 hk).1, ?_, ?_, ?_, ?_, ?_⟩
  · intro k hk
    rcases List.mem_cons.1 hk with rfl | hk
    · exact hchild
    · exact h.stack_subset k hk
  · exact List.nodup_cons.2 ⟨fun hmem => h.disjoint child hmem hwhite, h.nodup⟩
  · intro k hk hk'
    rcases List.mem_cons.1 hk with rfl | hk
    · exact (mem_without.1 hk').2 rfl
    · exact h.disjoint k hk (mem_without.1 hk').1
  · exact List.isChain_cons_cons.2 ⟨h.leads hchild, h.chain⟩
  · intro e he
    rcases List.mem_cons.1 he with rfl | he
    · exact fun _ hd => hd
    · exact h.skip.pending e he

/-- The keys of a stack above one of them are those before it. -/
theorem takeWhile_append_of_mem {ks : List String} (h : child ∈ ks) :
    ∃ below, ks = ks.takeWhile (· ≠ child) ++ child :: below := by
  induction ks with
  | nil => cases h
  | cons k ks ih =>
    by_cases hk : k = child
    · exact ⟨ks, by simp [hk]⟩
    · obtain ⟨below, hbelow⟩ := ih ((List.mem_cons.1 h).resolve_left (Ne.symm hk))
      refine ⟨below, ?_⟩
      rw [List.takeWhile_cons_of_pos (by simpa using hk), List.cons_append, ← hbelow]

/-- A child that is met again on the stack closes a circle. -/
theorem OnWay.isCircle (h : OnWay next keys white ((node, child :: rest) :: stack))
    (hmet : child = node ∨ child ∈ stack.map (·.1)) :
    IsCircle next keys (circle (node :: stack.map (·.1)) child) := by
  have hmem : child ∈ node :: stack.map (·.1) := List.mem_cons.2 hmet
  have hlast : Leads next keys node child := h.leads (h.stack_subset child hmem)
  -- the way is what stands on the stack above the child
  obtain ⟨below, hsplit⟩ := takeWhile_append_of_mem hmem
  set way := (node :: stack.map (·.1)).takeWhile (· ≠ child) with hway
  have hwalk : circle (node :: stack.map (·.1)) child = (way ++ [child]).reverse ++ [child] := by
    simp [circle, hway]
  have hstack : ((node, child :: rest) :: stack).map (·.1) = way ++ child :: below := hsplit
  have hnodup : (way ++ child :: below).Nodup := hstack ▸ h.nodup
  have hchain : (way ++ [child]).IsChain fun a b => Leads next keys b a :=
    (List.isChain_split.1 (hstack ▸ h.chain)).1
  have hhead : (way ++ [child]).head? = some node := by
    have := congrArg List.head? hsplit
    simpa [List.head?_append] using this.symm
  rw [hwalk]
  refine ⟨⟨child, way.reverse, by simp⟩, ?_, ?_⟩
  · rw [List.dropLast_concat, List.nodup_reverse]
    exact hnodup.sublist (by simp)
  · refine List.isChain_append.2 ⟨List.isChain_reverse.2 hchain, List.isChain_singleton _, ?_⟩
    intro a ha b hb
    rw [List.getLast?_reverse, hhead] at ha
    obtain rfl : node = a := by simpa using ha
    obtain rfl : child = b := by simpa using hb
    exact hlast

/-- Whatever the search reports is a circle. -/
theorem isCircle_of_explore {walk : List String} (h : OnWay next keys white stack)
    (hfound : explore next white stack = some walk) : IsCircle next keys walk := by
  -- every step of the search keeps the way; it ends when a child is met on it
  fun_induction explore next white stack with
  | case1 => cases hfound
  | case2 root white ih => exact ih h.root hfound
  | case3 white node stack ih => exact ih h.pop hfound
  | case4 white node child rest stack hwhite ih => exact ih (h.push hwhite) hfound
  | case5 white node child rest stack hwhite hmet =>
    obtain rfl := Option.some.inj hfound
    exact h.isCircle hmet
  | case6 white node child rest stack hwhite hmet ih => exact ih h.skip hfound

theorem isCircle_of_circle? {walk : List String} (h : circle? next keys = some walk) :
    IsCircle next keys walk :=
  isCircle_of_explore .start h

/-! ## No circle is missed -/

/-- Only finitely many steps lead on from a key. -/
def Settled (next : String → List String) (keys : List String) (k : String) : Prop :=
  Acc (fun b a => Leads next keys a b) k

/-- Every child of every key on the stack is still to be visited from there, or settled, or stands
right above that key; `above` is what stands above the stack. -/
def Visited (next : String → List String) (keys : List String) :
    (above : Option String) → List (String × List String) → Prop
  | _, [] => True
  | above, (node, rest) :: stack =>
    (∀ d, Leads next keys node d → d ∈ rest ∨ Settled next keys d ∨ above = some d) ∧
      Visited next keys (some node) stack

/-- A search that has settled every key it is done with. -/
structure Explored (next : String → List String) (keys white : List String)
    (stack : List (String × List String)) : Prop where
  /-- A key is white, on the stack, or settled. -/
  covers : ∀ k ∈ keys, k ∈ white ∨ k ∈ stack.map (·.1) ∨ Settled next keys k
  /-- What was visited from the stack is settled, as far as it is not on the stack itself. -/
  visited : Visited next keys none stack

theorem Explored.start : Explored next keys keys [] where
  covers _ hk := .inl hk
  visited := trivial

theorem Explored.root (h : Explored next keys (node :: white) []) :
    Explored next keys (without node white) [(node, next node)] where
  covers k hk := by
    by_cases hkn : k = node
    · exact .inr (.inl (by simp [hkn]))
    · rcases h.covers k hk with hw | hs | hd
      · exact .inl (mem_without.2 ⟨(List.mem_cons.1 hw).resolve_left hkn, hkn⟩)
      · cases hs
      · exact .inr (.inr hd)
  visited := ⟨fun _ hd => .inl hd.2.2, trivial⟩

/-- A settled key is as good as none above the stack. -/
theorem Visited.of_settled (h : Visited next keys (some node) stack)
    (hnode : Settled next keys node) : Visited next keys none stack := by
  cases stack with
  | nil => trivial
  | cons e stack =>
    refine ⟨fun d hd => ?_, h.2⟩
    rcases h.1 d hd with hr | hs | he
    · exact .inl hr
    · exact .inr (.inl hs)
    · obtain rfl := Option.some.inj he
      exact .inr (.inl hnode)

/-- A key from which nothing is left to be visited is settled. -/
theorem Explored.pop (h : Explored next keys white ((node, []) :: stack)) :
    Explored next keys white stack := by
  have hnode : Settled next keys node := by
    refine Acc.intro node fun d hd => ?_
    -- nothing is left to visit, and nothing stands above the top of the stack
    rcases h.visited.1 d hd with hr | hs | he
    · cases hr
    · exact hs
    · cases he
  refine ⟨fun k hk => ?_, h.visited.2.of_settled hnode⟩
  rcases h.covers k hk with hw | hs | hd
  · exact .inl hw
  · rcases List.mem_cons.1 hs with rfl | hs
    · exact .inr (.inr hnode)
    · exact .inr (.inl hs)
  · exact .inr (.inr hd)

theorem Explored.push (h : Explored next keys white ((node, child :: rest) :: stack)) :
    Explored next keys (without child white) ((child, next child) :: (node, rest) :: stack) := by
  refine ⟨fun k hk => ?_, fun _ hd => .inl hd.2.2, fun d hd => ?_, h.visited.2⟩
  · by_cases hkc : k = child
    · exact .inr (.inl (List.mem_cons.2 (.inl hkc)))
    · rcases h.covers k hk with hw | hs | hd
      · exact .inl (mem_without.2 ⟨hw, hkc⟩)
      · exact .inr (.inl (List.mem_cons_of_mem _ hs))
      · exact .inr (.inr hd)
  · rcases h.visited.1 d hd with hr | hs | he
    · rcases List.mem_cons.1 hr with rfl | hr
      · exact .inr (.inr rfl)
      · exact .inl hr
    · exact .inr (.inl hs)
    · cases he

/-- A child that is neither white nor on the stack may be passed over: it is settled, or no key of
the search at all. -/
theorem Explored.skip (h : Explored next keys white ((node, child :: rest) :: stack))
    (hwhite : child ∉ white) (hmet : ¬(child = node ∨ child ∈ stack.map (·.1))) :
    Explored next keys white ((node, rest) :: stack) := by
  refine ⟨h.covers, fun d hd => ?_, h.visited.2⟩
  rcases h.visited.1 d hd with hr | hs | he
  · rcases List.mem_cons.1 hr with rfl | hr
    · rcases h.covers d hd.2.1 with hw | hs | hs
      · exact absurd hw hwhite
      · exact absurd (List.mem_cons.1 hs) hmet
      · exact .inr (.inl hs)
    · exact .inl hr
  · exact .inr (.inl hs)
  · cases he

/-- A search that reports nothing settles every key. -/
theorem settled_of_explore (h : Explored next keys white stack)
    (hnone : explore next white stack = none) : ∀ k ∈ keys, Settled next keys k := by
  -- at the end no key is white or on the stack, and so the account says that all are settled
  fun_induction explore next white stack with
  | case1 =>
    intro k hk
    rcases h.covers k hk with hw | hs | hd
    · cases hw
    · cases hs
    · exact hd
  | case2 root white ih => exact ih h.root hnone
  | case3 white node stack ih => exact ih h.pop hnone
  | case4 white node child rest stack hwhite ih => exact ih h.push hnone
  | case5 white node child rest stack hwhite hmet => cases hnone
  | case6 white node child rest stack hwhite hmet ih => exact ih (h.skip hwhite hmet) hnone

/-- A settled key does not lead back to itself. -/
theorem Settled.not_transGen {k : String} (h : Settled next keys k) :
    ¬Relation.TransGen (Leads next keys) k k := by
  induction h with
  | intro k _ ih =>
    intro hk
    obtain ⟨b, hkb, hbk⟩ := Relation.TransGen.head'_iff.1 hk
    exact ih b hkb (.tail' hbk hkb)

/-- The search reports nothing exactly when no key leads back to itself. -/
theorem circle?_eq_none_iff :
    circle? next keys = none ↔ ∀ k, ¬Relation.TransGen (Leads next keys) k k := by
  constructor
  · intro h k hk
    obtain ⟨_, hfirst, -⟩ := Relation.TransGen.head'_iff.1 hk
    exact (settled_of_explore .start h k hfirst.1).not_transGen hk
  · intro h
    rcases hc : circle? next keys with _ | walk
    · rfl
    · obtain ⟨k, hk⟩ := (isCircle_of_circle? hc).transGen
      exact absurd hk (h k)

end Schedule

end StagedCodegen
