import StagedCodegen.Proofs.Adapter.Absent
import StagedCodegen.Proofs.Adapter.Threading

/-!
# Which adapters run

Adapters run only if all factories succeed and each adapter has a name of its own, blanks around the
names aside (`Vetted`). Otherwise there is a first objection, in the order of the factories and of
what each of them makes (`Objects`). The run then fails with that objection and tells the user of
it, and what the adapters would have done makes no difference.

Main statement: `adapters_vetted`.
-/

namespace StagedCodegen

open StagedCodegen.Representation (Artifact)

variable {κ : Type}

/-! ## Names -/

namespace Adapter

/-- The names of adapters, without blanks around them. -/
def names (xs : List (Adapter κ)) : List String := xs.map fun x => x.trimmed.name

variable {xs ys : List (Adapter κ)}

theorem names_append : names (xs ++ ys) = names xs ++ names ys := List.map_append

theorem names_trimmed : (xs.map trimmed).map (·.name) = names xs := List.map_map

/-- Each adapter has a name of its own, blanks around the names aside. -/
structure Proper (xs : List (Adapter κ)) : Prop where
  /-- Each has a name. -/
  named : ∀ x ∈ xs, x.trimmed.name ≠ ""
  /-- No two have the same. -/
  distinct : (names xs).Nodup

theorem proper_nil : Proper ([] : List (Adapter κ)) :=
  ⟨fun _ hx => absurd hx List.not_mem_nil, List.nodup_nil⟩

theorem proper_append : Proper (xs ++ ys) ↔
    Proper xs ∧ Proper ys ∧ ∀ y ∈ ys, y.trimmed.name ∉ names xs := by
  constructor
  · rintro ⟨hnamed, hdistinct⟩
    obtain ⟨hxs, hys⟩ := List.forall_mem_append.1 hnamed
    rw [names_append, List.nodup_append] at hdistinct
    obtain ⟨hdistinctxs, hdistinctys, hapart⟩ := hdistinct
    exact ⟨⟨hxs, hdistinctxs⟩, ⟨hys, hdistinctys⟩, fun y hy htaken =>
      hapart _ htaken _ (List.mem_map_of_mem hy) rfl⟩
  · rintro ⟨hxs, hys, hapart⟩
    refine ⟨List.forall_mem_append.2 ⟨hxs.named, hys.named⟩, ?_⟩
    rw [names_append, List.nodup_append]
    refine ⟨hxs.distinct, hys.distinct, fun n hn m hm hnm => ?_⟩
    obtain ⟨y, hy, rfl⟩ := List.mem_map.1 hm
    exact hapart y hy (hnm ▸ hn)

theorem proper_singleton {y : Adapter κ} (hy : y.trimmed.name ≠ "") : Proper [y] :=
  ⟨List.forall_mem_singleton.2 hy, List.nodup_singleton _⟩

/-- Either more adapters are proper as well, or there is a first whose name is missing or taken. -/
theorem Proper.append_or_first (h : Proper xs) (ys : List (Adapter κ)) :
    Proper (xs ++ ys) ∨ ∃ before y after, ys = before ++ y :: after ∧ Proper (xs ++ before) ∧
      (y.trimmed.name = "" ∨ y.trimmed.name ≠ "" ∧ y.trimmed.name ∈ names (xs ++ before)) := by
  induction ys generalizing xs with
  | nil => exact .inl (by rwa [List.append_nil])
  | cons y ys ih =>
    have hxs : Proper (xs ++ []) := by rwa [List.append_nil]
    by_cases hblank : y.trimmed.name = ""
    · exact .inr ⟨[], y, ys, rfl, hxs, .inl hblank⟩
    by_cases htaken : y.trimmed.name ∈ names (xs ++ [])
    · exact .inr ⟨[], y, ys, rfl, hxs, .inr ⟨hblank, htaken⟩⟩
    rw [List.append_nil] at htaken
    have hnext : Proper (xs ++ [y]) :=
      proper_append.2 ⟨h, proper_singleton hblank, List.forall_mem_singleton.2 htaken⟩
    rcases ih hnext with hall | ⟨before, z, after, rfl, hbefore, hz⟩
    · exact .inl (by rwa [List.append_cons])
    · refine .inr ⟨y :: before, z, after, rfl, ?_, ?_⟩ <;> rwa [List.append_cons]

end Adapter

/-! ## Objections -/

/-- What can be wrong with what factories make. -/
inductive Objection where
  /-- The factory with this index fails. -/
  | failed (factory : Nat) (r : Report)
  /-- The factory with this index makes an adapter without a name. -/
  | unnamed (factory : Nat)
  /-- An adapter has the name of an earlier one. -/
  | repeated (name : String)

/-- The failure of a run to which there is an objection. -/
def Objection.failure : Objection → Failure
  | .failed i r => .invalidAdapter ("factory #" ++ toString i ++ " failed: " ++ r.fullText)
  | .unnamed i =>
    .invalidAdapter ("factory #" ++ toString i ++ " produced an extension without a name")
  | .repeated name => .invalidAdapter ("duplicate adapter extension name '" ++ name ++ "'")

/-- All factories succeed and make these adapters, each with a name of its own. Blanks around the
names are cut off. -/
inductive Vetted (a : Artifact) (s : Settings) (w : World κ) :
    List (AdapterFactory κ) → List (Adapter κ) → World κ → Prop where
  /-- The factories make them in turn. -/
  | intro {made : List (AdapterFactory κ × List (Adapter κ))} {v : World κ}
      (makes : InTurn (AdapterFactory.Makes a s) made w v)
      (proper : Adapter.Proper (made.flatMap (·.2))) :
      Vetted a s w (made.map (·.1)) ((made.flatMap (·.2)).map Adapter.trimmed) v

/-- This is the first objection: the factories before it succeed, and the adapters before it are
proper. The factories leave this world. -/
inductive Objects (a : Artifact) (s : Settings) (w : World κ) :
    List (AdapterFactory κ) → Objection → World κ → Prop where
  /-- A factory fails. -/
  | failed {made : List (AdapterFactory κ × List (Adapter κ))} {factory : AdapterFactory κ}
      {later : List (AdapterFactory κ)} {r : Report} {v u : World κ}
      (makes : InTurn (AdapterFactory.Makes a s) made w v)
      (proper : Adapter.Proper (made.flatMap (·.2)))
      (fails : factory a s v = (.error r, u)) :
      Objects a s w (made.map (·.1) ++ factory :: later) (.failed made.length r) u
  /-- An adapter has no name. -/
  | unnamed {made : List (AdapterFactory κ × List (Adapter κ))} {factory : AdapterFactory κ}
      {later : List (AdapterFactory κ)} {before after : List (Adapter κ)} {x : Adapter κ}
      {v u : World κ} (makes : InTurn (AdapterFactory.Makes a s) made w v)
      (produces : factory a s v = (.ok (before ++ x :: after), u))
      (proper : Adapter.Proper (made.flatMap (·.2) ++ before))
      (blank : x.trimmed.name = "") :
      Objects a s w (made.map (·.1) ++ factory :: later) (.unnamed made.length) u
  /-- An adapter has a name that is taken. -/
  | repeated {made : List (AdapterFactory κ × List (Adapter κ))} {factory : AdapterFactory κ}
      {later : List (AdapterFactory κ)} {before after : List (Adapter κ)} {x : Adapter κ}
      {v u : World κ} (makes : InTurn (AdapterFactory.Makes a s) made w v)
      (produces : factory a s v = (.ok (before ++ x :: after), u))
      (proper : Adapter.Proper (made.flatMap (·.2) ++ before))
      (named : x.trimmed.name ≠ "")
      (taken : x.trimmed.name ∈ Adapter.names (made.flatMap (·.2) ++ before)) :
      Objects a s w (made.map (·.1) ++ factory :: later) (.repeated x.trimmed.name) u

variable {a : Artifact} {s : Settings} {w v u : World κ} {factories : List (AdapterFactory κ)}
  {made : List (AdapterFactory κ × List (Adapter κ))} {xs : List (Adapter κ)} {x : Objection}

/-- Either what the factories make is vetted, or there is a first objection. -/
theorem vetted_or_objects_of_makes (hmakes : InTurn (AdapterFactory.Makes a s) made w v)
    (hproper : Adapter.Proper (made.flatMap (·.2))) (rest : List (AdapterFactory κ)) :
    (∃ xs u, Vetted a s w (made.map (·.1) ++ rest) xs u) ∨
      ∃ x u, Objects a s w (made.map (·.1) ++ rest) x u := by
  induction rest generalizing made v with
  | nil =>
    rw [List.append_nil]
    exact .inl ⟨_, _, .intro hmakes hproper⟩
  | cons factory rest ih =>
    rcases hproduces : factory a s v with ⟨r | produced, u⟩
    · exact .inr ⟨_, _, .failed hmakes hproper hproduces⟩
    rcases hproper.append_or_first produced with
      hall | ⟨before, x, after, rfl, hbefore, hblank | ⟨hnamed, htaken⟩⟩
    · have hmore : InTurn (AdapterFactory.Makes a s) (made ++ [(factory, produced)]) w u :=
        hmakes.append (.cons hproduces .nil)
      have hnext := ih hmore (by simpa using hall)
      rwa [List.map_append, List.map_singleton, List.append_assoc] at hnext
    · exact .inr ⟨_, _, .unnamed hmakes hproduces hbefore hblank⟩
    · exact .inr ⟨_, _, .repeated hmakes hproduces hbefore hnamed htaken⟩

theorem vetted_or_objects (a : Artifact) (s : Settings) (w : World κ)
    (factories : List (AdapterFactory κ)) :
    (∃ xs u, Vetted a s w factories xs u) ∨ ∃ x u, Objects a s w factories x u :=
  vetted_or_objects_of_makes .nil Adapter.proper_nil factories

/-! ## What is collected -/

/-- Adapters with names of their own are accepted, and then those after them are looked at. -/
theorem acceptAdapters_append {i : Nat} {seen : List String} {before : List (Adapter κ)}
    (hbefore : Adapter.Proper before) (hnew : ∀ x ∈ before, x.trimmed.name ∉ seen)
    (rest : List (Adapter κ)) :
    acceptAdapters i seen (before ++ rest) =
      (acceptAdapters i ((Adapter.names before).reverse ++ seen) rest).map
        (before.map Adapter.trimmed ++ ·) := by
  induction before generalizing seen with
  | nil =>
    change acceptAdapters i seen rest = (acceptAdapters i seen rest).map id
    cases acceptAdapters i seen rest <;> rfl
  | cons x before ih =>
    have hparts : Adapter.Proper ([x] ++ before) := hbefore
    obtain ⟨-, hrest, hapart⟩ := Adapter.proper_append.1 hparts
    have hfirst : Text.trim x.name ∉ seen := hnew x List.mem_cons_self
    have hnamed : Text.trim x.name ≠ "" := hbefore.named x List.mem_cons_self
    have hnext : ∀ y ∈ before, y.trimmed.name ∉ Text.trim x.name :: seen := fun y hy htaken => by
      rcases List.mem_cons.1 htaken with heq | hseen
      · exact hapart y hy (List.mem_singleton.2 heq)
      · exact hnew y (List.mem_cons_of_mem x hy) hseen
    have hseen : (Adapter.names (x :: before)).reverse ++ seen =
        (Adapter.names before).reverse ++ Text.trim x.name :: seen := by
      rw [Adapter.names, List.map_cons, List.reverse_cons, List.append_assoc]
      rfl
    rw [List.cons_append, acceptAdapters]
    simp only [if_neg hnamed, if_neg hfirst, ih hrest hnext, hseen]
    cases acceptAdapters i ((Adapter.names before).reverse ++ Text.trim x.name :: seen) rest <;> rfl

/-- What proper adapters are followed by is all that matters. -/
theorem acceptAdapters_of_proper {i : Nat} {before : List (Adapter κ)}
    (h : Adapter.Proper (xs ++ before)) (rest : List (Adapter κ)) :
    acceptAdapters i ((xs.map Adapter.trimmed).map (·.name)) (before ++ rest) =
      (acceptAdapters i ((Adapter.names before).reverse ++ Adapter.names xs) rest).map
        (before.map Adapter.trimmed ++ ·) := by
  obtain ⟨-, hbefore, hnew⟩ := Adapter.proper_append.1 h
  rw [Adapter.names_trimmed, acceptAdapters_append hbefore hnew]

/-- Factories that make proper adapters are passed. -/
theorem collectAdaptersFrom_append (hmakes : InTurn (AdapterFactory.Makes a s) made w v)
    (hproper : Adapter.Proper (xs ++ made.flatMap (·.2))) (i : Nat)
    (rest : List (AdapterFactory κ)) :
    collectAdaptersFrom a s i (xs.map Adapter.trimmed) (made.map (·.1) ++ rest) w =
      collectAdaptersFrom a s (i + made.length)
        ((xs ++ made.flatMap (·.2)).map Adapter.trimmed) rest v := by
  induction hmakes generalizing i xs with
  | nil => simp
  | @cons m made w v u first others ih =>
    obtain ⟨factory, produced⟩ := m
    have hfirst : factory a s w = (.ok produced, v) := first
    rw [List.flatMap_cons, ← List.append_assoc] at hproper
    have haccept : acceptAdapters i ((xs.map Adapter.trimmed).map (·.name)) produced =
        .ok (produced.map Adapter.trimmed) := by
      have h := acceptAdapters_of_proper (i := i) (Adapter.proper_append.1 hproper).1 []
      rwa [List.append_nil, acceptAdapters, Except.map, List.append_nil] at h
    have hnext := ih hproper (i + 1)
    rw [List.map_append] at hnext
    simp only [List.map_cons, List.cons_append, collectAdaptersFrom, hfirst, haccept, hnext,
      List.flatMap_cons, List.length_cons, List.append_assoc, Nat.add_assoc, Nat.add_comm 1]

theorem collectAdapters_append (hmakes : InTurn (AdapterFactory.Makes a s) made w v)
    (hproper : Adapter.Proper (made.flatMap (·.2))) (rest : List (AdapterFactory κ)) :
    collectAdapters a s (made.map (·.1) ++ rest) w =
      collectAdaptersFrom a s made.length ((made.flatMap (·.2)).map Adapter.trimmed) rest v := by
  have hnone : Adapter.Proper ([] ++ made.flatMap (·.2)) := hproper
  have h := collectAdaptersFrom_append hmakes hnone 0 rest
  rwa [Nat.zero_add, List.nil_append] at h

theorem Vetted.collectAdapters_eq (h : Vetted a s w factories xs v) :
    collectAdapters a s factories w = (.ok xs, v) := by
  cases h with
  | intro makes proper =>
    have hcollect := collectAdapters_append makes proper []
    rwa [List.append_nil] at hcollect

/-- What a factory makes is refused for what comes after its proper adapters. -/
theorem collectAdapters_refused {factory : AdapterFactory κ} {before rest : List (Adapter κ)}
    {e : Failure} (hmakes : InTurn (AdapterFactory.Makes a s) made w v)
    (hproduces : factory a s v = (.ok (before ++ rest), u))
    (hproper : Adapter.Proper (made.flatMap (·.2) ++ before))
    (hrest : acceptAdapters made.length
      ((Adapter.names before).reverse ++ Adapter.names (made.flatMap (·.2))) rest = .error e)
    (later : List (AdapterFactory κ)) :
    collectAdapters a s (made.map (·.1) ++ factory :: later) w = (.error e, u) := by
  have hmade : Adapter.Proper (made.flatMap (·.2)) := (Adapter.proper_append.1 hproper).1
  simp only [collectAdapters_append hmakes hmade, collectAdaptersFrom, hproduces,
    acceptAdapters_of_proper hproper, hrest, Except.map]

theorem Objects.collectAdapters_eq (h : Objects a s w factories x u) :
    collectAdapters a s factories w = (.error x.failure, u) := by
  cases h with
  | failed makes proper fails =>
    simp only [collectAdapters_append makes proper, collectAdaptersFrom, fails, Objection.failure]
  | unnamed makes produces proper blank =>
    refine collectAdapters_refused makes produces proper ?_ _
    rw [acceptAdapters]
    exact if_pos blank
  | @repeated made factory later before after x v u makes produces proper named taken =>
    refine collectAdapters_refused makes produces proper ?_ _
    have hseen : x.trimmed.name ∈
        (Adapter.names before).reverse ++ Adapter.names (made.flatMap (·.2)) := by
      rw [Adapter.names_append, List.mem_append] at taken
      rw [List.mem_append, List.mem_reverse]
      exact taken.symm
    rw [acceptAdapters]
    exact (if_neg named).trans (if_pos hseen)

theorem vetted_iff_not_objects (a : Artifact) (s : Settings) (w : World κ)
    (factories : List (AdapterFactory κ)) :
    (∃ xs v, Vetted a s w factories xs v) ↔ ¬∃ x u, Objects a s w factories x u := by
  constructor
  · rintro ⟨xs, v, hvetted⟩ ⟨x, u, hobjects⟩
    cases hvetted.collectAdapters_eq.symm.trans hobjects.collectAdapters_eq
  · exact fun h => (vetted_or_objects a s w factories).resolve_right h

/-! ## What makes no difference -/

/-- The adapter with another behaviour. -/
def Adapter.rearmed (f : Adapter κ → AdapterView → AdapterProgram κ Unit) (x : Adapter κ) :
    Adapter κ := { x with behaviour := f x }

/-- The factory with other behaviours of what it makes. -/
def AdapterFactory.rearmed (f : Adapter κ → AdapterView → AdapterProgram κ Unit)
    (factory : AdapterFactory κ) : AdapterFactory κ := fun a s w =>
  match factory a s w with
  | (.ok produced, w) => (.ok (produced.map (Adapter.rearmed f)), w)
  | (.error r, w) => (.error r, w)

/-- A factory with what it makes, with other behaviours. -/
def rearmedMade (f : Adapter κ → AdapterView → AdapterProgram κ Unit)
    (m : AdapterFactory κ × List (Adapter κ)) : AdapterFactory κ × List (Adapter κ) :=
  (m.1.rearmed f, m.2.map (Adapter.rearmed f))

section Rearmed

variable (f : Adapter κ → AdapterView → AdapterProgram κ Unit)

theorem Adapter.names_rearmed (xs : List (Adapter κ)) : names (xs.map (rearmed f)) = names xs :=
  List.map_map

theorem Adapter.Proper.rearmed (h : Proper xs) : Proper (xs.map (rearmed f)) :=
  ⟨List.forall_mem_map.2 h.named, by rw [names_rearmed]; exact h.distinct⟩

theorem AdapterFactory.Makes.rearmed {m : AdapterFactory κ × List (Adapter κ)}
    (h : Makes a s m v w) : Makes a s (rearmedMade f m) v w := by
  have hm : m.1 a s v = (.ok m.2, w) := h
  simp only [Makes, rearmedMade, AdapterFactory.rearmed, hm]

theorem map_rearmedMade (made : List (AdapterFactory κ × List (Adapter κ))) :
    (made.map (rearmedMade f)).map (·.1) = (made.map (·.1)).map (AdapterFactory.rearmed f) := by
  rw [List.map_map, List.map_map]
  rfl

theorem flatMap_rearmedMade (made : List (AdapterFactory κ × List (Adapter κ))) :
    (made.map (rearmedMade f)).flatMap (·.2) = (made.flatMap (·.2)).map (Adapter.rearmed f) := by
  rw [List.flatMap_map, List.map_flatMap]
  rfl

theorem AdapterFactory.rearmed_of_ok {factory : AdapterFactory κ} {before after : List (Adapter κ)}
    {x : Adapter κ} (h : factory a s v = (.ok (before ++ x :: after), u)) :
    factory.rearmed f a s v = (.ok (before.map (Adapter.rearmed f) ++
      x.rearmed f :: after.map (Adapter.rearmed f)), u) := by
  simp only [AdapterFactory.rearmed, h, List.map_append, List.map_cons]

/-- An objection does not depend on what the adapters do. -/
theorem Objects.rearmed (h : Objects a s w factories x u) :
    Objects a s w (factories.map (AdapterFactory.rearmed f)) x u := by
  have hmakes : ∀ {made : List (AdapterFactory κ × List (Adapter κ))} {v : World κ},
      InTurn (AdapterFactory.Makes a s) made w v →
      InTurn (AdapterFactory.Makes a s) (made.map (rearmedMade f)) w v :=
    fun makes => makes.map fun _ _ _ => .rearmed f
  have hproper : ∀ {made : List (AdapterFactory κ × List (Adapter κ))} {before : List (Adapter κ)},
      Adapter.Proper (made.flatMap (·.2) ++ before) → Adapter.Proper
        ((made.map (rearmedMade f)).flatMap (·.2) ++ before.map (Adapter.rearmed f)) := by
    intro made before proper
    rw [flatMap_rearmedMade, ← List.map_append]
    exact proper.rearmed f
  cases h with
  | @failed made factory later r v u makes proper fails =>
    rw [List.map_append, List.map_cons, ← map_rearmedMade, ← List.length_map (rearmedMade f)]
    refine .failed (hmakes makes) ?_ (by simp only [AdapterFactory.rearmed, fails])
    rw [flatMap_rearmedMade]
    exact proper.rearmed f
  | @unnamed made factory later before after x v u makes produces proper blank =>
    rw [List.map_append, List.map_cons, ← map_rearmedMade, ← List.length_map (rearmedMade f)]
    exact .unnamed (hmakes makes) (AdapterFactory.rearmed_of_ok f produces) (hproper proper) blank
  | @repeated made factory later before after x v u makes produces proper named taken =>
    rw [List.map_append, List.map_cons, ← map_rearmedMade]
    refine .repeated (x := x.rearmed f) (hmakes makes) (AdapterFactory.rearmed_of_ok f produces)
      (hproper proper) named ?_
    rwa [flatMap_rearmedMade, ← List.map_append, Adapter.names_rearmed]

end Rearmed

theorem view_of_makes {β : Type} {view : World κ → β}
    (h : InTurn (AdapterFactory.Makes a s) made w v)
    (hkeep : ∀ m ∈ made, ∀ v, view (m.1 a s v).2 = view v) : view v = view w := by
  induction h with
  | nil => rfl
  | @cons m made w v u first others ih =>
    have hfirst := hkeep m List.mem_cons_self w
    rw [show m.1 a s w = (.ok m.2, v) from first] at hfirst
    exact (ih fun m hm => hkeep m (List.mem_cons_of_mem _ hm)).trans hfirst

/-- What no factory touches is as it was. -/
theorem Objects.view_eq {β : Type} {view : World κ → β} (h : Objects a s w factories x u)
    (hkeep : ∀ factory ∈ factories, ∀ v, view (factory a s v).2 = view v) : view u = view w := by
  have hlast : ∀ {made : List (AdapterFactory κ × List (Adapter κ))} {factory : AdapterFactory κ}
      {later : List (AdapterFactory κ)} {r} {v : World κ},
      InTurn (AdapterFactory.Makes a s) made w v → factory a s v = (r, u) →
      factories = made.map (·.1) ++ factory :: later → view u = view w := by
    rintro made factory later r v makes hfactory rfl
    obtain ⟨hmade, hrest⟩ := List.forall_mem_append.1 hkeep
    have hu := hrest factory List.mem_cons_self v
    rw [hfactory] at hu
    exact hu.trans (view_of_makes makes fun m hm => hmade m.1 (List.mem_map_of_mem hm))
  cases h with
  | failed makes proper fails => exact hlast makes fails rfl
  | unnamed makes produces proper blank => exact hlast makes produces rfl
  | repeated makes produces proper named taken => exact hlast makes produces rfl

/-! ## All adapters of a run -/

-- a sandbox is made by resolving a path, which must not be computed
attribute [local irreducible] Sandbox.new

theorem runAdapters_of_objects (h : Objects a s w factories x u) (o : AdapterOptions) :
    runAdapters o factories a s w = (.error x.failure, u.report o.scope x.failure) := by
  simp only [runAdapters, h.collectAdapters_eq]

/-- **Which adapters run.** Either all factories succeed and each adapter has a name of its own,
blanks around the names aside, or there is a first objection. In the first case the adapters take
turns, in the order of the factories and of what each has made, to the last of them or to the first
that fails. In the second the run fails with the objection, and nothing has changed but what the
factories have changed and that the user is told of it; it would be the same whatever the adapters
did. -/
theorem adapters_vetted (o : AdapterOptions) (factories : List (AdapterFactory κ)) (a : Artifact)
    (s : Settings) (w : World κ) :
    ((∃ xs v, Vetted a s w factories xs v) ↔ ¬∃ x u, Objects a s w factories x u) ∧
    (∀ xs v, Vetted a s w factories xs v → ∃ sb₀,
      Sandbox.new v.disk o.outputDir (!xs.isEmpty) = .ok sb₀ ∧
      ((∃ (turns : List (Turn κ)) (b : Artifact) (v' : World κ) (sb : Sandbox),
        turns.map (·.adapter) = xs ∧ InTurn (Turn.Succeeds o) turns (a, v, sb₀) (b, v', sb) ∧
        runAdapters o factories a s w = (.ok (b, sb), v')) ∨
      ∃ (turns : List (Turn κ)) (t : Turn κ) (later : List (Adapter κ))
        (x : Artifact × World κ × Sandbox) (r : Report) (y : World κ × Sandbox),
        turns.map (·.adapter) ++ t.adapter :: later = xs ∧
        InTurn (Turn.Succeeds o) turns (a, v, sb₀) x ∧ t.Fails o x r y ∧
        runAdapters o factories a s w =
          (.error r.normalize, y.1.report (Scope.child o.scope t.adapter.name) r.normalize))) ∧
    ∀ x u, Objects a s w factories x u →
      runAdapters o factories a s w = (.error x.failure, { u with
        diagnostics := u.diagnostics ++ [.ofFailure o.scope x.failure] }) ∧
      (∀ f, runAdapters o (factories.map (AdapterFactory.rearmed f)) a s w =
        runAdapters o factories a s w) ∧
      ∀ {β : Type} (view : World κ → β),
        (∀ factory ∈ factories, ∀ v, view (factory a s v).2 = view v) → view u = view w := by
  refine ⟨vetted_iff_not_objects a s w factories, fun xs v hvetted => ?_, fun x u hobjects =>
    ⟨runAdapters_of_objects hobjects o, fun f => ?_, fun view => hobjects.view_eq⟩⟩
  · obtain ⟨sb₀, hnew⟩ := Sandbox.exists_new v.disk o.outputDir (!xs.isEmpty)
    refine ⟨sb₀, hnew, ?_⟩
    rcases runInSandbox_cases o xs a sb₀ v with
      ⟨turns, b, v', sb, rfl, hturns, hrun⟩ | ⟨turns, t, later, x, r, y, rfl, hturns, hfails, hrun⟩
    · refine .inl ⟨turns, b, v', sb, rfl, hturns, ?_⟩
      simp only [runAdapters, hvetted.collectAdapters_eq, hnew, hrun]
    · refine .inr ⟨turns, t, later, x, r, y, rfl, hturns, hfails, ?_⟩
      simp only [runAdapters, hvetted.collectAdapters_eq, hnew, hrun]
  · rw [runAdapters_of_objects hobjects, runAdapters_of_objects (hobjects.rearmed f)]

example :
    collectAdapters (κ := Unit) ⟨titled "a", 0, .empty⟩ .usual
        [fun _ _ => pure [submitter], fun _ _ => pure [⟨"\u2003a", fun _ => pure ()⟩]]
        ⟨Disk.bare, [], [], ()⟩ =
      (.error (.invalidAdapter "duplicate adapter extension name 'a'"),
        ⟨Disk.bare, [], [], ()⟩) := by
  rfl

end StagedCodegen
