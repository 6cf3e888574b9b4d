import StagedCodegen.Registry
import StagedCodegen.Proofs.Schedule.Fragments

/-!
# Overrides in the registry and in the schedule

The registry keeps overrides twice: among the fragments, and in a table by which it refuses a second
override of a key. The schedule does not look at the table and finds the overrides once more. They
agree, since a registration either is refused as a whole or enters all that it belongs in
(`Registry.register_of_admits`, `Registry.register_of_not_admits`).

Main statement: `Registry.registers_whole`. Whatever registers, the registry has the helpers that it
has accepted and a table of their overrides; and for each key, either one override runs alone or
there is none and all fragments run.
-/

namespace StagedCodegen

/-! ## Helpers of either kind -/

section Kinds

variable {φ β : Type}

/-- The helper, if it is a fragment. -/
def Helper.fragment? : Helper φ β → Option (FragmentEntry × φ)
  | .fragment e act => some (e, act)
  | .builder _ _ => none

/-- The helper, if it is a builder. -/
def Helper.builder? : Helper φ β → Option (BuilderEntry × β)
  | .fragment _ _ => none
  | .builder e act => some (e, act)

/-- The fragment is an override of the key. -/
def FragmentEntry.overrides (key : String) (e : FragmentEntry) : Bool :=
  e.mode == .override && e.key == key

theorem FragmentEntry.overrides_iff {key : String} {e : FragmentEntry} :
    e.overrides key = true ↔ e.mode = .override ∧ e.key = key := by
  simp [overrides]

end Kinds

/-! ## Who runs under one key -/

namespace Schedule

variable {fs : List FragmentEntry} {key : String}

/-- Under an overridden key, overrides run and nobody else. -/
theorem filter_active_of_overridden (h : Overridden fs key) :
    (active fs).filter (·.1.key == key) = fs.zipIdx.filter (·.1.overrides key) := by
  rw [active, List.filter_filter]
  refine List.filter_congr ?_
  rintro ⟨f, i⟩ -
  rw [Bool.eq_iff_iff, Bool.and_eq_true, FragmentEntry.overrides_iff, Bool.not_eq_true',
    ← Bool.not_eq_true, isSuperseded_iff, beq_iff_eq]
  constructor
  · rintro ⟨rfl, hruns⟩
    cases hmode : f.mode with
    | extend => exact absurd ⟨hmode, h⟩ hruns
    | override => exact ⟨rfl, rfl⟩
  · rintro ⟨hmode, rfl⟩
    exact ⟨rfl, fun hext => HelperMode.noConfusion (hmode.symm.trans hext.1)⟩

/-- Under a key that nobody overrides, everybody runs. -/
theorem filter_active_of_not_overridden (h : ¬Overridden fs key) :
    (active fs).filter (·.1.key == key) = fs.zipIdx.filter (·.1.key == key) := by
  rw [active, List.filter_filter]
  refine List.filter_congr ?_
  rintro ⟨f, i⟩ -
  rw [Bool.eq_iff_iff, Bool.and_eq_true, Bool.not_eq_true', ← Bool.not_eq_true, isSuperseded_iff,
    beq_iff_eq]
  refine ⟨And.left, ?_⟩
  rintro rfl
  exact ⟨rfl, fun hext => h hext.2⟩

/-- If a key is overridden once, one fragment runs under it. -/
theorem exists_filter_active_eq (h : Overridden fs key)
    (honce : (fs.filter (·.overrides key)).length ≤ 1) :
    ∃ f i, f.mode = .override ∧ (active fs).filter (·.1.key == key) = [(f, i)] := by
  have hmap : (fs.zipIdx.filter (·.1.overrides key)).map Prod.fst =
    fs.filter (·.overrides key) := by
    conv_rhs => rw [← List.zipIdx_map_fst 0 fs, List.filter_map]
    rfl
  have hover : fs.filter (·.overrides key) ≠ [] := by
    obtain ⟨g, hg, hg'⟩ := h
    exact List.ne_nil_of_mem (List.mem_filter.2 ⟨hg, FragmentEntry.overrides_iff.2 hg'⟩)
  have hlength : (fs.zipIdx.filter (·.1.overrides key)).length = 1 := by
    rw [← List.length_map Prod.fst, hmap]
    exact le_antisymm honce (List.length_pos_iff.2 hover)
  rw [filter_active_of_overridden h]
  obtain ⟨⟨f, i⟩, hf⟩ := List.length_eq_one_iff.1 hlength
  have hmem : (f, i) ∈ fs.zipIdx.filter (·.1.overrides key) := hf ▸ List.mem_singleton_self _
  exact ⟨f, i, (FragmentEntry.overrides_iff.1 (List.mem_filter.1 hmem).2).1, hf⟩

end Schedule

namespace Registry

variable {φ β : Type} {r : Registry φ β} {key : String}

/-! ## One registration -/

/-- A helper that registers on a surface. -/
structure Registration (φ β : Type) where
  /-- The kind of helper that the surface is for. -/
  surface : HelperKind
  /-- The helper. -/
  helper : Helper φ β

/-- Register a helper on its surface. -/
def register (c : Registration φ β) : Act (Registry φ β) Unit :=
  match c.surface with
  | .fragment => registerFragment c.helper
  | .builder => registerBuilder c.helper

/-- The registry overrides already what the helper is to override. -/
def Clashes (r : Registry φ β) : Helper φ β → Prop
  | .fragment e _ => e.mode = .override ∧ ∃ origin, r.overrides.get? e.key = some origin
  | .builder _ _ => False

/-- The registry takes the helper: it is of the kind of the surface, its key is not blank, and it is
no second override of a key. -/
structure Admits (r : Registry φ β) (c : Registration φ β) : Prop where
  kind : c.surface = c.helper.kind
  key : Text.isBlankText c.helper.key = false
  free : ¬r.Clashes c.helper

/-- The table of overrides with a fragment. -/
def tabled (overrides : SortedMap String) (e : FragmentEntry) : SortedMap String :=
  match e.mode with
  | .extend => overrides
  | .override => overrides.insert e.key (e.origin.getD unspecifiedOrigin)

/-- The registry with a helper. -/
def added (r : Registry φ β) : Helper φ β → Registry φ β
  | .fragment e act =>
    { r with fragments := r.fragments ++ [(e, act)], overrides := tabled r.overrides e }
  | .builder e act => { r with builders := r.builders ++ [(e, act)] }

variable {c : Registration φ β}

theorem register_of_admits (h : r.Admits c) : register c r = (.ok (), r.added c.helper) := by
  obtain ⟨surface, helper⟩ := c
  obtain ⟨hkind, hkey, hfree⟩ := h
  cases helper with
  | builder e act =>
    obtain rfl : surface = .builder := hkind
    have hkey : Text.isBlankText e.key = false := hkey
    simp [register, registerBuilder, hkey, added]
  | fragment e act =>
    obtain rfl : surface = .fragment := hkind
    have hkey : Text.isBlankText e.key = false := hkey
    cases hmode : e.mode with
    | extend => simp [register, registerFragment, hkey, addFragment, hmode, added, tabled]
    | override =>
      have hnone : r.overrides.get? e.key = none :=
        Option.eq_none_iff_forall_ne_some.2 fun origin ho => hfree ⟨hmode, origin, ho⟩
      simp [register, registerFragment, hkey, addFragment, hmode, hnone, added, tabled]

theorem register_of_not_admits (h : ¬r.Admits c) : ∃ f, register c r = (.error f, r) := by
  obtain ⟨surface, helper⟩ := c
  cases helper with
  | builder e act =>
    cases surface with
    | fragment => exact ⟨_, rfl⟩
    | builder =>
      cases hkey : Text.isBlankText e.key with
      | true => exact ⟨.emptyKey .builder, by simp [register, registerBuilder, hkey]⟩
      | false => exact absurd ⟨rfl, hkey, id⟩ h
  | fragment e act =>
    cases surface with
    | builder => exact ⟨_, rfl⟩
    | fragment =>
      cases hkey : Text.isBlankText e.key with
      | true => exact ⟨.emptyKey .fragment, by simp [register, registerFragment, hkey]⟩
      | false =>
        have hclash : r.Clashes (.fragment e act) := by
          by_contra hfree
          exact h ⟨rfl, hkey, hfree⟩
        obtain ⟨hmode, origin, ho⟩ := hclash
        exact ⟨.overrideConflict e.key origin (e.origin.getD unspecifiedOrigin), by
          simp [register, registerFragment, hkey, addFragment, hmode, ho]⟩

theorem register_eq_ok_iff : (register c r).1 = .ok () ↔ r.Admits c := by
  constructor
  · intro hok
    by_contra h
    obtain ⟨f, hf⟩ := register_of_not_admits h
    rw [hf] at hok
    cases hok
  · exact fun h => by rw [register_of_admits h]

/-- Who is refused leaves no trace. -/
theorem register_of_error {f : Failure} (h : (register c r).1 = .error f) :
    (register c r).2 = r := by
  by_cases hc : r.Admits c
  · rw [register_of_admits hc] at h
    cases h
  · obtain ⟨g, hg⟩ := register_of_not_admits hc
    rw [hg]

/-! ## What registrations keep -/

/-- No key is blank, the table holds the overrides among the fragments under their keys, and no key
has two of them. -/
structure Kept (r : Registry φ β) : Prop where
  fragmentKeys : ∀ e ∈ r.fragments, Text.isBlankText e.1.key = false
  builderKeys : ∀ e ∈ r.builders, Text.isBlankText e.1.key = false
  table : ∀ key origin, r.overrides.get? key = some origin ↔
    ∃ e ∈ r.fragmentEntries, e.overrides key = true ∧ e.origin.getD unspecifiedOrigin = origin
  once : ∀ key, (r.fragmentEntries.filter (·.overrides key)).length ≤ 1

theorem kept_empty : (empty : Registry φ β).Kept where
  fragmentKeys _ he := absurd he List.not_mem_nil
  builderKeys _ he := absurd he List.not_mem_nil
  table key origin := by simp [empty, fragmentEntries]
  once key := by simp [empty, fragmentEntries]

/-- The table is asked before an override is added, so it stays the only one of its key. -/
theorem Kept.addedFragment (h : r.Kept) {e : FragmentEntry} {act : φ}
    (hkey : Text.isBlankText e.key = false) (hfree : ¬r.Clashes (.fragment e act)) :
    (r.added (.fragment e act)).Kept := by
  have hentries : (r.added (.fragment e act)).fragmentEntries = r.fragmentEntries ++ [e] := by
    simp [added, fragmentEntries]
  refine ⟨?_, h.builderKeys, fun key origin => ?_, fun key => ?_⟩
  · intro x hx
    rcases List.mem_append.1 hx with hx | hx
    · exact h.fragmentKeys x hx
    · rw [List.mem_singleton.1 hx]
      exact hkey
  · have htable := h.table key origin
    rw [hentries]
    cases hmode : e.mode with
    | extend => simp [added, tabled, hmode, htable, FragmentEntry.overrides]
    | override =>
      have hnone : ∀ o, r.overrides.get? e.key ≠ some o := fun o ho => hfree ⟨hmode, o, ho⟩
      simp only [added, tabled, hmode, SortedMap.get?_insert]
      by_cases heq : key = e.key
      · subst heq
        have hold : ¬∃ x ∈ r.fragmentEntries, x.overrides e.key = true ∧
            x.origin.getD unspecifiedOrigin = origin := fun hx => hnone origin (htable.2 hx)
        have hover : e.overrides e.key = true := FragmentEntry.overrides_iff.2 ⟨hmode, rfl⟩
        simp only [if_true, Option.some.injEq, List.mem_append, List.mem_singleton, or_and_right,
          exists_or, hold, false_or, exists_eq_left, hover, true_and]
      · simp [heq, htable, FragmentEntry.overrides, Ne.symm heq]
  · rw [hentries, List.filter_append, List.length_append]
    cases hover : e.overrides key with
    | false => simpa [hover] using h.once key
    | true =>
      obtain ⟨hmode, rfl⟩ := FragmentEntry.overrides_iff.1 hover
      have hnone : r.fragmentEntries.filter (·.overrides e.key) = [] := by
        refine List.filter_eq_nil_iff.2 fun x hx hxo => ?_
        exact hfree ⟨hmode, _, (h.table e.key _).2 ⟨x, hx, hxo, rfl⟩⟩
      simp [hnone, hover]

theorem Kept.register (h : r.Kept) (c : Registration φ β) : (register c r).2.Kept := by
  by_cases hc : r.Admits c
  · rw [register_of_admits hc]
    obtain ⟨surface, helper⟩ := c
    cases helper with
    | fragment e act => exact h.addedFragment hc.key hc.free
    | builder e act =>
      refine ⟨h.fragmentKeys, fun x hx => ?_, h.table, h.once⟩
      rcases List.mem_append.1 hx with hx | hx
      · exact h.builderKeys x hx
      · rw [List.mem_singleton.1 hx]
        exact hc.key
  · obtain ⟨f, hf⟩ := register_of_not_admits hc
    rwa [hf]

theorem Kept.each (h : r.Kept) (calls : List (Registration φ β)) :
    (Attempt.each (calls.map Registry.register) r).2.Kept := by
  induction calls generalizing r with
  | nil => exact h
  | cons c calls ih => exact ih (h.register c)

theorem Kept.hasOverride_iff (h : r.Kept) :
    r.hasOverride key = true ↔ Schedule.Overridden r.fragmentEntries key := by
  rw [hasOverride, SortedMap.contains, Option.isSome_iff_exists]
  constructor
  · rintro ⟨origin, ho⟩
    obtain ⟨e, he, hover, -⟩ := (h.table key origin).1 ho
    exact ⟨e, he, FragmentEntry.overrides_iff.1 hover⟩
  · rintro ⟨e, he, hmode, hkey⟩
    exact ⟨_, (h.table key _).2 ⟨e, he, FragmentEntry.overrides_iff.2 ⟨hmode, hkey⟩, rfl⟩⟩

/-! ## Registrations one after another -/

/-- The helpers that were accepted, by what came of each registration. -/
def accepted (outcomes : List (Registration φ β × Except Failure Unit)) : List (Helper φ β) :=
  (outcomes.filter (·.2.isOk)).map (·.1.helper)

/-- What was accepted comes after what was there. -/
theorem lists_of_each (calls : List (Registration φ β)) (r : Registry φ β) :
    let results := (Attempt.each (calls.map register) r).1
    let s := (Attempt.each (calls.map register) r).2
    s.fragments = r.fragments ++ (accepted (calls.zip results)).filterMap Helper.fragment? ∧
      s.builders = r.builders ++ (accepted (calls.zip results)).filterMap Helper.builder? := by
  induction calls generalizing r with
  | nil => simp [accepted]
  | cons c calls ih =>
    obtain ⟨hfragments, hbuilders⟩ := ih (register c r).2
    simp only [List.map_cons, Attempt.each_cons, List.zip_cons_cons]
    rw [hfragments, hbuilders]
    by_cases hc : r.Admits c
    · have haccepted : ∀ outcomes, accepted ((c, (.ok () : Except Failure Unit)) :: outcomes) =
          c.helper :: accepted outcomes := fun _ => rfl
      rw [register_of_admits hc, haccepted]
      cases c.helper <;>
        simp only [added, List.append_assoc, List.singleton_append, List.filterMap_cons,
          Helper.fragment?, Helper.builder?, and_self]
    · obtain ⟨f, hf⟩ := register_of_not_admits hc
      rw [hf]
      exact ⟨rfl, rfl⟩

theorem admitted_of_each (calls : List (Registration φ β)) (r : Registry φ β) :
    ∀ c, (c, .ok ()) ∈ calls.zip (Attempt.each (calls.map register) r).1 →
      c.surface = c.helper.kind ∧ Text.isBlankText c.helper.key = false := by
  induction calls generalizing r with
  | nil => exact fun c hc => absurd hc List.not_mem_nil
  | cons d calls ih =>
    intro c hc
    simp only [List.map_cons, Attempt.each_cons, List.zip_cons_cons, List.mem_cons,
      Prod.mk.injEq] at hc
    rcases hc with ⟨rfl, hok⟩ | hc
    · have hadmits := register_eq_ok_iff.1 hok.symm
      exact ⟨hadmits.kind, hadmits.key⟩
    · exact ih _ c hc

/-- **What registrations leave.** A helper is accepted just if it is of the kind of the surface, its
key is not blank and it is no second override; otherwise nothing changes. The registry has the
accepted helpers in their order, all of them on the surface of their kind and under keys that are
not blank; its table has the overrides among them with their origins, and no key has two. So under a
key that has one, the override runs and nobody else, and under any other key everybody runs. -/
theorem registers_whole (calls : List (Registration φ β)) :
    let results := (Attempt.each (calls.map register) (.empty : Registry φ β)).1
    let r := (Attempt.each (calls.map register) (.empty : Registry φ β)).2
    let es := r.fragmentEntries
    (∀ (c : Registration φ β) (s : Registry φ β), ((register c s).1 = .ok () ↔ s.Admits c) ∧
      ∀ f, (register c s).1 = .error f → (register c s).2 = s) ∧
    (r.fragments = (accepted (calls.zip results)).filterMap Helper.fragment? ∧
      r.builders = (accepted (calls.zip results)).filterMap Helper.builder? ∧
      ∀ c, (c, .ok ()) ∈ calls.zip results →
        c.surface = c.helper.kind ∧ Text.isBlankText c.helper.key = false) ∧
    ((∀ e ∈ r.fragments, Text.isBlankText e.1.key = false) ∧
      ∀ e ∈ r.builders, Text.isBlankText e.1.key = false) ∧
    ((∀ key origin, r.overrides.get? key = some origin ↔
      ∃ e ∈ es, e.overrides key = true ∧ e.origin.getD unspecifiedOrigin = origin) ∧
      ∀ key, (es.filter (·.overrides key)).length ≤ 1) ∧
    (∀ key, if r.hasOverride key then
        ∃ f i, f.mode = .override ∧ (Schedule.active es).filter (·.1.key == key) = [(f, i)]
      else (Schedule.active es).filter (·.1.key == key) = es.zipIdx.filter (·.1.key == key)) ∧
    ∀ s, Schedule.fragments es = .ok s → s.order.Perm ((Schedule.active es).map (·.2)) := by
  intro results r es
  have hkept : r.Kept := kept_empty.each calls
  obtain ⟨hfragments, hbuilders⟩ := lists_of_each calls (.empty : Registry φ β)
  refine ⟨fun c s => ⟨register_eq_ok_iff, fun f => register_of_error⟩,
    ⟨hfragments, hbuilders, admitted_of_each calls _⟩, ⟨hkept.fragmentKeys, hkept.builderKeys⟩,
    ⟨hkept.table, hkept.once⟩, fun key => ?_, fun s hs => ?_⟩
  · split
    · next hover =>
      exact Schedule.exists_filter_active_eq (hkept.hasOverride_iff.1 hover) (hkept.once key)
    · next hover =>
      exact Schedule.filter_active_of_not_overridden fun h => hover (hkept.hasOverride_iff.2 h)
  · obtain ⟨-, hacyclic, rfl⟩ := Schedule.fragments_eq_ok_iff.1 hs
    exact Schedule.order_perm hacyclic

end Registry

end StagedCodegen
