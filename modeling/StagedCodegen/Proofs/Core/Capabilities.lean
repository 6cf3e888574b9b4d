import StagedCodegen.Proofs.Core.Literals
import StagedCodegen.Proofs.Core.Queue
import StagedCodegen.Proofs.FirstOccurrences

/-!
# The capabilities of resources

Resources name the capabilities that guard them by keys, and the settings say what is behind a key.
The fragment for capabilities looks the keys up once, when the resources have been drafted, and
warns of those for which there is nothing. The sources look each key up again, in what the fragment
has left. Both answer as the settings do: the keys in the map are those that resources name
(`mem_capabilityKeys_iff`), in the order in which they are first named
(`capabilityKeys_firstUse`), and whatever is not in the settings is the usual capability on both
sides.

Main statements: `capabilities_drafted` for one fragment and any draft, `guarded_of_core_run` for
whole runs.
-/

namespace StagedCodegen

open StagedCodegen.Representation

variable {κ : Type}

namespace Core

variable {rs : List Resource} {r : Resource} {key : String}

/-! ## Keys -/

/-- The place of the first resource that names a key. -/
def firstUse (rs : List Resource) (key : String) : Nat := rs.findIdx (·.capability = some key)

theorem mem_capabilityKeys_iff :
    key ∈ capabilityKeys rs ↔ ∃ r ∈ rs, r.capability = some key := by
  rw [capabilityKeys, List.mem_eraseDups, List.mem_filterMap]

theorem firstUse_lt_length_iff :
    firstUse rs key < rs.length ↔ ∃ r ∈ rs, r.capability = some key := by
  rw [firstUse, List.findIdx_lt_length]
  simp only [decide_eq_true_eq]

/-- A resource that comes last makes no difference to the keys that others name. -/
theorem firstUse_concat (h : key ∈ capabilityKeys rs) :
    firstUse (rs ++ [r]) key = firstUse rs key := by
  have hlt := firstUse_lt_length_iff.mpr (mem_capabilityKeys_iff.mp h)
  rw [firstUse, List.findIdx_append]
  exact if_pos hlt

theorem length_le_firstUse_concat (h : key ∉ capabilityKeys rs) :
    rs.length ≤ firstUse (rs ++ [r]) key := by
  have hlast : ¬rs.findIdx (·.capability = some key) < rs.length := fun hlt =>
    h (mem_capabilityKeys_iff.mpr (firstUse_lt_length_iff.mp hlt))
  rw [firstUse, List.findIdx_append, if_neg hlast]
  exact Nat.le_add_left _ _

/-- The key of a resource that comes last is there already, or it is new, if there is one at all. -/
theorem capabilityKeys_concat (rs : List Resource) (r : Resource) :
    capabilityKeys (rs ++ [r]) = capabilityKeys rs ∨
      ∃ key, key ∉ capabilityKeys rs ∧ capabilityKeys (rs ++ [r]) = capabilityKeys rs ++ [key] := by
  cases hr : r.capability with
  | none =>
    rw [capabilityKeys, List.filterMap_append, List.filterMap_cons_none hr]
    exact .inl (congrArg List.eraseDups (List.append_nil _))
  | some key =>
    rw [capabilityKeys, List.filterMap_append, List.filterMap_cons_some hr, List.filterMap_nil,
      eraseDups_concat, ← capabilityKeys]
    split
    · exact .inl rfl
    · next hkey => exact .inr ⟨key, fun h => hkey (List.mem_eraseDups.mp h), rfl⟩

/-- Keys stand in the order in which resources first name them. -/
theorem capabilityKeys_firstUse (rs : List Resource) :
    (capabilityKeys rs).Pairwise (firstUse rs · < firstUse rs ·) := by
  -- a resource at the end adds one key at most, and one that nobody names before it
  induction rs using List.reverseRecOn with
  | nil => exact .nil
  | append_singleton rs r ih =>
    have hkeys : (capabilityKeys rs).Pairwise (firstUse (rs ++ [r]) · < firstUse (rs ++ [r]) ·) :=
      ih.imp_of_mem fun hk hl hlt => by rwa [firstUse_concat hk, firstUse_concat hl]
    rcases capabilityKeys_concat rs r with hsame | ⟨key, hnew, hsame⟩ <;> rw [hsame]
    · exact hkeys
    · refine List.pairwise_append.mpr ⟨hkeys, List.pairwise_singleton _ _, fun k hk l hl => ?_⟩
      obtain rfl := List.mem_singleton.mp hl
      rw [firstUse_concat hk]
      exact (firstUse_lt_length_iff.mpr (mem_capabilityKeys_iff.mp hk)).trans_le
        (length_le_firstUse_concat hnew)

theorem nodup_of_firstUse {keys : List String}
    (h : keys.Pairwise (firstUse rs · < firstUse rs ·)) : keys.Nodup :=
  h.imp fun hlt heq => Nat.ne_of_lt hlt (congrArg (firstUse rs) heq)

/-! ## What is behind a key -/

/-- What the settings have behind a key of a resource, or the usual capability. -/
def lookup (configured : SortedMap String) (r : Resource) : String :=
  (r.capability.bind configured.get?).getD usualCapability

/-- In a map from keys to what is behind them each of them is found, and nothing else. -/
theorem get?_ofList_map {α : Type} (f : String → α) (keys : List String) (key : String) :
    (SortedMap.ofList (keys.map fun k => (k, f k))).get? key =
      if key ∈ keys then some (f key) else none := by
  have hfold : (SortedMap.ofList (keys.map fun k => (k, f k))).get? key =
      ((keys.map fun k => (k, f k)).filter (·.1 = key)).getLast?.map (·.2) :=
    (SortedMap.get?_foldl_insert id _ .empty key).trans (by simp)
  -- a key that stands there twice has the same behind it both times
  have hfilter : keys.filter ((fun e : String × α => decide (e.1 = key)) ∘ fun k => (k, f k)) =
      List.replicate (keys.count key) key := List.filter_eq key
  rw [hfold, List.filter_map, List.getLast?_map, Option.map_map, hfilter, List.getLast?_replicate]
  by_cases hkey : key ∈ keys
  · rw [if_neg (List.count_pos_iff.mpr hkey).ne', if_pos hkey]
    rfl
  · rw [if_pos (List.count_eq_zero.mpr hkey), if_neg hkey]
    rfl

variable {configured : SortedMap String}

theorem capabilityEntry_capability (configured : SortedMap String) (key : String) :
    (capabilityEntry configured key).capability = (configured.get? key).getD usualCapability := by
  rw [capabilityEntry]
  cases configured.get? key <;> rfl

/-- Only what resources name is in their map, with what the settings have behind it. -/
theorem get?_capabilityMap {entry : CapabilityEntry} :
    (capabilityMap configured (capabilityKeys rs)).entries.get? key = some entry ↔
      (∃ r ∈ rs, r.capability = some key) ∧ entry = capabilityEntry configured key := by
  rw [capabilityMap, get?_ofList_map, ← mem_capabilityKeys_iff]
  split
  · next hkey => simp [hkey, eq_comm]
  · next hkey => simp [hkey]

theorem mem_missing_iff : key ∈ (capabilityMap configured (capabilityKeys rs)).missing ↔
    (∃ r ∈ rs, r.capability = some key) ∧ configured.get? key = none := by
  rw [capabilityMap, List.mem_filter, mem_capabilityKeys_iff]
  simp [SortedMap.contains]

/-- What guards a resource can be read off the map of the keys or off the settings. -/
theorem resolvedCapability_eq_lookup {data : Data}
    (hmap : data.capabilityMap = capabilityMap configured (capabilityKeys rs)) (hr : r ∈ rs) :
    resolvedCapability data r = lookup configured r := by
  rw [resolvedCapability, lookup, hmap]
  cases hkey : r.capability with
  | none => rfl
  | some key =>
    have hentry : (capabilityMap configured (capabilityKeys rs)).entries.get? key =
      some (capabilityEntry configured key) := get?_capabilityMap.mpr ⟨⟨r, hr, hkey⟩, rfl⟩
    simp only [Option.bind_some, hentry]
    exact capabilityEntry_capability configured key

/-! ## The fragment -/

/-- What the user is told of a key for which nothing is configured. -/
def missingWarning (scope : Scope) (key : String) : Diagnostic :=
  .warning scope "Capability key is not mapped, using default"
    (.obj [("key", .string key), ("default", .string usualCapability)])

/-- The world once these were said. -/
def heard (v : World κ) (said : List Diagnostic) : World κ :=
  { v with diagnostics := v.diagnostics ++ said }

theorem heard_cons (v : World κ) (first : Diagnostic) (said : List Diagnostic) :
    heard v (first :: said) = heard (v.say first) said :=
  congrArg (fun diagnostics => { v with diagnostics }) (List.append_cons _ _ _)

/-- Each key is warned of, one after another, and nothing else happens. -/
theorem run_warnOfMissing (w : Writer) (scope : Scope) (missing : List String) (d : Draft)
    (v : World κ) : Program.run (I := fragmentInterface κ) (FragmentState.serve w)
      (warnOfMissing scope missing).run ⟨v, d, none⟩ =
        (.ok (), ⟨heard v (missing.map (missingWarning scope)), d, none⟩) := by
  induction missing generalizing v with
  | nil => simp [warnOfMissing, heard]; rfl
  | cons key rest ih =>
    refine (Program.run_bindExcept (I := fragmentInterface κ) _ _
      (fun _ => warnOfMissing scope rest) _).trans ?_
    rw [List.map_cons, heard_cons]
    exact ih _

/-- What the fragment gives, if this is the draft. -/
def guards (o : RunOptions) (d : Draft) : CapabilityMap :=
  capabilityMap o.settings.project.capabilities (capabilityKeys d.resources.values)

/-- What the fragment does once it has seen the draft. -/
def giveGuards (v : FragmentView) (d : Draft) : FragmentProgram κ Unit := do
  warnOfMissing v.scope (guards v.options d).missing
  FragmentProgram.assign (.capabilityMap (guards v.options d))

/-- The fragment warns of the keys for which nothing is configured, and then it gives the map. -/
theorem run_capabilitiesFragment (view : FragmentView) (w : Writer) (d : Draft) (v : World κ) :
    Program.run (I := fragmentInterface κ) (FragmentState.serve w)
        (capabilitiesFragment view).run ⟨v, d, none⟩ =
      FragmentState.serve w (.assign (.capabilityMap (guards view.options d)))
        ⟨heard v ((guards view.options d).missing.map (missingWarning view.scope)), d, none⟩ := by
  have hwarn := run_warnOfMissing w view.scope (guards view.options d).missing d v
  calc Program.run (FragmentState.serve w) (capabilitiesFragment view).run ⟨v, d, none⟩
    _ = Program.run (FragmentState.serve w) (giveGuards view d).run ⟨v, d, none⟩ :=
      Program.run_bindExcept (I := fragmentInterface κ) _ FragmentProgram.look (giveGuards view) _
    _ = _ := (Program.run_bindExcept (I := fragmentInterface κ) _ _
      (fun _ => FragmentProgram.assign (.capabilityMap (guards view.options d))) _).trans
        (by rw [hwarn]; rfl)

/-- If somebody else owns the map, the fragment fails with that, but only after its warnings. -/
theorem runFragment_capabilities (o : RunOptions) (e : FragmentEntry) (d : Draft) (v : World κ) :
    runFragment o e capabilitiesFragment d v =
      ((d.assign ⟨e.key, e.mode⟩ (.capabilityMap (guards o d))).map (·, none),
        heard v ((guards o d).missing.map (missingWarning (Scope.child o.scope e.key)))) := by
  have hrun := run_capabilitiesFragment ⟨o, e.key, Scope.child o.scope e.key⟩ ⟨e.key, e.mode⟩ d v
  simp only [runFragment, hrun, FragmentState.serve, Draft.put]
  rcases d.assign ⟨e.key, e.mode⟩ (.capabilityMap (guards o d)) with f | d' <;> rfl

/-- **Resources are guarded as the settings say.** Whatever helpers wrote to the draft, its
resources ascend by their names, and the fragment gives the map of just the keys that they name,
each with the capability that is configured for it or else with the usual one. The keys for which
nothing is configured are missing, each once and in the order in which resources first name them;
the user is warned of each of them in this order, and of nothing else. With this map the constant in
the controller of a resource is what the settings have for its key, or else the usual capability. -/
theorem capabilities_drafted (o : RunOptions) (e : FragmentEntry)
    (ws : List (Writer × DraftWrite)) (v : World κ) :
    let d := (putAll Draft.put ws .empty).2
    let rs := d.resources.values
    let configured := o.settings.project.capabilities
    ∃ m : CapabilityMap, rs.Pairwise (·.name < ·.name) ∧
      runFragment o e capabilitiesFragment d v =
        ((d.assign ⟨e.key, e.mode⟩ (.capabilityMap m)).map (·, none),
          heard v (m.missing.map (missingWarning (Scope.child o.scope e.key)))) ∧
      (∀ key entry, m.entries.get? key = some entry ↔ (∃ r ∈ rs, r.capability = some key) ∧
        entry = match configured.get? key with
          | some capability => ⟨capability, .configured⟩
          | none => ⟨"manage_options", .fallback⟩) ∧
      m.missing.Nodup ∧
      (∀ key, key ∈ m.missing ↔
        (∃ r ∈ rs, r.capability = some key) ∧ configured.get? key = none) ∧
      m.missing.Pairwise (firstUse rs · < firstUse rs ·) ∧
      ∀ data : Data, data.capabilityMap = m → ∀ r ∈ rs, ∀ capability,
        capability = (r.capability.bind configured.get?).getD "manage_options" →
          resolvedCapability data r = capability ∧
          phpController data r = ofLines (classHead data r ++ constantLine "ROUTE" r.route ::
            constantLine "CAPABILITY" capability :: classEnd) := by
  intro d rs configured
  have hbyName : ByName d.resources := Draft.byName_putAll byName_empty ws
  have hmissing : (guards o d).missing.Pairwise (firstUse rs · < firstUse rs ·) :=
    (capabilityKeys_firstUse rs).sublist List.filter_sublist
  refine ⟨guards o d, hbyName.values_ascending, runFragment_capabilities o e d v,
    fun _ _ => get?_capabilityMap, nodup_of_firstUse hmissing, fun _ => mem_missing_iff, hmissing,
    ?_⟩
  rintro data hdata r hr _ rfl
  have hlookup := resolvedCapability_eq_lookup hdata hr
  refine ⟨hlookup, ?_⟩
  rw [phpController_eq, hlookup]
  rfl

/-- Whenever a run of the core helpers alone succeeds, all resources of the artifact are guarded as
the settings say. -/
theorem guarded_of_core_run {p q : Pipeline κ} {o : RunOptions} {w : World κ} {r : RunResult}
    {s : Session κ} (hempty : p.registry = .empty) (halone : p.extensions = [])
    (hcore : registerAll p = (.ok (), q)) (hrun : q.run o w = (.ok r, s)) {c : Resource}
    (hc : c ∈ r.artifact.data.resources) :
    resolvedCapability r.artifact.data c = lookup o.settings.project.capabilities c := by
  obtain ⟨m, -, hartifact⟩ := exists_identity_of_run hempty halone hcore hrun
  rw [hartifact] at hc ⊢
  exact resolvedCapability_eq_lookup rfl hc

end Core

end StagedCodegen
