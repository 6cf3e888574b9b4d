import StagedCodegen.Proofs.Settings.Merging
import StagedCodegen.Settings.Sources

/-!
# Leaves of settings

Settings are a few sections, and in these stand the leaves: single values, lists as a whole, and the
single entries of maps. Each leaf is read from what stands at its path in a tree, whatever stands
elsewhere, and is usual if nothing stands there (`Settings.leaf_of_ofJson?`). So a tree may be asked
leaf by leaf, though it is read section by section and maps are read at once.

Main statements: `Settings.leaf_of_ofJson?`, `Settings.fits_iff`.
-/

namespace StagedCodegen

namespace Settings

open KeyPath

variable {t v : Json} {ms : List (String × Json)} {p : List String} {n key : String} {s : Settings}

/-! ## Leaves -/

/-- What a leaf is. -/
inductive Kind where
  /-- A text. -/
  | text
  /-- A truth value. -/
  | truth
  /-- A list of texts. -/
  | texts
  /-- A list of resources. -/
  | resources
deriving DecidableEq

/-- A leaf of a kind as it is read from a value. -/
def Kind.read : Kind → Json → Option Json
  | text, v => (scalarText? v).map .string
  | truth, v => (scalarTruth? v).map .bool
  | texts, v => (Json.list? scalarText? v).map Json.strings
  | resources, v => (Json.list? (resource? lenient) v).map fun rs => .array (rs.map resourceToJson)

/-- What is in a section. -/
structure Section where
  /-- The name of the section. -/
  name : String
  /-- The leaves that have names of their own. -/
  fields : List (String × Kind)
  /-- The maps of texts. -/
  maps : List String

/-- What is in the section of the project. -/
def Project.layout : Section where
  name := "project"
  fields := [("namespace", .text), ("version", .text), ("resources", .resources)]
  maps := ["capabilities"]

/-- What is in the section of the directories. -/
def Output.layout : Section where
  name := "output"
  fields := [("dir", .text), ("php_dir", .text), ("ts_dir", .text)]
  maps := []

/-- What is in the section of the way of generation. -/
def Generation.layout : Section where
  name := "generation"
  fields := [("dry_run", .truth), ("required_families", .texts)]
  maps := []

/-- What is in the section of logging. -/
def Logging.layout : Section where
  name := "logging"
  fields := [("enabled", .truth), ("level", .text), ("format", .text), ("output", .text),
    ("file", .text), ("color", .truth)]
  maps := ["modules"]

/-- All sections. -/
def sections : List Section := [Project.layout, Output.layout, Generation.layout, Logging.layout]

/-- The leaves of a section, by their paths in it. -/
inductive Section.IsLeaf (S : Section) : List String → Kind → Prop
  /-- A leaf with a name of its own. -/
  | field {n : String} {k : Kind} (h : (n, k) ∈ S.fields) : S.IsLeaf [n] k
  /-- An entry of a map. -/
  | entry {n : String} (h : n ∈ S.maps) (key : String) : S.IsLeaf [n, key] .text

/-- The leaves of settings, by their paths. -/
inductive IsLeaf : List String → Kind → Prop
  /-- A leaf of a section. -/
  | mk {S : Section} {p : List String} {k : Kind} (hS : S ∈ sections) (h : S.IsLeaf p k) :
      IsLeaf (S.name :: p) k

/-- A leaf of settings. -/
def leaf (s : Settings) (p : List String) : Option Json := at? p s.toJson

/-- In a tree, tables stand where settings have them, and at leaves stand other values. -/
def Fits (t : Json) : Prop := ∀ p k, IsLeaf p k → Along NoTable p t

/-- A table without further tables in it. -/
def Flat : Json → Prop
  | .object ms => ∀ m ∈ ms, NoTable m.2
  | _ => False

instance : DecidablePred Flat
  | .object ms => inferInstanceAs (Decidable (∀ m ∈ ms, NoTable m.2))
  | .null | .bool _ | .number _ | .string _ | .array _ => isFalse id

theorem flat_iff (v : Json) : Flat v ↔ ∀ key, Along NoTable [key] v := by
  cases v with
  | object ms => exact ⟨fun h key m hm _ => h m hm, fun h m hm => h _ m hm rfl⟩
  | null | bool | number | string | array => exact ⟨False.elim, fun h => h ""⟩

theorem along_flat_iff : Along Flat p t ↔ ∀ key, Along NoTable (p ++ [key]) t := by
  induction p generalizing t with
  | nil => exact flat_iff t
  | cons n ns ih =>
    cases t with
    | object ms =>
      constructor
      · exact fun h key m hm hn => ih.mp (h m hm hn) key
      · exact fun h m hm hn => ih.mpr fun key => h key m hm hn
    | null | bool | number | string | array => exact ⟨False.elim, fun h => h ""⟩

theorem fits_iff : Fits t ↔ ∀ S ∈ sections,
    (∀ e ∈ S.fields, Along NoTable [S.name, e.1] t) ∧ ∀ n ∈ S.maps, Along Flat [S.name, n] t := by
  constructor
  · intro h S hS
    exact ⟨fun e he => h _ _ (.mk hS (.field he)),
      fun n hn => along_flat_iff.mpr fun key => h _ _ (.mk hS (.entry hn key))⟩
  · rintro h p k ⟨hS, hp⟩
    cases hp with
    | field he => exact (h _ hS).1 _ he
    | entry hn key => exact along_flat_iff.mp ((h _ hS).2 _ hn) key

instance : DecidablePred Fits := fun _ => decidable_of_iff _ fits_iff.symm

/-! ## Reading a table -/

theorem find?_eq_lookup (ms : List (String × Json)) (n : String) :
    (ms.find? (·.1 == n)).map (·.2) = ms.lookup n := by
  induction ms with
  | nil => rfl
  | cons m ms ih =>
    rw [lookup_cons_eq, List.find?_cons]
    by_cases hn : n = m.1
    · simp [hn]
    · have hne : (m.1 == n) = false := by simpa using Ne.symm hn
      rw [hne, if_neg hn, ih]

/-- A table gives fields by their names. -/
theorem fields?_object {names : List String} {fs : List (Option Json)}
    (h : (Json.object ms).fields? false names = some fs) : fs = names.map (ms.lookup ·) := by
  rw [Json.fields?] at h
  split at h
  · cases h
  · simp only [find?_eq_lookup, Option.some.injEq] at h
    exact h.symm

/-- A field is read from what a table has under its name, and is usual if that is nothing. -/
theorem elim_of_defaulted {α : Type} {read : Json → Option α} {a b : α} {field : Option Json}
    (h : Json.defaulted read a field = some b) (write : α → Json) :
    some (write b) = field.elim (some (write a)) fun v => (read v).map write := by
  cases field with
  | none =>
    obtain rfl := Option.some.inj h
    rfl
  | some v =>
    have hread : read v = some b := h
    rw [Option.elim_some, hread, Option.map_some]

theorem lookup_map_bindings {α : Type} (write : α → Json) (es : List (String × α)) (key : String) :
    (es.map fun e => (e.1, write e.2)).lookup key = (Bindings.get? key es).map write := by
  induction es with
  | nil => rfl
  | cons e es ih =>
    rw [List.map_cons, lookup_cons_eq, Bindings.get?, ih]
    split <;> rfl

theorem at?_ofMap {α : Type} (write : α → Json) (m : SortedMap α) (key : String) :
    at? [key] (Json.ofMap write m) = (m.get? key).map write := by
  rw [at?_singleton, Json.ofMap, membersOf, lookup_map_bindings]
  rfl

/-- A map into which the entries of a table are read has those, and otherwise what it had. -/
theorem get?_foldl_of_mapM {α : Type} {read : Json → Option α} {es : List (String × α)}
    (h : ms.mapM (fun m => (read m.2).map (m.1, ·)) = some es) (hms : (ms.map (·.1)).Nodup)
    (m : SortedMap α) (key : String) :
    (es.foldl (fun m e => m.insert e.1 e.2) m).get? key =
      ((ms.lookup key).bind read).or (m.get? key) := by
  induction ms generalizing es m with
  | nil =>
    obtain rfl := Option.some.inj h
    rfl
  | cons e ms ih =>
    obtain ⟨hnot, hnodup⟩ := List.nodup_cons.mp hms
    simp only [List.mapM_cons, Option.bind_eq_bind, Option.bind_eq_some_iff, Option.map_eq_some_iff,
      Option.pure_def, Option.some.injEq] at h
    obtain ⟨_, ⟨a, ha, rfl⟩, es, hes, rfl⟩ := h
    rw [List.foldl_cons, ih hes hnodup, SortedMap.get?_insert, lookup_cons_eq]
    by_cases hkey : key = e.1
    · subst hkey
      rw [if_pos rfl, if_pos rfl, lookup_eq_none_of_notMem hnot, Option.bind_some, ha]
      rfl
    · rw [if_neg hkey, if_neg hkey]

/-- The entries of a map are read from those of a tidy table, one by one. -/
theorem get?_of_map? {α : Type} {read : Json → Option α} {m : SortedMap α}
    (h : Json.map? read v = some m) (hv : Tidy (membersOf v)) (key : String) :
    m.get? key = (at? [key] v).bind read := by
  obtain ⟨ms, hms, h⟩ := Option.bind_eq_some_iff.mp h
  obtain ⟨es, hes, rfl⟩ := Option.map_eq_some_iff.mp h
  cases v with
  | object ms' =>
    obtain rfl := Option.some.inj hms
    rw [at?_singleton]
    exact (get?_foldl_of_mapM hes hv.nodup .empty key).trans Option.or_none
  | null | bool | number | string | array => cases hms

/-- The entries of a map of texts are read from those of a table, and there are none without it. -/
theorem at?_of_defaulted_texts? {field : Option Json} {m : SortedMap String}
    (h : Json.defaulted (texts? lenient) .empty field = some m)
    (hfield : ∀ v ∈ field, Tidy (membersOf v)) (key : String) :
    at? [key] (Json.ofMap .string m) = (field.bind (at? [key])).elim none Kind.text.read := by
  rw [at?_ofMap]
  cases field with
  | none =>
    obtain rfl := Option.some.inj h
    rfl
  | some v =>
    rw [get?_of_map? h (hfield v rfl), Option.map_bind, Option.bind_some]
    cases at? [key] v <;> rfl

/-! ## Reading the sections -/

/-- The leaves of a section are read from what a tree has at their paths, or else are usual. -/
def Section.Reads (S : Section) (t usual section_ : Json) : Prop :=
  ∀ p k, S.IsLeaf p k → at? p section_ = (at? p t).elim (at? p usual) k.read

theorem Section.reads_of {S : Section} {usual section_ : Json}
    (hfield : ∀ e ∈ S.fields,
      at? [e.1] section_ = (ms.lookup e.1).elim (at? [e.1] usual) e.2.read)
    (hmap : ∀ n ∈ S.maps, ∀ key, at? [n, key] section_ =
      (at? [n, key] (.object ms)).elim (at? [n, key] usual) Kind.text.read) :
    S.Reads (.object ms) usual section_ := by
  rintro p k (he | ⟨hn, key⟩)
  · rw [at?_singleton _ (.object ms)]
    exact hfield _ he
  · exact hmap _ hn key

theorem Project.reads {x : Project} (h : Project.ofJson? lenient (.object ms) = some x)
    (hneat : Neat (.object ms)) : layout.Reads (.object ms) usual.toJson x.toJson := by
  obtain ⟨fs, hfs, h⟩ := Option.bind_eq_some_iff.mp h
  obtain rfl := fields?_object hfs
  simp only [List.map_cons, List.map_nil, Option.bind_eq_bind, Option.bind_eq_some_iff,
    Option.pure_def, Option.some.injEq] at h
  obtain ⟨title, htitle, version, hversion, resources, hresources, capabilities, hcapabilities,
    rfl⟩ := h
  apply Section.reads_of
  · simp only [layout, List.forall_mem_cons]
    exact ⟨elim_of_defaulted htitle Json.string, elim_of_defaulted hversion Json.string,
      elim_of_defaulted hresources fun rs => .array (rs.map resourceToJson), nofun⟩
  · simp only [layout, List.forall_mem_singleton]
    exact at?_of_defaulted_texts? hcapabilities fun v hv => (hneat.of_lookup hv).tidy

theorem Output.reads {x : Output} (h : Output.ofJson? lenient (.object ms) = some x) :
    layout.Reads (.object ms) usual.toJson x.toJson := by
  obtain ⟨fs, hfs, h⟩ := Option.bind_eq_some_iff.mp h
  obtain rfl := fields?_object hfs
  simp only [List.map_cons, List.map_nil, Option.bind_eq_bind, Option.bind_eq_some_iff,
    Option.pure_def, Option.some.injEq] at h
  obtain ⟨dir, hdir, phpDir, hphpDir, tsDir, htsDir, rfl⟩ := h
  apply Section.reads_of
  · simp only [layout, List.forall_mem_cons]
    exact ⟨elim_of_defaulted hdir Json.string, elim_of_defaulted hphpDir Json.string,
      elim_of_defaulted htsDir Json.string, nofun⟩
  · exact nofun

theorem Generation.reads {x : Generation}
    (h : Generation.ofJson? lenient (.object ms) = some x) :
    layout.Reads (.object ms) usual.toJson x.toJson := by
  obtain ⟨fs, hfs, h⟩ := Option.bind_eq_some_iff.mp h
  obtain rfl := fields?_object hfs
  simp only [List.map_cons, List.map_nil, Option.bind_eq_bind, Option.bind_eq_some_iff,
    Option.pure_def, Option.some.injEq] at h
  obtain ⟨dryRun, hdryRun, families, hfamilies, rfl⟩ := h
  apply Section.reads_of
  · simp only [layout, List.forall_mem_cons]
    exact ⟨elim_of_defaulted hdryRun Json.bool, elim_of_defaulted hfamilies Json.strings, nofun⟩
  · exact nofun

theorem Logging.reads {x : Logging} (h : Logging.ofJson? lenient (.object ms) = some x)
    (hneat : Neat (.object ms)) : layout.Reads (.object ms) usual.toJson x.toJson := by
  obtain ⟨fs, hfs, h⟩ := Option.bind_eq_some_iff.mp h
  obtain rfl := fields?_object hfs
  simp only [List.map_cons, List.map_nil, Option.bind_eq_bind, Option.bind_eq_some_iff,
    Option.pure_def, Option.some.injEq] at h
  obtain ⟨enabled, henabled, level, hlevel, format, hformat, output, houtput, file, hfile, color,
    hcolor, modules, hmodules, rfl⟩ := h
  -- The file is read as a text and kept as a path.
  have hfile := elim_of_defaulted hfile fun p => Json.string p.text
  simp only [Option.map_map] at hfile
  apply Section.reads_of
  · simp only [layout, List.forall_mem_cons]
    exact ⟨elim_of_defaulted henabled Json.bool, elim_of_defaulted hlevel Json.string,
      elim_of_defaulted hformat Json.string, elim_of_defaulted houtput Json.string, hfile,
      elim_of_defaulted hcolor Json.bool, nofun⟩
  · simp only [layout, List.forall_mem_singleton]
    exact at?_of_defaulted_texts? hmodules fun v hv => (hneat.of_lookup hv).tidy

/-! ## Reading all -/

theorem Fits.eq_object (h : Fits t) : t = .object (membersOf t) := by
  obtain ⟨ms, rfl⟩ : ∃ ms, t = .object ms :=
    eq_object_of_along (h _ _ (.mk List.mem_cons_self (.field List.mem_cons_self)))
  rfl

/-- The leaves of a section are read from the whole tree, where the section is a table if it is
there at all. -/
theorem at?_of_defaulted_section {α : Type} {S : Section} {k : Kind} {read : Json → Option α}
    {a b : α} (write : α → Json) (hneat : Neat (.object ms))
    (htable : ∀ v, ms.lookup S.name = some v → ∃ ms', v = .object ms')
    (h : Json.defaulted read a (ms.lookup S.name) = some b)
    (hread : ∀ {ms'}, read (.object ms') = some b → Neat (.object ms') →
      S.Reads (.object ms') (write a) (write b)) (hp : S.IsLeaf p k) :
    at? p (write b) = (at? (S.name :: p) (.object ms)).elim (at? p (write a)) k.read := by
  have hat : at? (S.name :: p) (.object ms) = (ms.lookup S.name).bind (at? p) := rfl
  rw [hat]
  cases hv : ms.lookup S.name with
  | none =>
    rw [hv] at h
    obtain rfl := Option.some.inj h
    rfl
  | some v =>
    obtain ⟨ms', rfl⟩ := htable v hv
    rw [hv] at h
    exact hread h (hneat.of_lookup hv) p k hp

/-- Each leaf of a section that is a table, if it is there at all, is read from what stands at its
path, or else is usual. -/
theorem leaf_of_section {S : Section} {k : Kind} (h : ofJson? lenient (.object ms) = some s)
    (hneat : Neat (.object ms)) (hS : S ∈ sections)
    (htable : ∀ v, ms.lookup S.name = some v → ∃ ms', v = .object ms') (hp : S.IsLeaf p k) :
    s.leaf (S.name :: p) =
      (at? (S.name :: p) (.object ms)).elim (usual.leaf (S.name :: p)) k.read := by
  obtain ⟨fs, hfs, h⟩ := Option.bind_eq_some_iff.mp h
  obtain rfl := fields?_object hfs
  simp only [List.map_cons, List.map_nil, Option.bind_eq_bind, Option.bind_eq_some_iff,
    Option.pure_def, Option.some.injEq] at h
  obtain ⟨project, hproject, output, houtput, generation, hgeneration, logging, hlogging, rfl⟩ := h
  simp only [sections, List.mem_cons, List.not_mem_nil, or_false] at hS
  rcases hS with rfl | rfl | rfl | rfl
  · exact at?_of_defaulted_section Project.toJson hneat htable hproject Project.reads hp
  · exact at?_of_defaulted_section Output.toJson hneat htable houtput (fun h _ => Output.reads h) hp
  · exact at?_of_defaulted_section Generation.toJson hneat htable hgeneration
      (fun h _ => Generation.reads h) hp
  · exact at?_of_defaulted_section Logging.toJson hneat htable hlogging Logging.reads hp

end Settings

end StagedCodegen
