import Mathlib.Data.List.TakeWhile
import StagedCodegen.Proofs.Settings.Overriding
import StagedCodegen.Proofs.Settings.Sources
import StagedCodegen.Proofs.Text.Numeral

/-!
# What a variable sets

A text that is set by a variable of the environment is not always the value of that variable. The
value is taken for the truth value or the number that it spells, if it spells one, and the setting
is the text that this is written as (`Settings.textOf`). So `1.10` sets the text `1.1`, and `010`
sets `10`. The values that stay as they are, are those of `Settings.Kept`.

Main statement: `Settings.text_of_variable`.
-/

namespace StagedCodegen

namespace KeyPath

open Text.Lowercase (Stays)

variable {p q : KeyPath} {cs rest : List Char} {k n : String}

/-! ## Keys in small letters -/

theorem lowercase_ofList (h : ∀ c ∈ cs, Stays c) :
    Text.lowercase (String.ofList cs) = String.ofList cs := by
  rw [Text.lowercase, String.toList_ofList, Text.Lowercase.ofChars_eq_self h]

theorem stays_of_lowercase (h : Text.lowercase k = k) : ∀ c ∈ k.toList, Stays c := by
  intro c hc
  rw [← h, Text.lowercase, String.toList_ofList] at hc
  exact Text.Lowercase.stays_of_mem_ofChars hc

/-- A name that is read is at the front of the text. -/
theorem readName?_eq_some (h : readName? cs = some (n, rest)) :
    n = String.ofList (cs.takeWhile isNameChar) ∧ cs.takeWhile isNameChar ≠ [] ∧
      rest = cs.dropWhile isNameChar := by
  rw [readName?] at h
  split at h
  · cases h
  · next hne =>
    obtain ⟨rfl, rfl⟩ := Prod.mk.inj (Option.some.inj h)
    exact ⟨rfl, hne, rfl⟩

theorem readIndex?_suffix {i : Int} (h : readIndex? cs = some (i, rest)) : rest <:+ cs := by
  have hskip : ∀ cs, skipBlanks cs <:+ cs := fun cs => List.dropWhile_suffix _
  simp only [readIndex?] at h
  split at h
  · cases h
  · obtain ⟨-, h⟩ := Option.ite_none_right_eq_some.mp h
    obtain ⟨-, rfl⟩ := Prod.mk.inj (Option.some.inj h)
    refine (List.drop_suffix 1 _).trans ((hskip _).trans ((List.dropWhile_suffix _).trans ?_))
    split
    · exact (List.drop_suffix 1 _).trans (hskip cs)
    · exact hskip cs

/-- What is read behind a path in small letters leads on from it in small letters. -/
theorem readRest?_lower {fuel : Nat} (h : readRest? fuel p cs = some q) (hp : p.Lower)
    (hcs : ∀ c ∈ cs, Stays c) : q.Lower ∧ q.top = p.top := by
  induction fuel generalizing p cs with
  | zero => cases h
  | succ fuel ih =>
    cases cs with
    | nil =>
      obtain rfl := Option.some.inj h
      exact ⟨hp, rfl⟩
    | cons c cs =>
      have htail : ∀ d ∈ cs, Stays d := fun d hd => hcs d (List.mem_cons_of_mem c hd)
      rw [readRest?] at h
      split at h
      · obtain ⟨⟨s, rest⟩, hs, h⟩ := Option.bind_eq_some_iff.mp h
        obtain ⟨rfl, -, rfl⟩ := readName?_eq_some hs
        have hsmall : ∀ d ∈ cs.takeWhile isNameChar, Stays d := fun d hd =>
          htail d ((List.takeWhile_prefix _).subset hd)
        exact ih (p := .child p _) h ⟨hp, lowercase_ofList hsmall⟩
          fun d hd => htail d ((List.dropWhile_suffix _).subset hd)
      · split at h
        · obtain ⟨⟨i, rest⟩, hi, h⟩ := Option.bind_eq_some_iff.mp h
          exact ih (p := .item p i) h hp fun d hd => htail d ((readIndex?_suffix hi).subset hd)
        · cases h

/-- The characters of a name are a path of one name. -/
theorem ofString_ofList (hne : cs ≠ []) (h : ∀ c ∈ cs, isNameChar c = true) :
    ofString (String.ofList cs) = name (String.ofList cs) := by
  have htake : cs.takeWhile isNameChar = cs := List.takeWhile_eq_self_iff.mpr h
  have hdrop : cs.dropWhile isNameChar = [] := List.dropWhile_eq_nil_iff.mpr h
  have hname : readName? cs = some (String.ofList cs, []) := by
    rw [readName?, htake, hdrop]
    cases cs with
    | nil => exact absurd rfl hne
    | cons c cs => rfl
  rw [ofString, String.toList_ofList, hname]
  rfl

/-- A text is a path that is read from its first name on, or it is no path. -/
theorem ofString_cases (k : String) :
    ofString k = name k ∨ ∃ n cs, readName? k.toList = some (n, cs) ∧
      readRest? (cs.length + 1) (.name n) cs = some (ofString k) := by
  unfold ofString
  split
  · next p hread =>
    obtain ⟨⟨n, cs⟩, hn, hp⟩ := Option.bind_eq_some_iff.mp hread
    exact .inr ⟨n, cs, hn, hp⟩
  · exact .inl rfl

/-- A key in small letters is a path in small letters, and settled. -/
theorem settled_ofString (h : Text.lowercase k = k) :
    (ofString k).Lower ∧ (ofString k).Settled := by
  have hstays : ∀ c ∈ k.toList, Stays c := stays_of_lowercase h
  rcases ofString_cases k with hname | ⟨n, cs, hn, hp⟩
  · rw [hname]
    exact ⟨h, by rw [Settled, h, hname]⟩
  · obtain ⟨rfl, hne, rfl⟩ := readName?_eq_some hn
    have hsmall : Text.lowercase (String.ofList (k.toList.takeWhile isNameChar)) =
        String.ofList (k.toList.takeWhile isNameChar) :=
      lowercase_ofList fun c hc => hstays c ((List.takeWhile_prefix _).subset hc)
    obtain ⟨hlower, htop⟩ := readRest?_lower hp hsmall fun c hc =>
      hstays c ((List.dropWhile_suffix _).subset hc)
    have hagain : ofString (ofString k).top = name (ofString k).top := by
      rw [htop]
      exact ofString_ofList hne fun c hc => List.mem_takeWhile_imp hc
    refine ⟨hlower, ?_⟩
    cases hpath : ofString k with
    | name s =>
      rw [hpath] at hlower hagain
      have hs : Text.lowercase s = s := hlower
      rw [Settled, hs]
      exact hagain
    | child p s =>
      rw [hpath] at hlower hagain
      exact ⟨hlower.1, hagain⟩
    | item p i =>
      rw [hpath] at hlower hagain
      exact ⟨hlower, hagain⟩

end KeyPath

namespace Settings

open KeyPath

variable {host : Host} {d : Disk} {env before after : Environment} {workspace : Path} {s : Settings}
  {name k m v : String}

/-! ## Variables -/

theorem mem_replace {c : Char} {needle replacement cs : List Char}
    (h : c ∈ Text.replace needle replacement cs) : c ∈ replacement ∨ c ∈ cs := by
  fun_induction Text.replace needle replacement cs with
  | case1 => exact .inr h
  | case2 a cs hprefix ih =>
    rcases List.mem_append.mp h with h | h
    · exact .inl h
    · exact (ih h).imp_right fun h => List.mem_of_mem_drop h
  | case3 a cs hprefix ih =>
    rcases List.mem_cons.mp h with rfl | h
    · exact .inr List.mem_cons_self
    · exact (ih h).imp_right (List.mem_cons_of_mem a)

/-- Variables set keys in small letters. -/
theorem lowercase_of_variableKey? (h : variableKey? name = some k) : Text.lowercase k = k := by
  simp only [variableKey?] at h
  obtain ⟨-, h⟩ := Option.ite_none_right_eq_some.mp h
  obtain rfl := Option.some.inj h
  refine lowercase_ofList fun c hc => ?_
  rcases mem_replace hc with hc | hc
  · obtain rfl := List.mem_singleton.mp hc
    exact ⟨by decide, by decide⟩
  · exact stays_of_lowercase (Text.lowercase_lowercase name) c (List.mem_of_mem_drop hc)

theorem environmentLayer_append (env env' : Environment) :
    environmentLayer (env ++ env') = environmentLayer env ++ environmentLayer env' :=
  List.filterMap_append

theorem environmentLayer_cons (h : variableKey? name = some k) (v : String) (env : Environment) :
    environmentLayer ((name, v) :: env) = (k, spelled v) :: environmentLayer env := by
  refine List.filterMap_cons_some ?_
  simp only [h, Option.map_some]

theorem settled_environmentLayer {e : String × Json} (he : e ∈ environmentLayer env) :
    (ofString e.1).Lower ∧ (ofString e.1).Settled := by
  obtain ⟨⟨name, value⟩, -, h⟩ := List.mem_filterMap.mp he
  obtain ⟨k, hk, rfl⟩ := Option.map_eq_some_iff.mp h
  exact settled_ofString (lowercase_of_variableKey? hk)

/-- A variable that sets a key is none of those that say where files are. -/
theorem lookup_insert_variable {other : String} (hname : (variableKey? name).isSome = true)
    (hother : variableKey? other = none) (v : String) :
    List.lookup other (before ++ (name, v) :: after) = List.lookup other (before ++ after) := by
  have hne : (other == name) = false := by
    rw [beq_eq_false_iff_ne]
    rintro rfl
    rw [hother] at hname
    cases hname
  rw [List.lookup_append, List.lookup_append, List.lookup_cons, hne]

theorem files_insert_variable (hname : (variableKey? name).isSome = true) (v : String) :
    files host d (before ++ (name, v) :: after) workspace =
      files host d (before ++ after) workspace := by
  have hstage : variableKey? "GENPIPE_ENV" = none := by decide +kernel
  have hconfig : variableKey? "XDG_CONFIG_HOME" = none := by decide +kernel
  have hhome : variableKey? "HOME" = none := by decide +kernel
  simp only [files, existingUserFile?, userFile?, userDirectory?, nonEmpty?, stageFile,
    lookup_insert_variable hname hstage v, lookup_insert_variable hname hconfig v,
    lookup_insert_variable hname hhome v]

/-! ## Texts that stand for others -/

/-- The text that a variable of some value sets. -/
def textOf (v : String) : String := (scalarText? (spelled v)).getD v

/-- The values that a variable sets as they are. -/
inductive Kept (v : String) : Prop
  /-- It spells nothing. -/
  | text (h : spelled v = .string v)
  /-- A truth value in small letters. -/
  | truth (h : v ∈ ["true", "false"])
  /-- A whole number of 64 bits, without a plus or a zero too many, other than minus zero. -/
  | whole {i : Int} (h : spelled v = .int i) (hw : Text.Numeral.Written v.toList) (hz : v ≠ "-0")
  /-- A double as it is written. -/
  | double {bits : UInt64} (h : spelled v = .number (.float bits))
    (hw : Decimal.plain.write bits = v)

/-- What a text spells. -/
theorem spelled_cases (v : String) :
    spelled v = .bool true ∨ spelled v = .bool false ∨
      (∃ i, Text.Numeral.integer? v = some i ∧ spelled v = .int i) ∨
      (∃ bits, spelled v = .number (.float bits)) ∨ spelled v = .string v := by
  rw [spelled]
  split
  · exact .inl rfl
  split
  · exact .inr (.inl rfl)
  split
  · next i hi => exact .inr (.inr (.inl ⟨i, hi, rfl⟩))
  split
  · next bits _ => exact .inr (.inr (.inr (.inl ⟨bits, rfl⟩)))
  · exact .inr (.inr (.inr (.inr rfl)))

theorem scalarText?_spelled (v : String) : scalarText? (spelled v) = some (textOf v) := by
  rw [textOf]
  rcases spelled_cases v with h | h | ⟨i, -, h⟩ | ⟨bits, h⟩ | h <;> rw [h] <;> rfl

theorem textOf_of_spelled {x : Json} {t : String} (h : spelled v = x)
    (hx : scalarText? x = some t) : textOf v = t := by
  rw [textOf, h, hx, Option.getD_some]

theorem textOf_eq_self_iff : textOf v = v ↔ Kept v := by
  constructor
  · intro htext
    rcases spelled_cases v with h | h | ⟨i, hi, h⟩ | ⟨bits, h⟩ | h
    · rw [textOf_of_spelled h rfl] at htext
      exact .truth (by simp [← htext])
    · rw [textOf_of_spelled h rfl] at htext
      exact .truth (by simp [← htext])
    · rw [textOf_of_spelled h rfl] at htext
      obtain ⟨hwritten, hzero⟩ := (Text.Numeral.toString_eq_iff hi).mp htext
      exact .whole h hwritten hzero
    · rw [textOf_of_spelled h rfl] at htext
      exact .double h htext
    · exact .text h
  · rintro (h | h | ⟨h, hwritten, hzero⟩ | ⟨h, hw⟩)
    · exact textOf_of_spelled h rfl
    · have hwords : ∀ w ∈ ["true", "false"], textOf w = w := by decide +kernel
      exact hwords v h
    · rcases spelled_cases v with h' | h' | ⟨j, hj, h'⟩ | ⟨bits, h'⟩ | h'
      all_goals rw [h] at h'
      · cases h'
      · cases h'
      · obtain rfl := Json.Number.int.inj (Json.number.inj h')
        rw [textOf_of_spelled h rfl]
        exact (Text.Numeral.toString_eq_iff hj).mpr ⟨hwritten, hzero⟩
      · cases h'
      · cases h'
    · rwa [textOf_of_spelled h rfl]

/-- A variable whose value spells a number sets a text in the form in which numbers are written. -/
theorem written_textOf {n : Json.Number} (h : spelled v = .number n) :
    Text.Numeral.Written (textOf v).toList := by
  cases n with
  | int i =>
    rw [textOf_of_spelled h rfl]
    exact Text.Numeral.written_toString i
  | float bits =>
    rw [textOf_of_spelled h rfl]
    exact Text.Numeral.written_write bits

/-! ## Settings from variables -/

theorem mem_of_mapM {fs : List Path} {ls : List Layer} {required : Bool}
    (h : fs.mapM (fileLayer host d required) = .ok ls) {l : Layer} (hl : l ∈ ls) :
    ∃ p ∈ fs, fileLayer host d required p = .ok l := by
  induction fs generalizing ls with
  | nil =>
    obtain rfl := Except.ok.inj h
    cases hl
  | cons p fs ih =>
    rw [List.mapM_cons] at h
    cases hp : fileLayer host d required p with
    | error e => rw [hp] at h; cases h
    | ok l' =>
      cases hfs : fs.mapM (fileLayer host d required) with
      | error e => rw [hp, hfs] at h; cases h
      | ok ls' =>
        rw [hp, hfs] at h
        obtain rfl := Except.ok.inj h
        rcases List.mem_cons.mp hl with rfl | hl
        · exact ⟨p, List.mem_cons_self, hp⟩
        · obtain ⟨q, hq, hlayer⟩ := ih hfs hl
          exact ⟨q, List.mem_cons_of_mem p hq, hlayer⟩

/-- The key of a text in a section. -/
theorem ofString_section : ∀ S ∈ sections, ∀ e ∈ S.fields,
    ofString (S.name ++ "." ++ e.1) = within S.name (.name e.1) ∧ Text.lowercase e.1 = e.1 := by
  decide +kernel

/-- A variable overrides what stands at its key. -/
theorem overrides_environmentLayer {S : Section} (hS : S ∈ sections)
    (hm : (m, .text) ∈ S.fields) (hname : variableKey? name = some (S.name ++ "." ++ m))
    (hafter : ∀ e ∈ after, ∀ k ∈ variableKey? e.1, (ofString k).Past S.name m)
    (hv : NoTable (spelled v)) (t : Json) :
    Overrides S.name m (spelled v) (applyLayer t (environmentLayer (before ++ after)))
      (applyLayer t (environmentLayer (before ++ (name, v) :: after))) := by
  obtain ⟨hkey, hsmall⟩ := ofString_section S hS _ hm
  rw [environmentLayer_append, environmentLayer_append, environmentLayer_cons hname,
    applyLayer_append, applyLayer_append, applyLayer_cons, hkey]
  refine overrides_applyLayer (fun e he => ⟨(settled_environmentLayer he).1, ?_⟩)
    (overrides_set hsmall hv _)
  obtain ⟨⟨other, value⟩, hmem, h⟩ := List.mem_filterMap.mp he
  obtain ⟨k, hk, rfl⟩ := Option.map_eq_some_iff.mp h
  exact hafter _ hmem k hk

/-- A variable sets a text, where everything else can be loaded, no later variable sets the same,
and the keys of files are settled. -/
theorem exists_load_of_variable {S : Section} (hS : S ∈ sections) (hm : (m, .text) ∈ S.fields)
    (hname : variableKey? name = some (S.name ++ "." ++ m))
    (hafter : ∀ e ∈ after, ∀ k ∈ variableKey? e.1, (ofString k).Past S.name m)
    (hfiles : ∀ p ∈ files host d (before ++ after) workspace, ∀ l,
      fileLayer host d false p = .ok l → ∀ e ∈ l, (ofString e.1).Settled)
    (hrest : load host d (before ++ after) workspace = .ok s) (v : String) :
    ∃ s', load host d (before ++ (name, v) :: after) workspace = .ok s' ∧
      s'.leaf [S.name, m] = some (.string (textOf v)) := by
  have hinsert : files host d (before ++ (name, v) :: after) workspace =
      files host d (before ++ after) workspace := files_insert_variable (by rw [hname]; rfl) v
  have hno : NoTable (spelled v) :=
    noTable_of_isSome (Option.isSome_of_eq_some (scalarText?_spelled v))
  rw [load] at hrest ⊢
  rw [hinsert]
  cases hls : (files host d (before ++ after) workspace).mapM (fileLayer host d false) with
  | error e => rw [hls] at hrest; cases hrest
  | ok ls =>
    rw [hls] at hrest
    have hsettled : ∀ env, ∀ l ∈ ls ++ [environmentLayer env], ∀ e ∈ l, (ofString e.1).Settled := by
      intro env l hl e he
      rcases List.mem_append.mp hl with hl | hl
      · obtain ⟨p, hp, hlayer⟩ := mem_of_mapM hls hl
        exact hfiles p hp l hlayer e he
      · obtain rfl := List.mem_singleton.mp hl
        exact (settled_environmentLayer he).2
    refine exists_ofLayers_of_overrides hS hm (scalarText?_spelled v) ?_ (hsettled _) (hsettled _)
      hrest
    rw [treeOf_concat, treeOf_concat]
    exact overrides_environmentLayer hS hm hname hafter hno _

/-- **What a variable sets a text to.** Where all the rest can be loaded, so can everything with a
variable for a text, if no later variable leads to the same place, and the keys of files are
settled. The text is then what the value of the variable stands for, which is the value itself just
if this is kept: it spells neither a truth value nor a number, or it is what that is written as. In
a text that is set by a number there is no plus, no power of ten and no zero too many. -/
theorem text_of_variable {S : Section} (hS : S ∈ sections) (hm : (m, .text) ∈ S.fields)
    (hname : variableKey? name = some (S.name ++ "." ++ m))
    (hafter : ∀ e ∈ after, ∀ k ∈ variableKey? e.1, (ofString k).Past S.name m)
    (hfiles : ∀ p ∈ files host d (before ++ after) workspace, ∀ l,
      fileLayer host d false p = .ok l → ∀ e ∈ l, (ofString e.1).Settled)
    (hrest : load host d (before ++ after) workspace = .ok s) (v : String) :
    (∃ s', load host d (before ++ (name, v) :: after) workspace = .ok s' ∧
      s'.leaf [S.name, m] = some (.string (textOf v))) ∧
      (textOf v = v ↔ Kept v) ∧
      ∀ n, spelled v = .number n → Text.Numeral.Written (textOf v).toList :=
  ⟨exists_load_of_variable hS hm hname hafter hfiles hrest v, textOf_eq_self_iff,
    fun _ => written_textOf⟩

theorem project_mem_sections : Project.layout ∈ sections := List.mem_cons_self

theorem variableKey?_version : variableKey? "GENPIPE__PROJECT__VERSION" =
    some (Project.layout.name ++ "." ++ "version") := by
  decide +kernel

theorem version_eq_of_leaf {t : String} (h : s.leaf ["project", "version"] = some (.string t)) :
    s.project.version = t := Json.string.inj (Option.some.inj h)

/-- A version with a zero in front is set without it, whatever else is set after it. -/
theorem text_of_variable_padded :
    let before : Environment := [("HOME", "/home")]
    let after : Environment := [("GENPIPE__PROJECT__NAMESPACE", "acme")]
    ∃ s, load .bare layeredDisk (before ++ ("GENPIPE__PROJECT__VERSION", "010") :: after) ⟨"/"⟩
        = .ok s ∧
      s.project.version = "10" := by
  intro before after
  have hafter : ∀ e ∈ after, ∀ k ∈ variableKey? e.1, (ofString k).Past "project" "version" := by
    intro e he k hk
    obtain rfl := List.mem_singleton.mp he
    have hkey : variableKey? "GENPIPE__PROJECT__NAMESPACE" = some "project.namespace" := by
      decide +kernel
    obtain rfl := Option.some.inj (hkey.symm.trans hk)
    exact .inr ⟨.name "namespace", by decide +kernel, by decide⟩
  have hfiles : ∀ p ∈ files .bare layeredDisk (before ++ after) ⟨"/"⟩, ∀ l,
      fileLayer .bare layeredDisk false p = .ok l → ∀ e ∈ l, (ofString e.1).Settled := by
    intro p hp l hl
    have hall : ∀ p ∈ files .bare layeredDisk (before ++ after) ⟨"/"⟩,
        ∀ e ∈ (fileLayer .bare layeredDisk false p).toOption.getD [], (ofString e.1).Settled := by
      decide +kernel
    have hlayer := hall p hp
    rwa [hl] at hlayer
  obtain ⟨s₀, hrest⟩ : ∃ s, load .bare layeredDisk (before ++ after) ⟨"/"⟩ = .ok s :=
    exists_ok_of_isSome (by decide +kernel)
  obtain ⟨⟨s, hs, hleaf⟩, -⟩ := text_of_variable project_mem_sections (by decide)
    variableKey?_version hafter hfiles hrest "010"
  have htext : textOf "010" = "10" := by decide +kernel
  exact ⟨s, hs, htext ▸ version_eq_of_leaf hleaf⟩

/-- Without any files, settings can be loaded; and with a variable that sets the version to a number
that ends in a zero, the version is another. -/
theorem version_is_shortened :
    (load .bare ⟨[], []⟩ [] ⟨"."⟩).toOption.isSome = true ∧
      ∃ s, load .bare ⟨[], []⟩ [("GENPIPE__PROJECT__VERSION", "1.10")] ⟨"."⟩ = .ok s ∧
        s.project.version ≠ "1.10" := by
  have hnofiles : files .bare ⟨[], []⟩ ([] ++ []) ⟨"."⟩ = [] :=
    List.eq_nil_of_length_eq_zero (by decide +kernel)
  obtain ⟨s₀, hrest⟩ : ∃ s, load .bare ⟨[], []⟩ ([] ++ []) ⟨"."⟩ = .ok s :=
    exists_ok_of_isSome (by decide +kernel)
  obtain ⟨s, hs, hleaf⟩ := exists_load_of_variable project_mem_sections (by decide)
    variableKey?_version (fun _ he => absurd he List.not_mem_nil)
    (fun _ hp => absurd (hnofiles ▸ hp) List.not_mem_nil) hrest "1.10"
  refine ⟨by decide +kernel, s, hs, fun hversion => ?_⟩
  have htext : textOf "1.10" = "1.10" := (version_eq_of_leaf hleaf).symm.trans hversion
  obtain ⟨n, hn⟩ : ∃ n, spelled "1.10" = .number n := by
    have hbool : (spelled "1.10").bool? = none := by decide +kernel
    have hstring : (spelled "1.10").string? = none := by decide +kernel
    rcases spelled_cases "1.10" with h | h | ⟨i, -, h⟩ | ⟨bits, h⟩ | h
    · rw [h] at hbool
      cases hbool
    · rw [h] at hbool
      cases hbool
    · exact ⟨_, h⟩
    · exact ⟨_, h⟩
    · rw [h] at hstring
      cases hstring
  have hwritten := written_textOf hn
  rw [htext] at hwritten
  exact hwritten.getLast?_ne_zero (by decide) (by decide)

end Settings

end StagedCodegen
