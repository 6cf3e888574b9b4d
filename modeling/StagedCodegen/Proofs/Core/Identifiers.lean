import StagedCodegen.Proofs.Core.Literals
import StagedCodegen.Proofs.Core.Queue

/-!
# The names that sources declare

Four names stand in the sources of a resource: the namespace and the class of its controller, and
the constant and the function of its client. They are made of the words of a text, so there are only
letters and digits in them, and none of them is empty (`declared_plain`). But words can begin with a
digit, and then so do the namespace, the class and the constant. Only the function cannot, as it has
a word of its own before them. Nobody asks a text for more than a letter or digit.

Main statement: `names_are_identifiers_iff`.
-/

namespace StagedCodegen

open StagedCodegen.Representation

variable {κ : Type} {o : RunOptions}

/-! ## Identifiers -/

namespace Text

/-- The first letter or digit, if there is one, is a letter. -/
def LetterFirst (s : String) : Prop := ∀ c, initial? s = some c → c.isAlpha = true

/-- A name that begins with an ASCII letter and goes on with ASCII letters and digits. -/
def IsIdentifier (name : String) : Prop :=
  name.toList.head?.any Char.isAlpha = true ∧ ∀ c ∈ name.toList, isWordChar c = true

instance (name : String) : Decidable (IsIdentifier name) :=
  inferInstanceAs (Decidable (_ ∧ _))

end Text

namespace Core

open Text (IsIdentifier LetterFirst initial? isWordChar)

variable {name : String} {d : Data} {c : Resource}

/-! ## Names in sources -/

/-- The namespace of controllers. -/
def namespaceName (d : Data) : String := Text.pascalCase d.identity.slug

/-- The class of a resource's controller. -/
def className (c : Resource) : String := Text.pascalCase c.name ++ "Controller"

/-- The constant in a resource's client. -/
def constantName (c : Resource) : String := Text.camelCase c.name ++ "Route"

/-- The function in a resource's client. -/
def functionName (c : Resource) : String := "fetch" ++ Text.pascalCase c.name

/-- The names in the sources of a resource. -/
def declared (d : Data) (c : Resource) : List String :=
  [namespaceName d, className c, constantName c, functionName c]

/-- In a line of the text the name stands after an opening, and what follows is no part of it. -/
structure Names (text opening name ending : String) : Prop where
  /-- This is the line. -/
  line : ∃ before line after, text = ofLines (before ++ line :: after) ∧
    line = opening ++ name ++ ending
  /-- The name ends here. -/
  ends : ∀ x, ending.toList.head? = some x → isWordChar x = false

theorem names_namespaceName (d : Data) (c : Resource) :
    Names (phpController d c) "namespace " (namespaceName d) "\\Rest;" where
  line := ⟨["<?php", banner d, "declare(strict_types=1);", ""], _, _, rfl, rfl⟩
  ends := by rintro x ⟨⟩; rfl

theorem names_className (d : Data) (c : Resource) :
    Names (phpController d c) "final class " (className c) "" where
  line := ⟨["<?php", banner d, "declare(strict_types=1);", "",
    "namespace " ++ namespaceName d ++ "\\Rest;", ""], _, _, rfl,
    by rw [className, String.append_empty, String.append_assoc]⟩
  ends := nofun

theorem names_constantName (d : Data) (c : Resource) :
    Names (tsClient d c) "export const " (constantName c)
      (" = " ++ Quoting.json.literal c.route ++ ";") where
  line := ⟨[banner d], _, _, tsClient_eq d c, by simp only [constantName, String.append_assoc]⟩
  ends := by
    rw [String.toList_append, String.toList_append]
    rintro x ⟨⟩
    rfl

theorem names_functionName (d : Data) (c : Resource) :
    Names (tsClient d c) "export async function " (functionName c)
      "(init?: RequestInit): Promise<Response> \x7b" where
  line := ⟨_ :: _ :: [""], _, _, rfl, by
    have hword : "export async function fetch" = "export async function " ++ "fetch" := rfl
    rw [hword, functionName]
    simp only [String.append_assoc]⟩
  ends := by rintro x ⟨⟩; rfl

theorem names_constantName_again (d : Data) (c : Resource) :
    Names (tsClient d c) "  return fetch(" (constantName c) ", init);" where
  line := ⟨_ :: _ :: _ :: [_], _, _, rfl, rfl⟩
  ends := by rintro x ⟨⟩; rfl

/-! ## What they are made of -/

theorem isWordChar_of_mem_append {s t : String} (hs : ∀ x ∈ s.toList, isWordChar x = true)
    (ht : ∀ x ∈ t.toList, isWordChar x = true) : ∀ x ∈ (s ++ t).toList, isWordChar x = true := by
  rw [String.toList_append]
  exact List.forall_mem_append.mpr ⟨hs, ht⟩

theorem isWordChar_of_mem_className :
    ∀ x ∈ (className c).toList, isWordChar x = true :=
  isWordChar_of_mem_append Text.isWordChar_of_mem_pascalCase (List.all_eq_true.mp rfl)

theorem isWordChar_of_mem_constantName :
    ∀ x ∈ (constantName c).toList, isWordChar x = true :=
  isWordChar_of_mem_append Text.isWordChar_of_mem_camelCase (List.all_eq_true.mp rfl)

theorem isWordChar_of_mem_functionName :
    ∀ x ∈ (functionName c).toList, isWordChar x = true :=
  isWordChar_of_mem_append (List.all_eq_true.mp rfl) Text.isWordChar_of_mem_pascalCase

/-- A change of case does not make a letter of a digit, or a digit of a letter. -/
theorem letterFirst_iff {f : Char → Char} (hf : ∀ x, (f x).isAlpha = x.isAlpha) {s : String}
    {other : Option Char} (hother : other.any Char.isAlpha = true) :
    LetterFirst s ↔ (((initial? s).map f).or other).any Char.isAlpha = true := by
  rw [LetterFirst]
  cases initial? s with
  | none => simpa using hother
  | some x => simp [hf]

theorem isIdentifier_className_iff : IsIdentifier (className c) ↔ LetterFirst c.name := by
  have hhead : (className c).toList.head? = ((initial? c.name).map Char.toUpper).or (some 'C') := by
    rw [className, String.toList_append, List.head?_append, Text.head?_pascalCase]
    rfl
  rw [IsIdentifier, and_iff_left isWordChar_of_mem_className, hhead]
  exact (letterFirst_iff Char.isAlpha_toUpper_eq_isAlpha rfl).symm

theorem isIdentifier_constantName_iff : IsIdentifier (constantName c) ↔ LetterFirst c.name := by
  have hhead : (constantName c).toList.head? =
      ((initial? c.name).map Char.toLower).or (some 'R') := by
    rw [constantName, String.toList_append, List.head?_append, Text.head?_camelCase]
    rfl
  rw [IsIdentifier, and_iff_left isWordChar_of_mem_constantName, hhead]
  exact (letterFirst_iff Char.isAlpha_toLower_eq_isAlpha rfl).symm

theorem isWordChar_of_mem_namespaceName :
    ∀ x ∈ (namespaceName d).toList, isWordChar x = true := Text.isWordChar_of_mem_pascalCase

/-- The word before it saves the function. -/
theorem isIdentifier_functionName (c : Resource) : IsIdentifier (functionName c) := by
  have hhead : (functionName c).toList.head? = some 'f' := by
    rw [functionName, String.toList_append, List.head?_append]
    rfl
  exact ⟨by rw [hhead]; rfl, isWordChar_of_mem_functionName⟩

theorem exists_initial?_of_speakable (h : Speakable o) : ∃ x, initial? (usedTitle o) = some x :=
  Option.isSome_iff_exists.mp (List.find?_isSome.mpr h)

theorem head?_namespaceName (hslug : d.identity.slug = Text.slug (usedTitle o)) :
    (namespaceName d).toList.head? = (initial? (usedTitle o)).map Char.toUpper := by
  have hcapital : Char.toUpper ∘ Char.toLower = Char.toUpper :=
    funext Char.toUpper_toLower_eq_toUpper
  rw [namespaceName, hslug, Text.head?_pascalCase, Text.initial?_slug, Option.map_map, hcapital]

/-- Where there is a letter or digit at all, the namespace begins with the first of them. -/
theorem isIdentifier_namespaceName_iff (hslug : d.identity.slug = Text.slug (usedTitle o))
    (h : Speakable o) : IsIdentifier (namespaceName d) ↔ LetterFirst (usedTitle o) := by
  obtain ⟨x, hx⟩ := exists_initial?_of_speakable h
  rw [IsIdentifier, and_iff_left isWordChar_of_mem_namespaceName,
    head?_namespaceName hslug, LetterFirst, hx]
  simp [Char.isAlpha_toUpper_eq_isAlpha]

/-- There are letters and digits in the names and nothing else, and at least one. -/
theorem declared_plain (hslug : d.identity.slug = Text.slug (usedTitle o)) (h : Speakable o) :
    ∀ name ∈ declared d c, name ≠ "" ∧ ∀ x ∈ name.toList, isWordChar x = true := by
  have hnamespace : namespaceName d ≠ "" := by
    obtain ⟨x, hx⟩ := exists_initial?_of_speakable h
    have hhead := head?_namespaceName hslug
    rintro hempty
    rw [hempty, hx] at hhead
    cases hhead
  have happend : ∀ s t : String, t ≠ "" → s ++ t ≠ "" := fun s t ht hst =>
    ht (String.append_eq_empty_iff.mp hst).2
  simp only [declared, List.forall_mem_cons, List.not_mem_nil, false_imp_iff, implies_true,
    and_true]
  refine ⟨⟨hnamespace, isWordChar_of_mem_namespaceName⟩,
    ⟨happend _ _ (by decide), isWordChar_of_mem_className⟩,
    ⟨happend _ _ (by decide), isWordChar_of_mem_constantName⟩,
    ⟨fun hempty => ?_, isWordChar_of_mem_functionName⟩⟩
  exact absurd (String.append_eq_empty_iff.mp hempty).1 (by decide)

/-! ## Runs -/

/-- **Which of the names that sources declare are identifiers.** In every run of the core helpers
alone that succeeds, the names are in the sources, they have letters and digits only, and none is
empty. The namespace is an identifier just if the first letter or digit of the namespace of the
settings is a letter. The class and the constant of a resource are just if its name has a letter
first, or neither letters nor digits. The function always is. -/
theorem names_are_identifiers_iff {p q : Pipeline κ} {w : World κ} {r : RunResult} {s : Session κ}
    (hempty : p.registry = .empty) (halone : p.extensions = [])
    (hcore : registerAll p = (.ok (), q)) (hrun : q.run o w = (.ok r, s)) :
    let d := r.artifact.data
    (∀ c, Names (phpController d c) "namespace " (namespaceName d) "\\Rest;" ∧
        Names (phpController d c) "final class " (className c) "" ∧
        Names (tsClient d c) "export const " (constantName c)
          (" = " ++ Quoting.json.literal c.route ++ ";") ∧
        Names (tsClient d c) "export async function " (functionName c)
          "(init?: RequestInit): Promise<Response> \x7b" ∧
        Names (tsClient d c) "  return fetch(" (constantName c) ", init);") ∧
      (∀ c, ∀ name ∈ declared d c, name ≠ "" ∧ ∀ x ∈ name.toList, isWordChar x = true) ∧
      (IsIdentifier (namespaceName d) ↔ LetterFirst (usedTitle o)) ∧
      ∀ c, (IsIdentifier (className c) ↔ LetterFirst c.name) ∧
        (IsIdentifier (constantName c) ↔ LetterFirst c.name) ∧ IsIdentifier (functionName c) := by
  obtain ⟨m, hm, hartifact⟩ := exists_identity_of_run hempty halone hcore hrun
  obtain ⟨hspeakable, hslug⟩ := speakable_of_identity hm
  have hdata : r.artifact.data.identity.slug = Text.slug (usedTitle o) := by
    rw [hartifact]
    exact hslug
  exact ⟨fun c => ⟨names_namespaceName _ c, names_className _ c, names_constantName _ c,
      names_functionName _ c, names_constantName_again _ c⟩,
    fun c => declared_plain hdata hspeakable, isIdentifier_namespaceName_iff hdata hspeakable,
    fun c => ⟨isIdentifier_className_iff, isIdentifier_constantName_iff,
      isIdentifier_functionName c⟩⟩

/-- A project of this namespace, with resources of these names. -/
def called (title : String) (names : List String) : RunOptions := { sharing with
  title := title
  settings := { sharing.settings with
    project := ⟨title, "0.1.0", names.map fun name => ⟨name, "/" ++ name, none⟩, .empty⟩ } }

/-- The digit comes first in one of the resources and last in the other. -/
theorem names_are_identifiers_iff_digits : ∃ (r : RunResult) (s : Session Unit),
    (.new : Pipeline Unit).registry = .empty ∧ (.new : Pipeline Unit).extensions = [] ∧
      registerAll (.new : Pipeline Unit) = (.ok (), alone) ∧
      alone.run (called "(acme) 2" ["7up", "up-7"]) ⟨⟨[], []⟩, [], [], ()⟩ = (.ok r, s) ∧
      IsIdentifier (namespaceName r.artifact.data) ∧
      ¬IsIdentifier (className ⟨"7up", "/7up", none⟩) ∧
      ¬IsIdentifier (constantName ⟨"7up", "/7up", none⟩) ∧
      IsIdentifier (className ⟨"up-7", "/up-7", none⟩) := by
  have hspeakable : Speakable (called "(acme) 2" ["7up", "up-7"]) := by decide +kernel
  have hcore : registerAll (.new : Pipeline Unit) = (.ok (), alone) := registerAll_eq rfl
  obtain ⟨r, s, hrun⟩ : ∃ r s, alone.run (called "(acme) 2" ["7up", "up-7"])
      ⟨⟨[], []⟩, [], [], ()⟩ = (.ok r, s) := exists_run_of_speakable hspeakable usualFamilies _
  obtain ⟨-, -, hnamespace, hnames⟩ := names_are_identifiers_iff rfl rfl hcore hrun
  have hdigit : ¬LetterFirst "7up" := fun h => absurd (h '7' rfl) (by decide)
  have hletter : ∀ {text : String} {x : Char}, initial? text = some x → x.isAlpha = true →
      LetterFirst text := fun hx halpha y hy => Option.some.inj (hx.symm.trans hy) ▸ halpha
  exact ⟨r, s, rfl, rfl, hcore, hrun, hnamespace.mpr (hletter (x := 'a') (by rfl) (by decide)),
    mt (hnames _).1.mp hdigit, mt (hnames _).2.1.mp hdigit,
    (hnames _).1.mpr (hletter (x := 'u') (by rfl) (by decide))⟩

/-- Nothing is wrong with the settings and they can be run, but three of the four names are no
identifiers. -/
theorem digits_come_first : (called "1st" ["7up"]).settings.problems = [] ∧
    ∃ (r : RunResult) (s : Session Unit) (c : Resource),
      alone.run (called "1st" ["7up"]) ⟨⟨[], []⟩, [], [], ()⟩ = (.ok r, s) ∧
      r.artifact.data.resources = [c] ∧
      Names (phpController r.artifact.data c) "namespace " "1st" "\\Rest;" ∧
      Names (phpController r.artifact.data c) "final class " "7upController" "" ∧
      Names (tsClient r.artifact.data c) "export const " "7upRoute"
        (" = " ++ Quoting.json.literal c.route ++ ";") ∧
      ¬IsIdentifier "1st" ∧ ¬IsIdentifier "7upController" ∧ ¬IsIdentifier "7upRoute" := by
  have hspeakable : Speakable (called "1st" ["7up"]) := by decide +kernel
  have hcore : registerAll (.new : Pipeline Unit) = (.ok (), alone) := registerAll_eq rfl
  obtain ⟨r, s, hrun⟩ : ∃ r s, alone.run (called "1st" ["7up"]) ⟨⟨[], []⟩, [], [], ()⟩ =
    (.ok r, s) := exists_run_of_speakable hspeakable usualFamilies _
  obtain ⟨m, hm, hartifact⟩ := exists_identity_of_run rfl rfl hcore hrun
  have hnamespace : namespaceName r.artifact.data = "1st" := by
    have hslug : Text.pascalCase (Text.slug (usedTitle (called "1st" ["7up"]))) = "1st" := by
      decide +kernel
    rw [hartifact, ← hslug, ← (speakable_of_identity hm).2]
    rfl
  have hresources : r.artifact.data.resources = [⟨"7up", "/7up", none⟩] := by
    have hvalues : (resourceMap (called "1st" ["7up"]).settings.project.resources).values =
        [⟨"7up", "/7up", none⟩] := by decide +kernel
    rw [hartifact, ← hvalues]
    rfl
  refine ⟨by decide +kernel, r, s, _, hrun, hresources, ?_, names_className _ _,
    names_constantName _ _, by decide +kernel, by decide +kernel, by decide +kernel⟩
  rw [← hnamespace]
  exact names_namespaceName _ _

end Core

end StagedCodegen
