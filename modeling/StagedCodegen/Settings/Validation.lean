import StagedCodegen.Settings
import StagedCodegen.Text.Blank

/-!
# Validation

What can be wrong with settings that could be read. All problems are listed, except that the output
directories have at most one between them.

Main statement: `problems_eq_nil_iff` says of which settings nothing is wrong.
-/

namespace StagedCodegen

namespace Settings

/-- What can be wrong with an output directory. -/
inductive DirectoryProblem where
  /-- It is blank. -/
  | blank
  /-- It is not relative to the workspace. -/
  | absolute
  /-- It goes up to a parent directory. -/
  | climbs
deriving DecidableEq, Repr

/-- Something wrong with settings. -/
inductive Problem where
  /-- The namespace is blank. -/
  | blankNamespace
  /-- The name of a resource is blank. -/
  | blankName (resource : String)
  /-- An earlier resource has the same name. -/
  | duplicateName (resource : String)
  /-- The route of a resource does not begin at the root. -/
  | relativeRoute (resource route : String)
  /-- An output directory cannot be used. -/
  | directory (label value : String) (problem : DirectoryProblem)
  /-- One of the required families is blank. -/
  | blankFamily
deriving DecidableEq, Repr

/-- The text of a problem. -/
def Problem.text : Problem → String
  | blankNamespace => "Project: namespace cannot be empty"
  | blankName resource => "Resource '" ++ resource ++ "': name cannot be empty"
  | duplicateName resource => "Resource '" ++ resource ++ "': duplicate resource name"
  | relativeRoute resource route =>
    "Resource '" ++ resource ++ "': route must start with '/': " ++ route
  | directory label _ .blank => "Output: " ++ label ++ " cannot be empty"
  | directory label value .absolute =>
    "Output: " ++ label ++ " must be relative to the workspace: " ++ value
  | directory label value .climbs => "Output: " ++ label ++ " cannot contain '..': " ++ value
  | blankFamily => "Generation: required families cannot contain empty entries"

/-- What is wrong with an output directory. -/
def directoryProblem? (value : String) : Option DirectoryProblem :=
  if Text.isBlankText value then some .blank
  else if (Path.mk value).isAbsolute then some .absolute
  else if .up ∈ (Path.mk value).components then some .climbs
  else none

/-- The output directories with their names. -/
def Output.directories (o : Output) : List (String × String) :=
  [("dir", o.dir), ("php_dir", o.phpDir), ("ts_dir", o.tsDir)]

/-- The first problem of the output directories. -/
def Output.problem? (o : Output) : Option Problem :=
  o.directories.findSome? fun (label, value) =>
    (directoryProblem? value).map (.directory label value)

/-- What is wrong with a resource that follows others of these names. -/
def resourceProblems (earlier : List String) (r : Representation.Resource) : List Problem :=
  (if Text.isBlankText r.name then [.blankName r.name] else []) ++
    (if r.name ∈ earlier then [.duplicateName r.name] else []) ++
    (if (Path.mk r.route).isAbsolute then [] else [.relativeRoute r.name r.route])

/-- What is wrong with resources that follow others of these names. -/
def resourcesProblems : (earlier : List String) → List Representation.Resource → List Problem
  | _, [] => []
  | earlier, r :: rs => resourceProblems earlier r ++ resourcesProblems (r.name :: earlier) rs

/-- All that is wrong with settings. -/
def problems (s : Settings) : List Problem :=
  (if Text.isBlankText s.project.title then [.blankNamespace] else []) ++
    resourcesProblems [] s.project.resources ++
    s.output.problem?.toList ++
    (if s.generation.requiredFamilies.any Text.isBlankText then [.blankFamily] else [])

theorem resourcesProblems_eq_nil_iff {earlier : List String}
    {rs : List Representation.Resource} :
    resourcesProblems earlier rs = [] ↔
      (∀ r ∈ rs, Text.isBlankText r.name = false ∧ (Path.mk r.route).isAbsolute = true ∧
        r.name ∉ earlier) ∧ (rs.map (·.name)).Nodup := by
  induction rs generalizing earlier with
  | nil => simp [resourcesProblems]
  | cons r rs ih =>
    simp only [resourcesProblems, List.append_eq_nil_iff, ih, resourceProblems]
    simp only [ite_eq_right_iff, ite_eq_left_iff, List.cons_ne_self, List.map_cons,
      List.nodup_cons, List.mem_map, List.mem_cons]
    grind

/-- Nothing is wrong exactly with settings that have a namespace, resources with names of their own
and absolute routes, directories inside the workspace, and families that have names. -/
theorem problems_eq_nil_iff {s : Settings} :
    s.problems = [] ↔
      Text.isBlankText s.project.title = false ∧
      (∀ r ∈ s.project.resources,
        Text.isBlankText r.name = false ∧ (Path.mk r.route).isAbsolute = true) ∧
      (s.project.resources.map (·.name)).Nodup ∧
      (∀ d ∈ s.output.directories, directoryProblem? d.2 = none) ∧
      (∀ f ∈ s.generation.requiredFamilies, Text.isBlankText f = false) := by
  simp only [problems, List.append_eq_nil_iff, resourcesProblems_eq_nil_iff, Output.problem?]
  simp only [ite_eq_right_iff, List.cons_ne_self, Option.toList_eq_nil_iff,
    List.findSome?_eq_none_iff, Option.map_eq_none_iff, List.any_eq_true]
  grind

end Settings

end StagedCodegen
