import StagedCodegen.Text.Blank
import StagedCodegen.Text.Split

/-!
# Paths as written

A path is the text that somebody wrote; nothing is simplified until it is asked for. What a path
means is its list of components: repeated slashes, a slash at the end and a `.` after the start do
not count. Two spellings with the same components are the same path for every question except
printing.
-/

namespace StagedCodegen

/-- A path, as it was written. -/
structure Path where
  /-- The text. -/
  text : String
deriving DecidableEq, Repr, Inhabited

namespace Path

/-- One step of a path. -/
inductive Component where
  /-- The root directory, at the start of an absolute path. -/
  | root
  /-- The current directory, at the start of a relative path. -/
  | here
  /-- The parent directory. -/
  | up
  /-- An entry of a directory. -/
  | name (s : List Char)
deriving DecidableEq, Repr

/-! ## Components -/

/-- What a piece between slashes means after the start of a path. -/
def pieceComponent : List Char → Option Component
  | [] => none
  | ['.'] => none
  | ['.', '.'] => some .up
  | s => some (.name s)

/-- What the pieces between slashes mean after the start of a path. -/
def pieceComponents (ps : List (List Char)) : List Component := ps.filterMap pieceComponent

/-- The components of a path's text. -/
def parse : List Char → List Component
  | '/' :: cs => .root :: pieceComponents (Text.split '/' cs)
  | cs =>
    match Text.split '/' cs with
    | ['.'] :: ps => .here :: pieceComponents ps
    | ps => pieceComponents ps

/-- The components of a path. -/
def components (p : Path) : List Component := parse p.text.toList

/-- The path is independent of the current directory. -/
def isAbsolute (p : Path) : Bool := p.text.toList.head? == some '/'

/-- The paths have the same components. -/
def same (p q : Path) : Bool := p.components == q.components

/-- The components of `q` come first in `p`. -/
def startsWith (p q : Path) : Bool := q.components.isPrefixOf p.components

/-- The path without slashes at its end, the root directory aside. -/
def withoutEndSlashes (p : Path) : Path :=
  match Text.dropEndWhile (· == '/') p.text.toList with
  | [] => if p.isAbsolute then ⟨"/"⟩ else p
  | cs => ⟨String.ofList cs⟩

/-! ## Joining -/

/-- Put a text behind another with one slash between them. -/
def glue (a b : List Char) : List Char :=
  if a = [] ∨ a.getLast? = some '/' then a ++ b else a ++ '/' :: b

/-- The path `q` as seen from `p`. An absolute `q` stands for itself, and an empty one leaves a
slash at the end. -/
def join (p q : Path) : Path :=
  if q.isAbsolute then q else ⟨String.ofList (glue p.text.toList q.text.toList)⟩

/-- The text of one component. -/
def Component.text : Component → List Char
  | .root => ['/']
  | .here => ['.']
  | .up => ['.', '.']
  | .name s => s

/-- A path that is written with just these components. -/
def ofComponents (cs : List Component) : Path :=
  ⟨String.ofList (cs.foldl (fun acc c => if c = .root then ['/'] else glue acc c.text) [])⟩

/-! ## The last component -/

/-- A piece that means nothing after the start of a path. -/
def isIdle (p : List Char) : Bool := p == [] || p == ['.']

/-- Cut idle pieces off the end, but not the first piece. -/
def dropIdleEnd : List (List Char) → List (List Char)
  | [] => []
  | p :: ps => p :: (ps.reverse.dropWhile isIdle).reverse

/-- The text of pieces, which is a slash if nothing but the start of an absolute path is left. -/
def ofPieces : List (List Char) → Path
  | [[]] => ⟨"/"⟩
  | ps => ⟨String.ofList (Text.joinWith ['/'] ps)⟩

/-- The path without its last component. The root and the empty path have no parent. -/
def parent? (p : Path) : Option Path :=
  match p.components.getLast? with
  | none => none
  | some .root => none
  | some _ =>
    match (dropIdleEnd (Text.split '/' p.text.toList)).dropLast with
    | [] => some ⟨""⟩
    | ps => some (ofPieces (dropIdleEnd ps))

/-- The last component, if it is a name. -/
def fileName? (p : Path) : Option String :=
  match p.components.getLast? with
  | some (.name s) => some (String.ofList s)
  | _ => none

/-- The path with another name at its end, which is added if it does not end in a name. -/
def withFileName (p : Path) (name : String) : Path :=
  match p.fileName? with
  | some _ => ((p.parent?).getD ⟨""⟩).join ⟨name⟩
  | none => p.join ⟨name⟩

/-- What follows the last point of the last name, unless the name starts with that point. -/
def extension? (p : Path) : Option String :=
  p.fileName?.bind fun name =>
    match Text.splitOnce '.' name.toList.reverse with
    | some (ext, _ :: _) => some (String.ofList ext.reverse)
    | _ => none

/-- Drop the pieces of one component from the front. -/
def dropPiece (ps : List (List Char)) : List (List Char) := (ps.dropWhile isIdle).drop 1

/-- What follows the components of `root` in a path that starts with them. -/
def stripPrefix? (p root : Path) : Option Path :=
  if !p.startsWith root then none
  else
    let ps := dropIdleEnd (Text.split '/' p.text.toList)
    match root.components with
    | [] => if p.text.isEmpty then some p else some (ofPieces ps)
    | _ :: cs =>
      let rest := cs.foldl (fun ps _ => dropPiece ps) (ps.drop 1)
      some ⟨String.ofList (Text.joinWith ['/'] (rest.dropWhile isIdle))⟩

/-! ## Lexical normal form -/

/-- Add one component to a path in normal form whose components are given last to first: `.` is
dropped, `..` takes the last name away or, in front of a relative path, stays. -/
def collapseStep : List Component → Component → List Component
  | stack, .here => stack
  | stack, .root => .root :: stack
  | stack, .name s => .name s :: stack
  | [], .up => [.up]
  | .root :: stack, .up => .root :: stack
  | .name _ :: stack, .up => stack
  | .up :: stack, .up => .up :: .up :: stack
  | .here :: stack, .up => .up :: .here :: stack

/-- The components of the normal form, first to last. -/
def collapse (cs : List Component) : List Component := (cs.foldl collapseStep []).reverse

/-- The path without `.`, and with each `..` taken against the name before it. -/
def normalize (p : Path) : Path := ofComponents (collapse p.components)

end Path

end StagedCodegen
