import StagedCodegen.Path

/-!
# Directory trees

The files that a run works on, as one value: directories, regular files and symbolic links, each at
its place below the root, and a current directory. Paths are resolved as an operating system does
it, one step at a time and through at most forty links; every operation gives a new tree or says
why it could not.

Main statements: `lookup_set` and `lookup_erase` say what one change does to every place, and
`walk_name` what one step of a walk does.
-/

namespace StagedCodegen

/-! ## Faults -/

/-- Why an operation on a tree failed. -/
inductive FaultKind where
  /-- There is nothing at the path. -/
  | notFound
  /-- The path goes on below something that is no directory. -/
  | notADirectory
  /-- There is a directory where a file was expected. -/
  | isADirectory
  /-- There is something at the path already. -/
  | alreadyExists
  /-- The path goes through too many links. -/
  | tooManyLinks
  /-- A name or the whole path is too long. -/
  | nameTooLong
  /-- The path cannot be used for this. -/
  | busy
  /-- The path holds a NUL character. -/
  | badName
  /-- Whatever else a caller reports. -/
  | other
deriving DecidableEq, Repr

/-- A failed operation on a tree, with its text. -/
structure IoError where
  /-- The kind of failure. -/
  kind : FaultKind
  /-- The text for people. -/
  text : String
deriving DecidableEq, Repr

/-- The text that an operating system has for a kind of failure. -/
def FaultKind.text : FaultKind → String
  | .notFound => "No such file or directory (os error 2)"
  | .notADirectory => "Not a directory (os error 20)"
  | .isADirectory => "Is a directory (os error 21)"
  | .alreadyExists => "File exists (os error 17)"
  | .tooManyLinks => "Too many levels of symbolic links (os error 40)"
  | .nameTooLong => "File name too long (os error 36)"
  | .busy => "Device or resource busy (os error 16)"
  | .badName => "file name contained an unexpected NUL byte"
  | .other => "other error"

/-- The failure of a kind with its usual text. -/
def IoError.of (kind : FaultKind) : IoError := ⟨kind, kind.text⟩

/-! ## Trees -/

/-- A place in the tree: the names on the way from the root. -/
abbrev Place := List String

/-- The absolute path of a place. -/
def Place.path (at_ : Place) : Path := ⟨"/" ++ Text.joinTexts "/" at_⟩

/-- What stands at a place. -/
inductive Node where
  /-- A directory. -/
  | dir
  /-- A regular file. -/
  | file (contents : ByteArray)
  /-- A symbolic link. -/
  | link (target : Path)

/-- A directory tree with a current directory. -/
structure Disk where
  /-- What stands where, the root directory aside; at most one entry counts for a place. -/
  entries : List (Place × Node)
  /-- The current directory. -/
  cwd : Place

namespace Disk

/-- What stands at a place. -/
def lookup (d : Disk) : Place → Option Node
  | [] => some .dir
  | at_ => d.entries.lookup at_

/-- Put something at a place. -/
def set (d : Disk) (at_ : Place) (n : Node) : Disk :=
  { d with entries := (at_, n) :: d.entries.filter (·.1 != at_) }

/-- Take away what stands at a place. -/
def erase (d : Disk) (at_ : Place) : Disk :=
  { d with entries := d.entries.filter (·.1 != at_) }

/-- Take away everything at and below a place. -/
def eraseTree (d : Disk) (at_ : Place) : Disk :=
  { d with entries := d.entries.filter fun e => !at_.isPrefixOf e.1 }

private theorem lookup_filter_ne (entries : List (Place × Node)) (p q : Place) :
    (entries.filter (·.1 != p)).lookup q = if q = p then none else entries.lookup q := by
  induction entries with
  | nil => simp
  | cons e es ih =>
    obtain ⟨k, n⟩ := e
    by_cases hk : k = p
    · subst hk
      by_cases hq : q = k
      · subst hq; simpa using ih
      · have hqk : (q == k) = false := by simpa using hq
        simpa [List.lookup_cons, hq, hqk] using ih
    · by_cases hq : q = k
      · subst hq; simp [hk]
      · have hqk : (q == k) = false := by simpa using hq
        simp [hk, List.lookup_cons, hqk, ih]

theorem lookup_set (d : Disk) {p : Place} (hp : p ≠ []) (n : Node) (q : Place) :
    (d.set p n).lookup q = if q = p then some n else d.lookup q := by
  cases q with
  | nil => simp [lookup, Ne.symm hp]
  | cons x xs =>
    by_cases h : x :: xs = p
    · subst h; simp [lookup, set]
    · have hb : (x :: xs == p) = false := by simpa using h
      simp [lookup, set, List.lookup_cons, hb, h, lookup_filter_ne]

theorem lookup_erase (d : Disk) {p : Place} (hp : p ≠ []) (q : Place) :
    (d.erase p).lookup q = if q = p then none else d.lookup q := by
  cases q with
  | nil => simp [lookup, Ne.symm hp]
  | cons x xs => simp [lookup, erase, lookup_filter_ne]

/-! ## Resolving paths -/

/-- One step on the way along a path. -/
inductive Step where
  /-- Stay, in what must be a directory. -/
  | here
  /-- Go to the parent directory. -/
  | up
  /-- Go to an entry. -/
  | name (s : String)

/-- The step that a piece between slashes means. -/
def pieceStep : List Char → Option Step
  | [] => none
  | ['.'] => some .here
  | ['.', '.'] => some .up
  | s => some (.name (String.ofList s))

/-- The steps of a path. A slash at its end asks for a directory. -/
def steps (p : Path) : List Step :=
  let pieces := Text.split '/' p.text.toList
  let ends := if p.text.toList.getLast? = some '/' then [Step.here] else []
  pieces.filterMap pieceStep ++ ends

/-- Where a path leads. -/
inductive Located where
  /-- To something that exists. -/
  | found (at_ : Place) (node : Node)
  /-- To a name that is missing from an existing directory. -/
  | vacant (parent : Place) (name : String)

/-- Walk from a directory. Where a link is to be followed, `follow` takes over, in the directory
where the link's own path begins. With `followLast`, a link at the end is followed as well. -/
def walkWith (d : Disk) (followLast : Bool) (follow : Place → List Step → Except IoError Located) :
    (at_ : Place) → (rest : List Step) → Except IoError Located
  | at_, [] =>
    match d.lookup at_ with
    | some n => .ok (.found at_ n)
    | none => .error (.of .notFound)
  | at_, .here :: rest => walkWith d followLast follow at_ rest
  | at_, .up :: rest => walkWith d followLast follow at_.dropLast rest
  | at_, .name s :: rest =>
    if 255 < s.utf8ByteSize then .error (.of .nameTooLong)
    else match d.lookup (at_ ++ [s]) with
      | none => if rest.isEmpty then .ok (.vacant at_ s) else .error (.of .notFound)
      | some .dir => walkWith d followLast follow (at_ ++ [s]) rest
      | some (.file c) =>
        if rest.isEmpty then .ok (.found (at_ ++ [s]) (.file c)) else .error (.of .notADirectory)
      | some (.link t) =>
        if rest.isEmpty && !followLast then .ok (.found (at_ ++ [s]) (.link t))
        else follow (if t.isAbsolute then [] else at_) (steps t ++ rest)

/-- Walk from a directory, following at most `hops` links. -/
def walk (d : Disk) (followLast : Bool) :
    (hops : Nat) → (at_ : Place) → (rest : List Step) → Except IoError Located
  | 0 => d.walkWith followLast fun _ _ => .error (.of .tooManyLinks)
  | hops + 1 => d.walkWith followLast (walk d followLast hops)

section Walking

variable (d : Disk) (followLast : Bool) (hops : Nat) (at_ : Place) (rest : List Step)

theorem walk_nil : d.walk followLast hops at_ [] =
    match d.lookup at_ with
    | some n => .ok (.found at_ n)
    | none => .error (.of .notFound) := by
  cases hops <;> rfl

theorem walk_here : d.walk followLast hops at_ (.here :: rest) =
    d.walk followLast hops at_ rest := by
  cases hops <;> rfl

theorem walk_up : d.walk followLast hops at_ (.up :: rest) =
    d.walk followLast hops at_.dropLast rest := by
  cases hops <;> rfl

theorem walk_name (s : String) : d.walk followLast hops at_ (.name s :: rest) =
    if 255 < s.utf8ByteSize then .error (.of .nameTooLong)
    else match d.lookup (at_ ++ [s]) with
      | none => if rest.isEmpty then .ok (.vacant at_ s) else .error (.of .notFound)
      | some .dir => d.walk followLast hops (at_ ++ [s]) rest
      | some (.file c) =>
        if rest.isEmpty then .ok (.found (at_ ++ [s]) (.file c)) else .error (.of .notADirectory)
      | some (.link t) =>
        if rest.isEmpty && !followLast then .ok (.found (at_ ++ [s]) (.link t))
        else match hops with
          | 0 => .error (.of .tooManyLinks)
          | hops + 1 => d.walk followLast hops (if t.isAbsolute then [] else at_)
            (steps t ++ rest) := by
  cases hops <;> rfl

end Walking

/-- Where a path leads, seen from the current directory. -/
def locate (d : Disk) (followLast : Bool) (p : Path) : Except IoError Located :=
  if p.text.isEmpty then .error (.of .notFound)
  else if p.text.toList.contains '\x00' then .error (.of .badName)
  else if 4095 < p.text.utf8ByteSize then .error (.of .nameTooLong)
  else d.walk followLast 40 (if p.isAbsolute then [] else d.cwd) (steps p)

/-- What a path leads to through all links. -/
def node? (d : Disk) (p : Path) : Option (Place × Node) :=
  match d.locate true p with
  | .ok (.found at_ n) => some (at_, n)
  | _ => none

/-- The path leads to something through all links. -/
def exists_ (d : Disk) (p : Path) : Bool := (d.node? p).isSome

/-- The path leads to a directory. -/
def isDir (d : Disk) (p : Path) : Bool :=
  match d.node? p with
  | some (_, .dir) => true
  | _ => false

/-- The path leads to a regular file. -/
def isFile (d : Disk) (p : Path) : Bool :=
  match d.node? p with
  | some (_, .file _) => true
  | _ => false

/-- The absolute path, without links, of what a path leads to. -/
def canonicalize (d : Disk) (p : Path) : Except IoError Path :=
  match d.locate true p with
  | .ok (.found at_ _) => .ok at_.path
  | .ok (.vacant _ _) => .error (.of .notFound)
  | .error e => .error e

/-- The current directory as a path. -/
def currentDir (d : Disk) : Path := d.cwd.path

/-! ## Files and directories -/

/-- The contents of the file that a path leads to. -/
def read (d : Disk) (p : Path) : Except IoError ByteArray :=
  match d.locate true p with
  | .ok (.found _ (.file c)) => .ok c
  | .ok (.found _ _) => .error (.of .isADirectory)
  | .ok (.vacant _ _) => .error (.of .notFound)
  | .error e => .error e

/-- Write a file, making it if its directory exists. A link at the end of the path is followed,
also one that leads to nothing yet. -/
def write (d : Disk) (p : Path) (contents : ByteArray) : Except IoError Disk :=
  match d.locate true p with
  | .ok (.found at_ (.file _)) => .ok (d.set at_ (.file contents))
  | .ok (.found _ _) => .error (.of .isADirectory)
  | .ok (.vacant at_ s) => .ok (d.set (at_ ++ [s]) (.file contents))
  | .error e => .error e

/-- Make one directory. Slashes at the end of the path do not count. -/
def makeDir (d : Disk) (p : Path) : Except IoError Disk :=
  match d.locate false p.withoutEndSlashes with
  | .ok (.found _ _) => .error (.of .alreadyExists)
  | .ok (.vacant at_ s) => .ok (d.set (at_ ++ [s]) .dir)
  | .error e => .error e

/-- Make a directory and, when its parent is missing, the parents before it. The directories made
before a failure stay. -/
def makeDirsFrom : Nat → Disk → Path → Except IoError Unit × Disk
  | fuel, d, p =>
    if p.text.isEmpty then (.ok (), d)
    else match d.makeDir p with
      | .ok d => (.ok (), d)
      | .error e =>
        if e.kind = .notFound then
          match fuel, p.parent? with
          | fuel + 1, some parent =>
            match makeDirsFrom fuel d parent with
            | (.error e, d) => (.error e, d)
            | (.ok (), d) =>
              match d.makeDir p with
              | .ok d => (.ok (), d)
              | .error e => if d.isDir p then (.ok (), d) else (.error e, d)
          | _, _ => (.error ⟨.other, "failed to create whole tree"⟩, d)
        else if d.isDir p then (.ok (), d)
        else (.error e, d)

/-- Make a directory with all parents that are missing. -/
def makeDirs (d : Disk) (p : Path) : Except IoError Unit × Disk :=
  makeDirsFrom p.components.length d p

/-- Take a file or link, but no directory, out of its directory. -/
def unlink (d : Disk) (p : Path) : Except IoError Disk :=
  match d.locate false p with
  | .ok (.found _ .dir) => .error (.of .isADirectory)
  | .ok (.found at_ _) => .ok (d.erase at_)
  | .ok (.vacant _ _) => .error (.of .notFound)
  | .error e => .error e

/-- Move a file or link to another path, in place of the file or link that stands there. Links at
the end of either path are not followed. -/
def rename (d : Disk) (source target : Path) : Except IoError Disk :=
  match d.locate false source, d.locate false target with
  | .error e, _ => .error e
  | _, .error e => .error e
  | .ok (.vacant _ _), _ => .error (.of .notFound)
  | .ok (.found _ .dir), _ => .error (.of .busy)
  | .ok (.found _ _), .ok (.found _ .dir) => .error (.of .isADirectory)
  | .ok (.found at_ n), .ok (.found there _) => .ok ((d.erase at_).set there n)
  | .ok (.found at_ n), .ok (.vacant dir s) => .ok ((d.erase at_).set (dir ++ [s]) n)

/-! ## Setting up and looking on -/

/-- Make a link, with the directories above it. -/
def makeLink (d : Disk) (p target : Path) : Except IoError Unit × Disk :=
  match d.makeDirs ((p.parent?).getD ⟨""⟩) with
  | (.error e, d) => (.error e, d)
  | (.ok (), d) =>
    match d.locate false p with
    | .ok (.found _ _) => (.error (.of .alreadyExists), d)
    | .ok (.vacant at_ s) => (.ok (), d.set (at_ ++ [s]) (.link target))
    | .error e => (.error e, d)

/-- Write a file, with the directories above it. -/
def putFile (d : Disk) (p : Path) (contents : ByteArray) : Except IoError Unit × Disk :=
  match d.makeDirs ((p.parent?).getD ⟨""⟩) with
  | (.error e, d) => (.error e, d)
  | (.ok (), d) =>
    match d.write p contents with
    | .ok d => (.ok (), d)
    | .error e => (.error e, d)

/-- Take a file, a link, or a whole directory away; a path to nothing changes nothing. -/
def remove (d : Disk) (p : Path) : Disk :=
  match d.locate false p with
  | .ok (.found at_ _) => d.eraseTree at_
  | _ => d

/-- The names on the way from a place to one below it. -/
def below? : Place → Place → Option Place
  | [], rest => if rest.isEmpty then none else some rest
  | _, [] => none
  | a :: as, b :: bs => if a = b then below? as bs else none

/-- Everything below a place, with its path from there, in ascending order of the paths. -/
def listing (d : Disk) (at_ : Place) : List (String × Node) :=
  let found := d.entries.filterMap fun (p, n) =>
    (below? at_ p).map fun rest => (Text.joinTexts "/" rest, n)
  found.mergeSort fun a b => decide (a.1 ≤ b.1)

end Disk

end StagedCodegen
