import StagedCodegen.Text.Hex
import StagedCodegen.Text.Split

/-!
# Lexemes of TOML

Blanks, comments, keys and strings. Each reader takes the characters that are left and gives what
it has read together with those that are left after it, or nothing if the text is no TOML.
-/

namespace StagedCodegen.Toml

/-! ## Blanks and comments -/

/-- A blank inside a line. -/
def isSpace (c : Char) : Bool := c == ' ' || c == '\t'

/-- Drop blanks inside a line. -/
def skipSpace (cs : List Char) : List Char := cs.dropWhile isSpace

/-- What follows a line break. -/
def newline? : List Char → Option (List Char)
  | [] => none
  | c :: cs =>
    if c == '\n' then some cs
    else if c == '\x0d' && cs.head? == some '\n' then some (cs.drop 1)
    else none

/-- A character that may stand in comments and strings: a tab, or one that is no control
character. -/
def isPlain (c : Char) : Bool := c == '\t' || (0x20 ≤ c.toNat && c.toNat != 0x7f)

/-- What follows a comment, if there is one. -/
def skipComment (cs : List Char) : List Char :=
  if cs.head? == some '#' then cs.dropWhile isPlain else cs

/-- What follows the rest of a line on which nothing more is said. -/
def endLine? (cs : List Char) : Option (List Char) :=
  match skipComment (skipSpace cs) with
  | [] => some []
  | rest => newline? rest

/-- Drop blanks, line breaks and comments, at most `fuel` of them. -/
def skipLines : (fuel : Nat) → List Char → List Char
  | 0, cs => cs
  | fuel + 1, cs =>
    match skipSpace cs with
    | [] => []
    | c :: rest =>
      if c == '#' then
        match newline? (rest.dropWhile isPlain) with
        | some rest => skipLines fuel rest
        | none => c :: rest
      else
        match newline? (c :: rest) with
        | some rest => skipLines fuel rest
        | none => c :: rest

/-! ## Escapes -/

/-- The character whose number is given by `count` hexadecimal digits. -/
def numbered? (count : Nat) (cs : List Char) : Option (Char × List Char) := do
  let digits ← (cs.take count).mapM Text.Hex.value?
  let n := digits.foldl (fun n d => 16 * n + d) 0
  if digits.length = count ∧ n.isValidChar then
    return (Char.ofNat n, cs.drop count)
  else none

/-- The characters of one letter behind a backslash. -/
def letterEscapes : List (Char × Char) :=
  [('b', '\x08'), ('f', '\x0c'), ('n', '\n'), ('r', '\x0d'), ('t', '\t'), ('"', '"'), ('\\', '\\')]

/-- The character that an escape stands for, after its backslash. -/
def escaped? : List Char → Option (Char × List Char)
  | [] => none
  | c :: cs =>
    if c == 'u' then numbered? 4 cs
    else if c == 'U' then numbered? 8 cs
    else (letterEscapes.lookup c).map (·, cs)

/-! ## Strings -/

/-- A string up to its closing quote. -/
def basic? : (fuel : Nat) → List Char → Option (List Char × List Char)
  | 0, _ => none
  | _, [] => none
  | fuel + 1, c :: cs =>
    if c == '"' then some ([], cs)
    else if c == '\\' then do
      let (d, cs) ← escaped? cs
      let (s, cs) ← basic? fuel cs
      return (d :: s, cs)
    else if isPlain c then do
      let (s, cs) ← basic? fuel cs
      return (c :: s, cs)
    else none

/-- A string without escapes up to its closing quote. -/
def literal? (cs : List Char) : Option (List Char × List Char) :=
  let isInside (c : Char) := c != '\'' && isPlain c
  match cs.dropWhile isInside with
  | c :: rest => if c == '\'' then some (cs.takeWhile isInside, rest) else none
  | [] => none

/-- The part of a long string that a run of quotes makes up, if it ends the string, and what
follows: three quotes end it, after at most two that belong to it. -/
def closing? (quote : Char) (cs : List Char) : Option (List Char × List Char) :=
  let run := (cs.takeWhile (· == quote)).length
  if run < 3 then none
  else
    let inside := min (run - 3) 2
    some (List.replicate inside quote, cs.drop (inside + 3))

/-- Drop blanks and line breaks, at most `fuel` of these. -/
def skipBreaks : (fuel : Nat) → List Char → List Char
  | 0, cs => cs
  | fuel + 1, cs =>
    match newline? (skipSpace cs) with
    | some rest => skipBreaks fuel rest
    | none => skipSpace cs

/-- What follows a backslash at the end of a line: all blanks and line breaks after it are
dropped. -/
def joined? (cs : List Char) : Option (List Char) :=
  (newline? (skipSpace cs)).map fun rest => skipBreaks (rest.length + 1) rest

/-- A string of several lines up to its closing quotes. With `escapes`, a backslash is not a
character like others. -/
def long? (quote : Char) (escapes : Bool) : (fuel : Nat) → List Char →
    Option (List Char × List Char)
  | 0, _ => none
  | _, [] => none
  | fuel + 1, c :: cs =>
    match closing? quote (c :: cs) with
    | some r => some r
    | none =>
      if escapes && c == '\\' then
        match joined? cs with
        | some cs => long? quote escapes fuel cs
        | none => do
          let (d, cs) ← escaped? cs
          let (s, cs) ← long? quote escapes fuel cs
          return (d :: s, cs)
      else
        match newline? (c :: cs) with
        | some cs => do
          let (s, cs) ← long? quote escapes fuel cs
          return ('\n' :: s, cs)
        | none =>
          if isPlain c then do
            let (s, cs) ← long? quote escapes fuel cs
            return (c :: s, cs)
          else none

/-- A string of several lines after its opening quotes, behind which one line break is dropped. -/
def long (quote : Char) (escapes : Bool) (cs : List Char) : Option (List Char × List Char) :=
  let cs := (newline? cs).getD cs
  long? quote escapes (cs.length + 1) cs

/-- A string of any kind. -/
def string? : List Char → Option (List Char × List Char)
  | [] => none
  | c :: cs =>
    if c == '"' then
      if cs.take 2 == ['"', '"'] then long '"' true (cs.drop 2) else basic? (cs.length + 1) cs
    else if c == '\'' then
      if cs.take 2 == ['\'', '\''] then long '\'' false (cs.drop 2) else literal? cs
    else none

/-! ## Keys -/

/-- A character of a key that is not quoted. -/
def isKeyChar (c : Char) : Bool := c.isAlphanum || c == '-' || c == '_'

/-- One part of a key. -/
def keyPart? (cs : List Char) : Option (List Char × List Char) :=
  match cs with
  | [] => none
  | c :: rest =>
    if c == '"' then basic? (rest.length + 1) rest
    else if c == '\'' then literal? rest
    else if isKeyChar c then some (cs.takeWhile isKeyChar, cs.dropWhile isKeyChar)
    else none

/-- A key: parts with points between them, and blanks around each part. -/
def key? : (fuel : Nat) → List Char → Option (List String × List Char)
  | 0, _ => none
  | fuel + 1, cs => do
    let (part, cs) ← keyPart? (skipSpace cs)
    let cs := skipSpace cs
    if cs.head? == some '.' then
      let (parts, cs) ← key? fuel (cs.drop 1)
      return (String.ofList part :: parts, cs)
    else return ([String.ofList part], cs)

end StagedCodegen.Toml
