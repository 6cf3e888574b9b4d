import StagedCodegen.Failure
import StagedCodegen.Text.Blank
import StagedCodegen.Text.Split

/-!
# Formatting sources

White space at the ends of lines and of the whole text is taken away, and one newline put at its
end. A language whose files begin with a line of their own gets that line, unless it is there.
-/

namespace StagedCodegen

/-- A formatter of source texts. -/
abbrev SourceFormatter := Path → String → Except Failure String

/-- The formatters of both languages. -/
structure Formatters where
  /-- For PHP. -/
  php : SourceFormatter
  /-- For TypeScript. -/
  ts : SourceFormatter

namespace SourceFormat

/-- What is taken away at the ends of lines. -/
def isLineEnd (c : Char) : Bool := c == '\x0d' || c == ' ' || c == '\t'

/-- The lines of a text without what is taken away, from the first to the last that is not empty. -/
def tidyLines (cs : List Char) : List (List Char) :=
  Text.trimWhile (· == []) ((Text.split '\n' cs).map (Text.dropEndWhile isLineEnd))

/-- The first line is the given one, blanks before it aside. -/
def beginsWith (line : List Char) : List (List Char) → Bool
  | [] => false
  | l :: _ => l.dropWhile Text.isBlank == line

/-- What is put before the lines. -/
def opening (prologue : Option String) (lines : List (List Char)) : List Char :=
  match prologue with
  | none => []
  | some p => if beginsWith p.toList lines then [] else p.toList ++ ['\n', '\n']

/-- The formatted text. -/
def formatChars (prologue : Option String) (cs : List Char) : List Char :=
  let lines := tidyLines cs
  opening prologue lines ++ Text.joinWith ['\n'] lines ++ ['\n']

/-- Format a text that must not hold a NUL character. -/
def format (prologue : Option String) : SourceFormatter := fun p s =>
  if s.toList.contains '\x00' then
    .error (.rejected p.text "refusing to format binary contents")
  else .ok (String.ofList (formatChars prologue s.toList))

/-- The formatter of PHP. -/
def php : SourceFormatter := format (some "<?php")

/-- The formatter of TypeScript. -/
def ts : SourceFormatter := format none

end SourceFormat

/-- The usual formatters. -/
def Formatters.usual : Formatters := ⟨SourceFormat.php, SourceFormat.ts⟩

end StagedCodegen
