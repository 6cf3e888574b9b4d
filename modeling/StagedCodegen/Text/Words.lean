import StagedCodegen.Text.Split

/-!
# Names made of words

A word is a longest run of ASCII letters and digits. Names are made from the words of a text in
several ways: joined by dashes, or run together with capitals where words begin.
-/

namespace StagedCodegen.Text

/-- A character that words are made of: an ASCII letter or digit. -/
def isWordChar (c : Char) : Bool := c.isAlphanum

/-! ## Joined by dashes -/

/-- The words of a text in small letters, with one dash between any two. `started` means that there
was a word before, and `gap` that something came after it. -/
def slugChars : (started gap : Bool) → List Char → List Char
  | _, _, [] => []
  | started, gap, c :: cs =>
    if isWordChar c then
      if started && gap then '-' :: c.toLower :: slugChars true false cs
      else c.toLower :: slugChars true false cs
    else slugChars started true cs

/-- The words of a text in small letters, joined by dashes. -/
def slug (s : String) : String := String.ofList (slugChars false false s.toList)

/-! ## Run together -/

/-- The words of a text. `word` is what has been read of the current one. -/
def wordsFrom : (word : List Char) → List Char → List (List Char)
  | [], [] => []
  | word, [] => [word]
  | word, c :: cs =>
    if isWordChar c then wordsFrom (word ++ [c]) cs
    else if word = [] then wordsFrom [] cs
    else word :: wordsFrom [] cs

/-- The words of a text. -/
def words (cs : List Char) : List (List Char) := wordsFrom [] cs

/-- Change the first character. -/
def mapFirst (f : Char → Char) : List Char → List Char
  | [] => []
  | c :: cs => f c :: cs

/-- The words run together, each with a capital. -/
def pascalChars (cs : List Char) : List Char := (words cs).flatMap (mapFirst Char.toUpper)

/-- The words of a text run together, each with a capital. -/
def pascalCase (s : String) : String := String.ofList (pascalChars s.toList)

/-- The words of a text run together, each but the first with a capital. -/
def camelCase (s : String) : String :=
  String.ofList (mapFirst Char.toLower (pascalChars s.toList))

end StagedCodegen.Text
