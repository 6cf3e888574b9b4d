/-!
# Styled text

Texts with the codes that a terminal takes for colours and weights. Each code stands before the
text, and one that ends it behind.
-/

namespace StagedCodegen.Terminal

/-- The code with the given parameter. -/
def code (parameter : String) : String := "\x1b[" ++ parameter ++ "m"

/-- A text in the colour of a number. -/
def colored (color : String) (s : String) : String := code color ++ s ++ code "39"

/-- A text in red. -/
def red (s : String) : String := colored "31" s

/-- A text in green. -/
def green (s : String) : String := colored "32" s

/-- A text in yellow. -/
def yellow (s : String) : String := colored "33" s

/-- A text of the weight of a number. -/
def weighted (weight : String) (s : String) : String := code weight ++ s ++ code "0"

/-- A bold text. -/
def bold (s : String) : String := weighted "1" s

/-- A faint text. -/
def dimmed (s : String) : String := weighted "2" s

/-- An underlined text. -/
def underlined (s : String) : String := weighted "4" s

end StagedCodegen.Terminal
