import StagedCodegen.Json
import StagedCodegen.Text.Hex

/-!
# JSON text

Two printers: the compact form, without a blank between tokens, and the indented form, with two
blanks for each level. Both write a text with the same escapes, and a number in the fewest digits
that read back.
-/

namespace StagedCodegen.Json

/-! ## Tokens -/

/-- How doubles are written: between `0.00001` and sixteen digits in full and always with a point,
otherwise with a power of ten. -/
def doubleLayout : Decimal.Layout := ⟨fun p => -5 < p && p ≤ 16, ".0", "+", "null", "null"⟩

/-- The text of a number. -/
def Number.text : Number → String
  | .int n => toString n
  | .float bits => doubleLayout.write bits

/-- One character inside a quoted text. Quotes, backslashes and control characters are escaped,
and nothing else. -/
def escapeChar (c : Char) : List Char :=
  if c = '"' then ['\\', '"']
  else if c = '\\' then ['\\', '\\']
  else if c = '\x08' then ['\\', 'b']
  else if c = '\x09' then ['\\', 't']
  else if c = '\x0a' then ['\\', 'n']
  else if c = '\x0c' then ['\\', 'f']
  else if c = '\x0d' then ['\\', 'r']
  else if c.toNat < 0x20 then
    ['\\', 'u', '0', '0', Text.Hex.digit (c.toNat / 16), Text.Hex.digit (c.toNat % 16)]
  else [c]

/-- The characters of a text, escaped. -/
def escape (s : List Char) : List Char := s.flatMap escapeChar

/-- A text in quotes. -/
def quoted (s : String) : List Char := '"' :: (escape s.toList ++ ['"'])

/-! ## The compact form -/

mutual
/-- The compact form of a value. -/
def compact : (v : Json) → List Char
  | .null => ['n', 'u', 'l', 'l']
  | .bool true => ['t', 'r', 'u', 'e']
  | .bool false => ['f', 'a', 'l', 's', 'e']
  | .number n => n.text.toList
  | .string s => quoted s
  | .array [] => ['[', ']']
  | .array (x :: xs) => '[' :: (compact x ++ compactItems xs)
  | .object [] => ['\x7b', '\x7d']
  | .object (m :: ms) => '\x7b' :: (compactMember m ++ compactMembers ms)
termination_by structural v => v
/-- The items after the first one, and the closing bracket. -/
def compactItems : (xs : List Json) → List Char
  | [] => [']']
  | x :: xs => ',' :: (compact x ++ compactItems xs)
termination_by structural xs => xs
/-- The members after the first one, and the closing brace. -/
def compactMembers : (ms : List (String × Json)) → List Char
  | [] => ['\x7d']
  | m :: ms => ',' :: (compactMember m ++ compactMembers ms)
termination_by structural ms => ms
/-- A name with its value. -/
def compactMember : (m : String × Json) → List Char
  | (k, v) => quoted k ++ ':' :: compact v
termination_by structural m => m
end

/-- The compact form as a text. -/
def print (v : Json) : String := String.ofList v.compact

/-! ## The indented form -/

/-- A line end and the blanks before the next line. -/
def newline (depth : Nat) : List Char := '\n' :: List.replicate (2 * depth) ' '

mutual
/-- The indented form of a value that stands at the given depth. -/
def indented : (v : Json) → Nat → List Char
  | .array (x :: xs), d =>
    '[' :: (newline (d + 1) ++ (indented x (d + 1) ++ indentedItems xs d))
  | .object (m :: ms), d =>
    '\x7b' :: (newline (d + 1) ++ (indentedMember m (d + 1) ++ indentedMembers ms d))
  | .array [], _ => ['[', ']']
  | .object [], _ => ['\x7b', '\x7d']
  | .null, _ => ['n', 'u', 'l', 'l']
  | .bool true, _ => ['t', 'r', 'u', 'e']
  | .bool false, _ => ['f', 'a', 'l', 's', 'e']
  | .number n, _ => n.text.toList
  | .string s, _ => quoted s
termination_by structural v => v
/-- The items after the first one, and the closing bracket. -/
def indentedItems : (xs : List Json) → Nat → List Char
  | [], d => newline d ++ [']']
  | x :: xs, d => ',' :: (newline (d + 1) ++ (indented x (d + 1) ++ indentedItems xs d))
termination_by structural xs => xs
/-- The members after the first one, and the closing brace. -/
def indentedMembers : (ms : List (String × Json)) → Nat → List Char
  | [], d => newline d ++ ['\x7d']
  | m :: ms, d => ',' :: (newline (d + 1) ++ (indentedMember m (d + 1) ++ indentedMembers ms d))
termination_by structural ms => ms
/-- A name with its value. -/
def indentedMember : (m : String × Json) → Nat → List Char
  | (k, v), d => quoted k ++ ':' :: ' ' :: indented v d
termination_by structural m => m
end

/-- The indented form as a text. -/
def printIndented (v : Json) : String := String.ofList (v.indented 0)

end StagedCodegen.Json
