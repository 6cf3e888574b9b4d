import StagedCodegen.Json
import StagedCodegen.Text.Hex

/-!
# Reading JSON

A recursive reader over the characters of a text. Each reader takes what it recognises from the
front and gives back the rest. Arrays and objects may be nested 127 deep. A whole number of more
than 64 bits, or a number with a point or a power of ten, is read as a double; one too large for a
double is refused.
-/

namespace StagedCodegen.Json.Parser

/-- The characters that may stand between tokens. -/
def isSpace (c : Char) : Bool := c == ' ' || c == '\n' || c == '\t' || c == '\x0d'

/-- Skip what may stand between tokens. -/
def skip (cs : List Char) : List Char := cs.dropWhile isSpace

/-! ## Numbers -/

/-- The value of a decimal digit. -/
def digitValue (c : Char) : Nat := c.toNat - 48

/-- Take digits into a significand while it stays below `2 ^ 64`. The answer is the significand, the
number of digits taken, and the rest, which starts with a digit only if that one did not fit. -/
def takeDigits : Nat → Nat → List Char → Nat × Nat × List Char
  | m, n, c :: cs =>
    if c.isDigit ∧ 10 * m + digitValue c < Nat.pow 2 64 then
      takeDigits (10 * m + digitValue c) (n + 1) cs
    else (m, n, c :: cs)
  | m, n, [] => (m, n, [])

/-- Scale a double by a power of ten, in steps of at most `10 ^ 308`. Growing past the largest
double is refused. -/
def scale : Nat → Float → Int → Option Float
  | 0, _, _ => none
  | fuel + 1, f, e =>
    if e.natAbs ≤ 308 then
      let power := Float.ofScientific 1 false e.natAbs
      if 0 ≤ e then (if (f * power).isInf then none else some (f * power)) else some (f / power)
    else if f == 0 then some f
    else if 0 ≤ e then none
    else scale fuel (f / Float.ofScientific 1 false 308) (e + 308)

/-- The double for a significand and a power of ten. -/
def double? (negative : Bool) (m : Nat) (e : Int) : Option Number := do
  let f ← scale 4 m.toUInt64.toFloat e
  return .float (if negative then -f else f).toBits

/-- A power of ten, after its letter. -/
def exponent? (negative : Bool) (m : Nat) (e : Int) (cs : List Char) :
    Option (Number × List Char) := do
  let (down, cs) := match cs with
    | '+' :: cs => (false, cs)
    | '-' :: cs => (true, cs)
    | cs => (false, cs)
  let digits := cs.takeWhile Char.isDigit
  if digits.isEmpty then none
  let n := digits.foldl (fun n c => 10 * n + digitValue c) 0
  return (← double? negative m (if down then e - n else e + n), cs.dropWhile Char.isDigit)

/-- What follows the significand of a number that is no whole number of 64 bits. -/
def power? (negative : Bool) (m : Nat) (e : Int) (cs : List Char) : Option (Number × List Char) :=
  match cs with
  | 'e' :: cs => exponent? negative m e cs
  | 'E' :: cs => exponent? negative m e cs
  | cs => do return (← double? negative m e, cs)

/-- The digits after the point. Those that do not fit the significand are dropped. -/
def fraction? (negative : Bool) (m : Nat) (e : Int) (cs : List Char) :
    Option (Number × List Char) :=
  let (m', n, rest) := takeDigits m 0 cs
  match n, rest with
  | 0, [] => none
  | 0, c :: rest =>
    if c.isDigit then power? negative m e (rest.dropWhile Char.isDigit) else none
  | n, rest => power? negative m' (e - n) (rest.dropWhile Char.isDigit)

/-- What follows the whole part of a number. -/
def afterWhole? (negative : Bool) (m : Nat) (cs : List Char) : Option (Number × List Char) :=
  match cs with
  | '.' :: cs => fraction? negative m 0 cs
  | 'e' :: cs => exponent? negative m 0 cs
  | 'E' :: cs => exponent? negative m 0 cs
  | cs =>
    if negative then
      if 0 < m ∧ m ≤ Nat.pow 2 63 then some (.int (-m), cs)
      else some (.float (-m.toUInt64.toFloat).toBits, cs)
    else some (.int m, cs)

/-- A number without its sign. -/
def unsigned? (negative : Bool) (cs : List Char) : Option (Number × List Char) :=
  match cs with
  | '0' :: cs => if (cs.head?.map Char.isDigit).getD false then none else afterWhole? negative 0 cs
  | c :: _ =>
    if c.isDigit then
      let (m, _, rest) := takeDigits 0 0 cs
      let more := rest.takeWhile Char.isDigit
      let rest := rest.dropWhile Char.isDigit
      if more.isEmpty then afterWhole? negative m rest
      else match rest with
        | '.' :: rest => fraction? negative m more.length rest
        | rest => power? negative m more.length rest
    else none
  | [] => none

/-- A number. -/
def number? (cs : List Char) : Option (Number × List Char) :=
  match cs with
  | '-' :: cs => unsigned? true cs
  | cs => unsigned? false cs

/-! ## Texts -/

/-- Four hexadecimal digits. -/
def unit? (cs : List Char) : Option (Nat × List Char) :=
  match cs with
  | a :: b :: c :: d :: rest => do
    let a ← Text.Hex.value? a
    let b ← Text.Hex.value? b
    let c ← Text.Hex.value? c
    let d ← Text.Hex.value? d
    return (((a * 16 + b) * 16 + c) * 16 + d, rest)
  | _ => none

/-- The character of a numbered escape. A character beyond `U+FFFF` is written as two of them. -/
def numbered? (cs : List Char) : Option (Char × List Char) := do
  let (hi, rest) ← unit? cs
  if 0xDC00 ≤ hi ∧ hi ≤ 0xDFFF then none
  else if 0xD800 ≤ hi ∧ hi ≤ 0xDBFF then
    match rest with
    | '\\' :: 'u' :: rest =>
      let (lo, rest) ← unit? rest
      if 0xDC00 ≤ lo ∧ lo ≤ 0xDFFF then
        return (Char.ofNat (0x10000 + (hi - 0xD800) * 0x400 + (lo - 0xDC00)), rest)
      else none
    | _ => none
  else return (Char.ofNat hi, rest)

/-- The character of an escape, after its backslash. -/
def escaped? : List Char → Option (Char × List Char)
  | '"' :: cs => some ('"', cs)
  | '\\' :: cs => some ('\\', cs)
  | '/' :: cs => some ('/', cs)
  | 'b' :: cs => some ('\x08', cs)
  | 'f' :: cs => some ('\x0c', cs)
  | 'n' :: cs => some ('\x0a', cs)
  | 'r' :: cs => some ('\x0d', cs)
  | 't' :: cs => some ('\x09', cs)
  | 'u' :: cs => numbered? cs
  | _ => none

/-- The characters of a text up to its closing quote. -/
def text? : Nat → List Char → Option (List Char × List Char)
  | 0, _ => none
  | fuel + 1, cs =>
    match cs with
    | [] => none
    | '"' :: cs => some ([], cs)
    | '\\' :: cs => do
      let (c, cs) ← escaped? cs
      let (s, cs) ← text? fuel cs
      return (c :: s, cs)
    | c :: cs =>
      if c.toNat < 0x20 then none else do
        let (s, cs) ← text? fuel cs
        return (c :: s, cs)

/-! ## Values -/

mutual
/-- A value. `depth` is one more than the number of brackets that may still open. -/
def value? : Nat → Nat → List Char → Option (Json × List Char)
  | 0, _, _ => none
  | fuel + 1, depth, cs =>
    match cs with
    | 'n' :: 'u' :: 'l' :: 'l' :: cs => some (.null, cs)
    | 't' :: 'r' :: 'u' :: 'e' :: cs => some (.bool true, cs)
    | 'f' :: 'a' :: 'l' :: 's' :: 'e' :: cs => some (.bool false, cs)
    | '"' :: cs => do
      let (s, cs) ← text? fuel cs
      return (.string (String.ofList s), cs)
    | '[' :: cs =>
      if depth ≤ 1 then none
      else match skip cs with
        | ']' :: cs => some (.array [], cs)
        | cs => do
          let (xs, cs) ← items? fuel (depth - 1) cs
          return (.array xs, cs)
    | '\x7b' :: cs =>
      if depth ≤ 1 then none
      else match skip cs with
        | '\x7d' :: cs => some (.object [], cs)
        | cs => do
          let (ms, cs) ← members? fuel (depth - 1) cs
          return (.object ms, cs)
    | cs => do
      let (n, cs) ← number? cs
      return (.number n, cs)
/-- Items of an array up to its closing bracket, at least one. -/
def items? : Nat → Nat → List Char → Option (List Json × List Char)
  | 0, _, _ => none
  | fuel + 1, depth, cs => do
    let (x, cs) ← value? fuel depth (skip cs)
    match skip cs with
    | ',' :: cs =>
      let (xs, cs) ← items? fuel depth cs
      return (x :: xs, cs)
    | ']' :: cs => return ([x], cs)
    | _ => none
/-- Members of an object up to its closing brace, at least one. -/
def members? : Nat → Nat → List Char → Option (List (String × Json) × List Char)
  | 0, _, _ => none
  | fuel + 1, depth, cs =>
    match skip cs with
    | '"' :: cs => do
      let (k, cs) ← text? fuel cs
      match skip cs with
      | ':' :: cs =>
        let (v, cs) ← value? fuel depth (skip cs)
        match skip cs with
        | ',' :: cs =>
          let (ms, cs) ← members? fuel depth cs
          return ((String.ofList k, v) :: ms, cs)
        | '\x7d' :: cs => return ([(String.ofList k, v)], cs)
        | _ => none
      | _ => none
    | _ => none
end

end Parser

/-- The value that a text is, blanks around it aside. -/
def parse? (s : String) : Option Json :=
  let cs := s.toList
  match Parser.value? (cs.length + 1) 128 (Parser.skip cs) with
  | some (v, rest) => if (Parser.skip rest).isEmpty then some v else none
  | none => none

end StagedCodegen.Json
