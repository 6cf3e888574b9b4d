import StagedCodegen.Json
import StagedCodegen.Text.Numeral
import StagedCodegen.Toml.Lexeme

/-!
# Numbers, dates and truth values of TOML

Whole numbers have 64 bits with a sign; a date is the text of its normal form.
-/

namespace StagedCodegen.Toml

open Text.Hex (value? valueIn)
open Text.Numeral (sign)

/-! ## Digits -/

/-- Digits of a base, with single underscores between them. -/
def digits? (isDigit : Char → Bool) : (fuel : Nat) → List Char → Option (List Char × List Char)
  | 0, _ => none
  | _, [] => none
  | fuel + 1, c :: cs =>
    if !isDigit c then none
    else match cs with
      | [] => some ([c], [])
      | d :: rest =>
        if d == '_' then do
          let (ds, rest) ← digits? isDigit fuel rest
          return (c :: ds, rest)
        else if isDigit d then do
          let (ds, rest) ← digits? isDigit fuel cs
          return (c :: ds, rest)
        else some ([c], cs)

/-- Decimal digits with single underscores between them. -/
def decimalDigits? (cs : List Char) : Option (List Char × List Char) :=
  digits? Char.isDigit (cs.length + 1) cs

/-- The digits of a whole number, of which zero alone begins with a zero. -/
def wholeDigits? (cs : List Char) : Option (List Char × List Char) :=
  match cs with
  | [] => none
  | c :: rest => if c == '0' then some ([c], rest) else decimalDigits? cs

/-! ## Whole numbers -/

/-- A number that fits into 64 bits with a sign. -/
def bounded? (n : Int) : Option Json :=
  if -9223372036854775808 ≤ n ∧ n < 9223372036854775808 then some (.int n) else none

/-- A whole number in a base that is not ten, after its two letters. -/
def based? (base : Nat) (isDigit : Char → Bool) (cs : List Char) : Option (Json × List Char) := do
  let (ds, cs) ← digits? isDigit (cs.length + 1) cs
  return (← bounded? (valueIn base ds), cs)

/-- A whole number. -/
def integer? (cs : List Char) : Option (Json × List Char) :=
  if cs.take 2 == ['0', 'x'] then based? 16 (value? · |>.isSome) (cs.drop 2)
  else if cs.take 2 == ['0', 'o'] then based? 8 (fun c => '0' ≤ c && c ≤ '7') (cs.drop 2)
  else if cs.take 2 == ['0', 'b'] then based? 2 (fun c => c == '0' || c == '1') (cs.drop 2)
  else do
    let (negative, rest) := sign cs
    let (ds, rest) ← wholeDigits? rest
    let n : Int := valueIn 10 ds
    return (← bounded? (if negative then -n else n), rest)

/-! ## Other numbers -/

/-- The power of ten of a number, if there is one. -/
def power? (cs : List Char) : Option (Int × List Char) :=
  match cs with
  | c :: rest =>
    if c == 'e' || c == 'E' then do
      let (negative, rest) := sign rest
      let (ds, rest) ← decimalDigits? rest
      let n : Int := valueIn 10 ds
      return (if negative then -n else n, rest)
    else none
  | [] => none

/-- The digits after the point of a number, if there is one. -/
def fraction? (cs : List Char) : Option (List Char × List Char) :=
  match cs with
  | c :: rest => if c == '.' then decimalDigits? rest else none
  | [] => none

/-- The double of digits and a power of ten. One too large for a double is refused, unless it is
negative. -/
def double? (negative : Bool) (digits : List Char) (exponent : Int) : Option Json :=
  let bits := Decimal.nearest negative (valueIn 10 digits) exponent
  if bits = 0x7ff0000000000000 then none else some (.number (.float bits))

/-- A number with a point or a power of ten. -/
def decimal? (cs : List Char) : Option (Json × List Char) := do
  let (negative, rest) := sign cs
  let (whole, rest) ← wholeDigits? rest
  match fraction? rest with
  | some (part, rest) =>
    let (e, rest) := (power? rest).getD (0, rest)
    return (← double? negative (whole ++ part) (e - part.length), rest)
  | none =>
    let (e, rest) ← power? rest
    return (← double? negative whole e, rest)

/-- An infinity, or what is no number. -/
def special? (cs : List Char) : Option (Json × List Char) :=
  let (negative, rest) := sign cs
  let word := rest.take 3
  let signBit : UInt64 := if negative then 0x8000000000000000 else 0
  if word == ['i', 'n', 'f'] then
    some (.number (.float (signBit ||| 0x7ff0000000000000)), rest.drop 3)
  else if word == ['n', 'a', 'n'] then
    some (.number (.float (signBit ||| 0x7ff8000000000000)), rest.drop 3)
  else none

/-! ## Dates and times -/

/-- A number of just `count` digits within bounds. -/
def fixed? (count lo hi : Nat) (cs : List Char) : Option (Nat × List Char) :=
  let ds := cs.take count
  let n := valueIn 10 ds
  if ds.length = count ∧ ds.all Char.isDigit ∧ lo ≤ n ∧ n ≤ hi then some (n, cs.drop count)
  else none

/-- What follows a character. -/
def after? (c : Char) (cs : List Char) : Option (List Char) :=
  if cs.head? == some c then some (cs.drop 1) else none

/-- A number with zeros before it. -/
def padded (width n : Nat) : List Char :=
  let ds := Nat.toDigits 10 n
  List.replicate (width - ds.length) '0' ++ ds

/-- The number of days of a month. -/
def daysOf (year month : Nat) : Nat :=
  if month = 2 then
    if year % 4 = 0 ∧ (year % 100 ≠ 0 ∨ year % 400 = 0) then 29 else 28
  else if month ∈ [4, 6, 9, 11] then 30 else 31

/-- A date. -/
def date? (cs : List Char) : Option (List Char × List Char) := do
  let (year, cs) ← fixed? 4 0 9999 cs
  let (month, cs) ← fixed? 2 1 12 (← after? '-' cs)
  let (day, cs) ← fixed? 2 1 (daysOf year month) (← after? '-' cs)
  return (padded 4 year ++ '-' :: (padded 2 month ++ '-' :: padded 2 day), cs)

/-- The part of a second, if there is one: at most nine digits, without zeros at the end. -/
def secondPart (cs : List Char) : List Char × List Char :=
  match after? '.' cs with
  | none => ([], cs)
  | some rest =>
    match rest.takeWhile Char.isDigit with
    | [] => ([], cs)
    | ds =>
      let kept := ((ds.take 9).reverse.dropWhile (· == '0')).reverse
      (if kept.isEmpty then [] else '.' :: kept, rest.dropWhile Char.isDigit)

/-- A time. -/
def time? (cs : List Char) : Option (List Char × List Char) := do
  let (hour, cs) ← fixed? 2 0 23 cs
  let (minute, cs) ← fixed? 2 0 59 (← after? ':' cs)
  let (second, cs) ← fixed? 2 0 60 (← after? ':' cs)
  let (part, cs) := secondPart cs
  return (padded 2 hour ++ ':' :: (padded 2 minute ++ ':' :: (padded 2 second ++ part)), cs)

/-- The distance from universal time, if one is given. -/
def offset? (cs : List Char) : Option (List Char × List Char) :=
  match cs with
  | [] => some ([], [])
  | c :: rest =>
    if c == 'Z' || c == 'z' then some (['Z'], rest)
    else if c == '+' || c == '-' then do
      let (hour, rest) ← fixed? 2 0 23 rest
      let (minute, rest) ← fixed? 2 0 59 (← after? ':' rest)
      let sign := if hour = 0 ∧ minute = 0 then '+' else c
      return (sign :: (padded 2 hour ++ ':' :: padded 2 minute), rest)
    else some ([], cs)

/-- A date, a time, or both. -/
def moment? (cs : List Char) : Option (Json × List Char) :=
  match date? cs with
  | some (date, rest) =>
    let time := match rest with
      | c :: rest => if c == 'T' || c == 't' || c == ' ' then time? rest else none
      | [] => none
    match time with
    | some (time, rest) =>
      (offset? rest).map fun (offset, rest) =>
        (.string (String.ofList (date ++ 'T' :: (time ++ offset))), rest)
    | none => some (.string (String.ofList date), rest)
  | none => (time? cs).map fun (time, rest) => (.string (String.ofList time), rest)

/-! ## Scalars -/

/-- A word that stands for a value. -/
def word? (word : List Char) (v : Json) (cs : List Char) : Option (Json × List Char) :=
  if cs.take word.length == word then some (v, cs.drop word.length) else none

/-- A value that holds no others. -/
def scalar? (cs : List Char) : Option (Json × List Char) :=
  match cs with
  | [] => none
  | c :: _ =>
    if c == '"' || c == '\'' then
      (string? cs).map fun (s, rest) => (.string (String.ofList s), rest)
    else if c == 't' then word? "true".toList (.bool true) cs
    else if c == 'f' then word? "false".toList (.bool false) cs
    else
      (moment? cs).or ((decimal? cs).or ((special? cs).or (integer? cs)))

end StagedCodegen.Toml
