import StagedCodegen.Decimal.Shortest

/-!
# Numerals

Texts that spell a number, with nothing before or behind it.
-/

namespace StagedCodegen.Text.Numeral

/-- A sign, true for minus, and what follows it. -/
def sign (cs : List Char) : Bool × List Char :=
  match cs with
  | c :: rest => if c == '-' then (true, rest) else if c == '+' then (false, rest) else (false, cs)
  | [] => (false, [])

/-- The number that decimal digits stand for. -/
def value (ds : List Char) : Nat := ds.foldl (fun n c => 10 * n + (c.toNat - 48)) 0

/-- The number that digits alone stand for, of which there is at least one. -/
def natural? (cs : List Char) : Option Nat :=
  if !cs.isEmpty && cs.all Char.isDigit then some (value cs) else none

/-- The whole number of 64 bits that a text spells. -/
def integer? (s : String) : Option Int :=
  let (negative, ds) := sign s.toList
  (natural? ds).bind fun n =>
    let i : Int := if negative then -n else n
    if -9223372036854775808 ≤ i ∧ i < 9223372036854775808 then some i else none

/-- The words for an infinity and for what is no number, in small letters, with their bits. -/
def words : List (String × UInt64) :=
  [("inf", 0x7ff0000000000000), ("infinity", 0x7ff0000000000000), ("nan", 0x7ff8000000000000)]

/-- The power of ten behind a number, zero if there is none. -/
def power? (cs : List Char) : Option Int :=
  match cs with
  | [] => some 0
  | c :: rest =>
    if c == 'e' || c == 'E' then
      let (negative, ds) := sign rest
      (natural? ds).map fun n => if negative then -n else n
    else none

/-- The bits of the double that a text spells. -/
def double? (s : String) : Option UInt64 :=
  let (negative, cs) := sign s.toList
  let signBit : UInt64 := if negative then 0x8000000000000000 else 0
  match words.lookup (String.ofList (cs.map Char.toLower)) with
  | some bits => some (signBit ||| bits)
  | none =>
    let whole := cs.takeWhile Char.isDigit
    let rest := cs.dropWhile Char.isDigit
    let (part, rest) :=
      if rest.head? == some '.' then
        ((rest.drop 1).takeWhile Char.isDigit, (rest.drop 1).dropWhile Char.isDigit)
      else ([], rest)
    if whole.isEmpty && part.isEmpty then none
    else (power? rest).map fun e =>
      Decimal.nearest negative (value (whole ++ part)) (e - part.length)

end StagedCodegen.Text.Numeral
