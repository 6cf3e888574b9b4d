/-!
# Doubles as decimal text

A double is written with the fewest decimal digits that read back as the same double, and of those
with the nearest to it; an exact tie goes to the even last digit. How the digits are laid out is a
`Layout`, chosen by whoever writes the number.
-/

namespace StagedCodegen.Decimal

/-! ## Taking a double apart -/

/-- The size of a double, its sign aside. -/
inductive Magnitude where
  /-- The value `significand * 2 ^ exponent`. The flag says that the next smaller double is only
  half as far away as the next larger one. -/
  | finite (significand : Nat) (exponent : Int) (narrowBelow : Bool)
  /-- Larger than every finite double. -/
  | infinite
  /-- Not a number. -/
  | nan

/-- Whether the sign bit of a double is set. -/
def isNegative (bits : UInt64) : Bool := bits >>> 63 == 1

/-- The size of the double with the given bits. -/
def magnitude (bits : UInt64) : Magnitude :=
  let power := ((bits >>> 52) &&& 0x7FF).toNat
  let fraction := (bits &&& 0xFFFFFFFFFFFFF).toNat
  if power = 0x7FF then if fraction = 0 then .infinite else .nan
  else if power = 0 then .finite fraction (-1074) false
  else .finite (fraction + Nat.pow 2 52) (power - 1075) (fraction == 0 && 1 < power)

/-! ## The shortest digits -/

/-- The decimal number `digits * 10 ^ exponent`. -/
structure Digits where
  /-- The digits, as one whole number. -/
  digits : Nat
  /-- The power of ten of the last digit. -/
  exponent : Int
deriving DecidableEq, Repr

/-- The number of decimal digits of a positive number. -/
def width (n : Nat) : Nat := (Nat.toDigits 10 n).length

/-- A positive double with the reals that round to it, each a multiple of one over `scale`. -/
structure Target where
  /-- The least of the reals that round to it. -/
  low : Nat
  /-- The double itself. -/
  value : Nat
  /-- The greatest of the reals that round to it. -/
  high : Nat
  /-- What the three are multiples of the inverse of. -/
  scale : Nat
  /-- Whether the two ends round to it as well. -/
  closed : Bool

/-- The reals that round to `m * 2 ^ q`: half way to the neighbours on both sides. -/
def Target.of (m : Nat) (q : Int) (narrowBelow : Bool) : Target :=
  let up := Nat.pow 2 (q - 2).toNat
  { low := (4 * m - (if narrowBelow then 1 else 2)) * up
    value := 4 * m * up
    high := (4 * m + 2) * up
    scale := Nat.pow 2 (2 - q).toNat
    closed := m % 2 == 0 }

/-- How far left of the point the first digit stands: `10 ^ (p - 1) ≤ value < 10 ^ p`. -/
def Target.position (t : Target) : Int :=
  if t.scale ≤ t.value then width (t.value / t.scale)
  else
    let rec climb : Nat → Nat → Int
      | 0, zeros => -(zeros : Int)
      | fuel + 1, zeros =>
        if t.scale ≤ t.value * Nat.pow 10 (zeros + 1) then -(zeros : Int)
        else climb fuel (zeros + 1)
    climb 400 0

/-- The multiple of `10 ^ e` that reads back as the target and is nearest to it, if there is one. -/
def Target.onGrid? (t : Target) (e : Int) : Option Digits :=
  let up := Nat.pow 10 (-e).toNat
  let unit := t.scale * Nat.pow 10 e.toNat
  let reads (d : Nat) : Bool :=
    if t.closed then t.low * up ≤ d * unit && d * unit ≤ t.high * up
    else t.low * up < d * unit && d * unit < t.high * up
  let below := t.value * up / unit
  let rest := t.value * up % unit
  let nearerAbove := unit < 2 * rest || (2 * rest == unit && below % 2 == 1)
  if reads below && (!reads (below + 1) || !nearerAbove) && 0 < below then some ⟨below, e⟩
  else if reads (below + 1) then some ⟨below + 1, e⟩
  else none

/-- The first answer on the grids with `n`, `n + 1`, … digits. -/
def Target.search (t : Target) (position : Int) : Nat → Nat → Digits
  | 0, n =>
    let up := Nat.pow 10 (n - position).toNat
    let unit := t.scale * Nat.pow 10 (position - n).toNat
    ⟨t.value * up / unit, position - n⟩
  | fuel + 1, n => (t.onGrid? (position - n)).getD (t.search position fuel (n + 1))

/-- Drop zeros from the end of the digits. -/
def Digits.trim (d : Digits) : Digits :=
  let zeros := ((Nat.toDigits 10 d.digits).reverse.takeWhile (· == '0')).length
  if d.digits = 0 then ⟨0, 0⟩ else ⟨d.digits / Nat.pow 10 zeros, d.exponent + zeros⟩

/-- The shortest digits that read back as the positive double `m * 2 ^ q`. -/
def shortest (m : Nat) (q : Int) (narrowBelow : Bool) : Digits :=
  let t := Target.of m q narrowBelow
  (t.search t.position 17 1).trim

/-! ## Layouts -/

/-- The choices that are left once the digits are known. -/
structure Layout where
  /-- Whether a number whose point stands after the given number of digits is written without a
  power of ten. -/
  positional : Int → Bool
  /-- What follows a whole number that is written without a power of ten. -/
  whole : String
  /-- The sign of a power of ten that is not negative. -/
  plus : String
  /-- The text for an infinity. -/
  infinity : String
  /-- The text for what is no number. -/
  nan : String

/-- Digits with the point after the first `position` of them, zeros filling the gap. -/
def Layout.place (l : Layout) (digits : List Char) (position : Int) : String :=
  if position ≤ 0 then
    "0." ++ String.ofList (List.replicate (-position).toNat '0' ++ digits)
  else if digits.length ≤ position.toNat then
    String.ofList (digits ++ List.replicate (position.toNat - digits.length) '0') ++ l.whole
  else
    String.ofList (digits.take position.toNat) ++ "." ++ String.ofList (digits.drop position.toNat)

/-- Digits with the point after the first of them and a power of ten. -/
def Layout.scientific (l : Layout) (digits : List Char) (position : Int) : String :=
  let tail := digits.drop 1
  String.ofList (digits.take 1) ++ (if tail.isEmpty then "" else "." ++ String.ofList tail) ++
    "e" ++ (if position < 1 then "" else l.plus) ++ toString (position - 1)

/-- The text of the double with the given bits. -/
def Layout.write (l : Layout) (bits : UInt64) : String :=
  let sign := if isNegative bits then "-" else ""
  match magnitude bits with
  | .nan => l.nan
  | .infinite => sign ++ l.infinity
  | .finite 0 _ _ => sign ++ "0" ++ l.whole
  | .finite m q narrow =>
    let d := shortest m q narrow
    let digits := Nat.toDigits 10 d.digits
    let position := digits.length + d.exponent
    sign ++ (if l.positional position then l.place digits position
      else l.scientific digits position)

/-- Every number is written out in full, and a whole number without a point. -/
def plain : Layout := ⟨fun _ => true, "", "", "inf", "NaN"⟩

/-! ## Reading -/

/-- The bits of the double nearest to `digits * 10 ^ exponent`, ties going to the even one. -/
def nearest (negative : Bool) (digits : Nat) (exponent : Int) : UInt64 :=
  let size : Float :=
    if digits = 0 then 0
    else if 400 < width digits + exponent then Float.ofScientific 1 false 400
    else if width digits + exponent < -400 then 0
    else Float.ofScientific digits (decide (exponent < 0)) exponent.natAbs
  (if negative then -size else size).toBits

end StagedCodegen.Decimal
