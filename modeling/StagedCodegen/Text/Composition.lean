import StagedCodegen.Text.Composition.Table
import StagedCodegen.Text.Hex
import StagedCodegen.Text.Split

/-!
# Canonical composition

Two texts that Unicode holds for the same character by character may be written differently: with
composed characters or with combining marks. `compose` gives the form in which everything that can
be composed is composed: characters are taken apart, marks on one character are put in order of
their classes, and then each mark is joined to its character unless another mark stands between.
-/

namespace StagedCodegen.Text

namespace Composition

/-! ## The data -/

/-- The entries of lines of numbers. -/
def entries (ls : List String) : List (List Nat) :=
  ls.flatMap fun l => (split ' ' l.toList).map fun e => (split '.' e).map (Hex.valueIn 16)

/-- The last entry of an array, sorted by its first numbers, whose first number is at most `k`;
the search is confined to `lo ≤ i < hi`. -/
def lastUpTo (table : Array (Nat × List Nat)) (k : Nat) :
    (fuel lo hi : Nat) → Option (Nat × List Nat)
  | 0, _, _ => none
  | fuel + 1, lo, hi =>
    if hi ≤ lo then none
    else if hi = lo + 1 then
      (table[lo]?).bind fun e => if e.1 ≤ k then some e else none
    else
      let mid := (lo + hi) / 2
      match table[mid]? with
      | none => none
      | some e => if e.1 ≤ k then lastUpTo table k fuel mid hi else lastUpTo table k fuel lo mid

/-- The numbers under `k` in a sorted table. -/
def find? (table : Array (Nat × List Nat)) (k : Nat) : Option (List Nat) :=
  (lastUpTo table k 32 0 table.size).bind fun e => if e.1 = k then some e.2 else none

/-- A table sorted by its first numbers. -/
def sorted (es : List (Nat × List Nat)) : Array (Nat × List Nat) :=
  (es.mergeSort fun a b => a.1 ≤ b.1).toArray

/-- The entries of lines, each under its first number. -/
def byFirst (ls : List String) : List (Nat × List Nat) :=
  (entries ls).filterMap fun
    | a :: rest => some (a, rest)
    | [] => none

/-- What each character is taken apart into, in one step. -/
def partsTable : Array (Nat × List Nat) := sorted (byFirst composites ++ byFirst replaced)

/-- One number for two characters. -/
def pairKey (a b : Nat) : Nat := a * 0x200000 + b

/-- What each pair of characters is composed to. -/
def pairTable : Array (Nat × List Nat) :=
  sorted ((entries composites).filterMap fun
    | [c, a, b] => some (pairKey a b, [c])
    | _ => none)

/-- The ranges of marks with their classes. -/
def classTable : Array (Nat × List Nat) := sorted (byFirst classes)

/-- The class of a character: zero unless it is a mark that combines. -/
def markClass (c : Nat) : Nat :=
  if c < 0x300 then 0
  else match lastUpTo classTable c 32 0 classTable.size with
    | some (_, [last, k]) => if c ≤ last then k else 0
    | _ => 0

/-! ## Korean syllables -/

/-- A syllable taken apart into its letters. -/
def syllableParts? (c : Nat) : Option (List Nat) :=
  if 0xac00 ≤ c ∧ c < 0xac00 + 11172 then
    let i := c - 0xac00
    let tail := i % 28
    some ([0x1100 + i / 588, 0x1161 + i % 588 / 28] ++ if tail = 0 then [] else [0x11a7 + tail])
  else none

/-- Two letters, or a syllable and a last letter, composed to a syllable. -/
def syllable? (a b : Nat) : Option Nat :=
  if 0x1100 ≤ a ∧ a < 0x1113 ∧ 0x1161 ≤ b ∧ b < 0x1176 then
    some (0xac00 + (a - 0x1100) * 588 + (b - 0x1161) * 28)
  else if 0xac00 ≤ a ∧ a < 0xac00 + 11172 ∧ (a - 0xac00) % 28 = 0 ∧ 0x11a8 ≤ b ∧ b < 0x11c3 then
    some (a + (b - 0x11a7))
  else none

/-! ## Taking apart -/

/-- What a character is taken apart into, in one step. -/
def parts? (c : Nat) : Option (List Nat) :=
  if c < 0xc0 then none
  else match syllableParts? c with
    | some ps => some ps
    | none => find? partsTable c

/-- A character taken apart by such steps as far as it goes, in at most `depth` of them. -/
def takeApart (step : Nat → Option (List Nat)) : (depth : Nat) → Nat → List Nat
  | 0, c => [c]
  | depth + 1, c =>
    match step c with
    | some ps => ps.flatMap (takeApart step depth)
    | none => [c]

/-- Put a mark behind characters, last one first, but before the marks of a higher class. -/
def insertMark (c : Nat × Nat) : List (Nat × Nat) → List (Nat × Nat)
  | [] => [c]
  | d :: ds => if c.2 ≠ 0 ∧ c.2 < d.2 then d :: insertMark c ds else c :: d :: ds

/-- All characters taken apart, each with its class, the marks in order. -/
def apart (cs : List Nat) : List (Nat × Nat) :=
  (((cs.flatMap (takeApart parts? 8)).map fun c => (c, markClass c)).foldl
    (fun acc c => insertMark c acc) []).reverse

/-! ## Putting together -/

/-- What two characters are composed to. -/
def pair? (a b : Nat) : Option Nat :=
  match syllable? a b with
  | some c => some c
  | none =>
    match find? pairTable (pairKey a b) with
    | some [c] => some c
    | _ => none

/-- A character to which marks may be joined, with the marks after it that were not, the last one
first. -/
structure Base where
  /-- The character. -/
  base : Nat
  /-- The marks, each with its class. -/
  marks : List (Nat × Nat)

/-- The character and its marks. -/
def Base.flush (b : Base) : List Nat := b.base :: (b.marks.reverse.map (·.1))

/-- No mark stands between the base and a character of class `k`. -/
def Base.isOpen (b : Base) (k : Nat) : Bool :=
  match b.marks with
  | [] => true
  | m :: _ => m.2 < k

/-- Join marks to their characters. -/
def together : (b : Option Base) → List (Nat × Nat) → List Nat
  | none, [] => []
  | some b, [] => b.flush
  | none, (c, k) :: rest =>
    if k = 0 then together (some ⟨c, []⟩) rest else c :: together none rest
  | some b, (c, k) :: rest =>
    match if b.isOpen k then pair? b.base c else none with
    | some d => together (some { b with base := d }) rest
    | none =>
      if k = 0 then b.flush ++ together (some ⟨c, []⟩) rest
      else together (some { b with marks := (c, k) :: b.marks }) rest

end Composition

/-- The text with everything composed that can be composed. -/
def compose (s : String) : String :=
  if s.toList.all (·.toNat < 0xc0) then s
  else String.ofList
    ((Composition.together none (Composition.apart (s.toList.map Char.toNat))).map Char.ofNat)

end StagedCodegen.Text
