import StagedCodegen.Text.Hex
import StagedCodegen.Text.Split
import StagedCodegen.Text.Width.Table

/-!
# Widths of texts

How many columns a text takes up on a terminal. Most characters take up one, those of East Asia
two, and marks on other characters none. A picture that is put together from several characters
takes up two columns as a whole.
-/

namespace StagedCodegen.Text

namespace Width

/-- The ranges that lines of entries list, in ascending order. -/
def ranges (ls : List String) : Array (Nat × Nat) :=
  (ls.flatMap fun l => (split ' ' l.toList).filterMap fun e =>
    match (split '.' e).map (Hex.valueIn 16) with
    | [a] => some (a, a)
    | [a, b] => some (a, b)
    | _ => none).toArray

/-- A number lies in one of ascending ranges, the search being confined to `lo ≤ i < hi`. -/
def within (table : Array (Nat × Nat)) (n : Nat) : (fuel lo hi : Nat) → Bool
  | 0, _, _ => false
  | fuel + 1, lo, hi =>
    if hi ≤ lo then false
    else
      let mid := (lo + hi) / 2
      match table[mid]? with
      | none => false
      | some (a, b) =>
        if n < a then within table n fuel lo mid
        else if b < n then within table n fuel (mid + 1) hi
        else true

/-- The ranges of characters that take up no column. -/
def zeroTable : Array (Nat × Nat) := ranges zeroWide

/-- The ranges of characters that take up two columns. -/
def doubleTable : Array (Nat × Nat) := ranges doubleWide

/-- The ranges of characters that can be shown as a picture. -/
def emojiTable : Array (Nat × Nat) := ranges emoji

/-- The columns that a character takes up by itself. -/
def ofChar (c : Char) : Nat :=
  let n := c.toNat
  if n < 0xa0 then 1
  else if within zeroTable n 32 0 zeroTable.size then 0
  else if within doubleTable n 32 0 doubleTable.size then 2
  else 1

/-- The character can be shown as a picture. -/
def isEmoji (c : Char) : Bool := within emojiTable c.toNat 32 0 emojiTable.size

/-- The character changes the colour of the picture before it. -/
def isModifier (c : Char) : Bool := 0x1f3fb ≤ c.toNat && c.toNat ≤ 0x1f3ff

/-- The columns that characters take up. `picture` means that a picture stands before them, and
`joined` that the next one belongs to it. -/
def ofChars : (picture joined : Bool) → List Char → Nat
  | _, _, [] => 0
  | picture, joined, c :: cs =>
    if picture && isModifier c then ofChars true false cs
    else if picture && c.toNat == 0x200d then ofChars true true cs
    else if picture && c.toNat == 0xfe0f then ofChars true joined cs
    else if joined && isEmoji c then ofChars true false cs
    else if isEmoji c && (cs.head?.map Char.toNat) == some 0xfe0f then 2 + ofChars true false cs
    else ofChar c + ofChars (isEmoji c && ofChar c == 2) false cs

end Width

/-- The columns that a text takes up. -/
def width (s : String) : Nat := Width.ofChars false false s.toList

end StagedCodegen.Text
