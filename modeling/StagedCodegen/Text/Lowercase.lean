import StagedCodegen.Text.Hex
import StagedCodegen.Text.Lowercase.Table
import StagedCodegen.Text.Split

/-!
# Small letters

A text with every capital replaced by its small letter. The Greek sigma has two small letters, of
which one stands at the end of words.
-/

namespace StagedCodegen.Text

namespace Lowercase

/-- A run of capitals. -/
structure Run where
  /-- The first capital. -/
  first : Nat
  /-- The last one. -/
  last : Nat
  /-- The distance from one to the next. -/
  stride : Nat
  /-- The small letter of the first. -/
  small : Nat

/-- All runs. -/
def table : List Run :=
  runs.flatMap fun l => (split ' ' l.toList).filterMap fun e =>
    match (split '.' e).map (Hex.valueIn 16) with
    | [a, b, k, s] => some ⟨a, b, k, s⟩
    | _ => none

/-- The small letter of a capital beyond ASCII. -/
def Run.small? (n : Nat) (r : Run) : Option Nat :=
  if r.first ≤ n ∧ n ≤ r.last ∧ (n - r.first) % r.stride = 0 then some (r.small + (n - r.first))
  else none

/-- What a character becomes by itself. -/
def ofChar (c : Char) : List Char :=
  let n := c.toNat
  if n < 0x80 then [c.toLower]
  else if n = 0x130 then ['i', Char.ofNat 0x307]
  else match table.findSome? (Run.small? n) with
    | some m => [Char.ofNat m]
    | none => [c]

/-- The character has another case. -/
def isCased (c : Char) : Bool :=
  c.isAlpha || ofChar c != [c] ||
    (0x80 ≤ c.toNat && table.any fun r =>
      r.small ≤ c.toNat && c.toNat ≤ r.small + (r.last - r.first) &&
        (c.toNat - r.small) % r.stride == 0)

/-- What characters become, the last of those before them being given. -/
def ofChars : (before : Option Char) → List Char → List Char
  | _, [] => []
  | before, c :: cs =>
    let small :=
      if c.toNat = 0x3a3 then
        if before.any isCased && !(cs.head?.any isCased) then [Char.ofNat 0x3c2]
        else [Char.ofNat 0x3c3]
      else ofChar c
    small ++ ofChars (some c) cs

end Lowercase

/-- The text with small letters for capitals. -/
def lowercase (s : String) : String := String.ofList (Lowercase.ofChars none s.toList)

end StagedCodegen.Text
