/-!
# Texts from bytes

Bytes that are no UTF-8 are read all the same: what cannot belong to a character is replaced by one
replacement character for each longest start of a character that breaks off.
-/

namespace StagedCodegen.Text

/-- The mark that may stand in front of a text, dropped. -/
def dropByteOrderMark (b : ByteArray) : ByteArray :=
  if b.size ≥ 3 ∧ b.get! 0 = 0xef ∧ b.get! 1 = 0xbb ∧ b.get! 2 = 0xbf then b.extract 3 b.size else b

namespace Utf8

/-- For the first byte of a character: the number of bytes that follow, the bounds of the first of
them, and what the byte itself contributes. -/
def leading? (b : Nat) : Option (Nat × Nat × Nat × Nat) :=
  if 0xc2 ≤ b ∧ b ≤ 0xdf then some (1, 0x80, 0xbf, b - 0xc0)
  else if b = 0xe0 then some (2, 0xa0, 0xbf, 0)
  else if b = 0xed then some (2, 0x80, 0x9f, 0xd)
  else if 0xe1 ≤ b ∧ b ≤ 0xef then some (2, 0x80, 0xbf, b - 0xe0)
  else if b = 0xf0 then some (3, 0x90, 0xbf, 0)
  else if 0xf1 ≤ b ∧ b ≤ 0xf3 then some (3, 0x80, 0xbf, b - 0xf0)
  else if b = 0xf4 then some (3, 0x80, 0x8f, 4)
  else none

/-- A character whose bytes are partly read: how many follow, the bounds of the next, and the value
so far. -/
structure Unfinished where
  /-- How many bytes follow. -/
  missing : Nat
  /-- The least next byte. -/
  least : Nat
  /-- The greatest next byte. -/
  greatest : Nat
  /-- The value of the bytes so far. -/
  value : Nat

/-- What stands for bytes that are no character. -/
def replacement : Char := Char.ofNat 0xfffd

/-- The first byte of a character: the character if it is the only one, or what it begins. -/
def start (b : Nat) : List Char × Option Unfinished :=
  if b < 0x80 then ([Char.ofNat b], none)
  else match leading? b with
    | some (n, least, greatest, value) => ([], some ⟨n, least, greatest, value⟩)
    | none => ([replacement], none)

/-- The characters of bytes, after what has been read of one. -/
def decode : (read : Option Unfinished) → List UInt8 → List Char
  | none, [] => []
  | some _, [] => [replacement]
  | none, b :: bs =>
    let (cs, read) := start b.toNat
    cs ++ decode read bs
  | some p, b :: bs =>
    let n := b.toNat
    if p.least ≤ n ∧ n ≤ p.greatest then
      let value := p.value * 64 + (n - 0x80)
      if p.missing ≤ 1 then Char.ofNat value :: decode none bs
      else decode (some ⟨p.missing - 1, 0x80, 0xbf, value⟩) bs
    else
      let (cs, read) := start n
      replacement :: (cs ++ decode read bs)

end Utf8

/-- The text of bytes. -/
def decodeLossy (b : ByteArray) : String :=
  match String.fromUTF8? b with
  | some s => s
  | none => String.ofList (Utf8.decode none b.toList)

end StagedCodegen.Text
