import StagedCodegen.Text.Hex

/-!
# The BLAKE3 digest

The message is cut into chunks of 1024 bytes, each chunk into blocks of 64 bytes. The blocks of a
chunk are chained by the compression function; the chunks are the leaves of a binary tree in which
the left side of every node is the largest complete subtree that leaves something for the right
side. The first 32 bytes of the root's output are the digest.
-/

namespace StagedCodegen.Digest.Blake3

/-- Sixteen words: the state of one compression, or one block of the message. -/
abbrev Words := Array UInt32

/-! ## Compression -/

/-- The words that start every chain. -/
def start : Words :=
  #[0x6A09E667, 0xBB67AE85, 0x3C6EF372, 0xA54FF53A, 0x510E527F, 0x9B05688C, 0x1F83D9AB, 0x5BE0CD19]

/-- Where each word of the message moves between rounds. -/
def shuffle : Array Nat := #[2, 6, 3, 10, 7, 0, 4, 13, 1, 11, 12, 5, 9, 14, 15, 8]

/-- The block is the first of its chunk. -/
def chunkStart : UInt32 := 1
/-- The block is the last of its chunk. -/
def chunkEnd : UInt32 := 2
/-- The block joins two subtrees. -/
def parent : UInt32 := 4
/-- The block is the last one compressed. -/
def root : UInt32 := 8

private def word (v : Words) (i : Nat) : UInt32 := v.getD i 0

private def rotateRight (x : UInt32) (n : UInt32) : UInt32 := (x >>> n) ||| (x <<< (32 - n))

/-- Mix two words of the message into one column or diagonal of the state. -/
def mix (v : Words) (a b c d : Nat) (x y : UInt32) : Words :=
  let va := word v a + word v b + x
  let vd := rotateRight (word v d ^^^ va) 16
  let vc := word v c + vd
  let vb := rotateRight (word v b ^^^ vc) 12
  let va := va + vb + y
  let vd := rotateRight (vd ^^^ va) 8
  let vc := vc + vd
  let vb := rotateRight (vb ^^^ vc) 7
  (((v.setIfInBounds a va).setIfInBounds b vb).setIfInBounds c vc).setIfInBounds d vd

/-- Mix a block into the state, columns first and then diagonals. -/
def round (v m : Words) : Words :=
  let v := mix v 0 4 8 12 (word m 0) (word m 1)
  let v := mix v 1 5 9 13 (word m 2) (word m 3)
  let v := mix v 2 6 10 14 (word m 4) (word m 5)
  let v := mix v 3 7 11 15 (word m 6) (word m 7)
  let v := mix v 0 5 10 15 (word m 8) (word m 9)
  let v := mix v 1 6 11 12 (word m 10) (word m 11)
  let v := mix v 2 7 8 13 (word m 12) (word m 13)
  mix v 3 4 9 14 (word m 14) (word m 15)

/-- The given number of rounds, the message shuffled between them. -/
def rounds : Nat → Words → Words → Words
  | 0, v, _ => v
  | 1, v, m => round v m
  | n + 1, v, m => rounds n (round v m) (shuffle.map (word m))

/-- What is known about a block before it is compressed. -/
structure Block where
  /-- The chaining value that comes in. -/
  chain : Words
  /-- The sixteen words of the block. -/
  message : Words
  /-- The number of the chunk, zero for a parent. -/
  counter : UInt64
  /-- How many bytes of the block belong to the message. -/
  length : UInt32
  /-- The roles of the block. -/
  flags : UInt32

/-- The first eight words that a block compresses to. -/
def Block.compress (b : Block) : Words :=
  let state := b.chain ++ start.extract 0 4 ++
    #[b.counter.toUInt32, (b.counter >>> 32).toUInt32, b.length, b.flags]
  let v := rounds 7 state b.message
  Array.ofFn fun i : Fin 8 => word v i ^^^ word v (i + 8)

/-! ## The tree -/

/-- The word at an offset of the message, least byte first, bytes past the end being zero. -/
def wordAt (bytes : ByteArray) (stop i : Nat) : UInt32 :=
  let byte (j : Nat) : UInt32 := if j < stop then (bytes[j]?.getD 0).toUInt32 else 0
  byte i ||| (byte (i + 1) <<< 8) ||| (byte (i + 2) <<< 16) ||| (byte (i + 3) <<< 24)

/-- The last block of the chunk at `from_`, the blocks before it being chained already. -/
def chunkFrom (bytes : ByteArray) (counter : UInt64) (stop : Nat) :
    Nat → Nat → Words → UInt32 → Block
  | blocks, at_, chain, flags =>
    let length := min 64 (stop - at_)
    let message := Array.ofFn fun i : Fin 16 => wordAt bytes (at_ + length) (at_ + 4 * i)
    let block : Block := ⟨chain, message, counter, length.toUInt32, flags⟩
    match blocks with
    | 0 => { block with flags := flags ||| chunkEnd }
    | blocks + 1 => chunkFrom bytes counter stop blocks (at_ + 64) block.compress 0

/-- The last block of the chunk with the given number. -/
def chunk (bytes : ByteArray) (n : Nat) : Block :=
  let stop := min bytes.size (1024 * (n + 1))
  chunkFrom bytes n.toUInt64 stop ((stop - 1024 * n - 1) / 64) (1024 * n) start chunkStart

/-- The block that joins two subtrees. -/
def join (left right : Block) : Block :=
  ⟨start, left.compress ++ right.compress, 0, 64, parent⟩

/-- The number of chunks on the left of a tree of `n + 2` chunks: the largest power of two that
leaves at least one for the right. -/
def leftSize (n : Nat) : Nat := Nat.pow 2 (n + 1).log2

theorem leftSize_pos (n : Nat) : 0 < leftSize n := Nat.two_pow_pos _

theorem leftSize_lt (n : Nat) : leftSize n < n + 2 :=
  Nat.lt_succ_of_le (Nat.log2_self_le (by omega))

/-- The last block of the tree over the `count` chunks from number `first`. -/
def tree (bytes : ByteArray) (first : Nat) : Nat → Block
  | 0 => chunk bytes first
  | 1 => chunk bytes first
  | n + 2 => join (tree bytes first (leftSize n))
    (tree bytes (first + leftSize n) (n + 2 - leftSize n))
termination_by count => count
decreasing_by
  · exact leftSize_lt n
  · have := leftSize_pos n; omega

/-- The bytes of a word, least first. -/
def bytesOf (w : UInt32) : List UInt8 :=
  [w.toUInt8, (w >>> 8).toUInt8, (w >>> 16).toUInt8, (w >>> 24).toUInt8]

/-- The digest of a message. -/
def digest (bytes : ByteArray) : List UInt8 :=
  let top := tree bytes 0 ((bytes.size + 1023) / 1024)
  ({ top with flags := top.flags ||| root }).compress.toList.flatMap bytesOf

/-- The digest as 64 hexadecimal digits. -/
def hex (bytes : ByteArray) : String := Text.Hex.encode (digest bytes)

end StagedCodegen.Digest.Blake3
