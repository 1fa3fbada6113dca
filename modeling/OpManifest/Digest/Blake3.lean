import OpManifest.Digest.Hex

/-!
# BLAKE3

The unkeyed digest of BLAKE3 with thirty-two bytes.  A message is cut into
chunks of 1024 bytes, which are the leaves of a binary tree; the left subtree
of a node is as large as a complete tree below it can be.
-/

namespace OpManifest.Digest.Blake3

/-- Eight words that stand for a chunk or a subtree. -/
abbrev Chaining := Vector UInt32 8

/-- The chaining value before the first block. -/
def initial : Chaining :=
  #v[0x6A09E667, 0xBB67AE85, 0x3C6EF372, 0xA54FF53A, 0x510E527F, 0x9B05688C, 0x1F83D9AB, 0x5BE0CD19]

/-- The domain flags of a compression. -/
def chunkStart : UInt32 := 1
def chunkEnd : UInt32 := 2
def parent : UInt32 := 4
def root : UInt32 := 8

/-- Mixes two message words into four words of the state. -/
def mix (v : Vector UInt32 16) (a b c d : Fin 16) (x y : UInt32) : Vector UInt32 16 :=
  let v := v.set a (v[a] + v[b] + x)
  let v := v.set d (rotateRight (v[d] ^^^ v[a]) 16)
  let v := v.set c (v[c] + v[d])
  let v := v.set b (rotateRight (v[b] ^^^ v[c]) 12)
  let v := v.set a (v[a] + v[b] + y)
  let v := v.set d (rotateRight (v[d] ^^^ v[a]) 8)
  let v := v.set c (v[c] + v[d])
  v.set b (rotateRight (v[b] ^^^ v[c]) 7)

/-- One round: the columns, then the diagonals. -/
def round (v m : Vector UInt32 16) : Vector UInt32 16 :=
  let v := mix v 0 4 8 12 m[0] m[1]
  let v := mix v 1 5 9 13 m[2] m[3]
  let v := mix v 2 6 10 14 m[4] m[5]
  let v := mix v 3 7 11 15 m[6] m[7]
  let v := mix v 0 5 10 15 m[8] m[9]
  let v := mix v 1 6 11 12 m[10] m[11]
  let v := mix v 2 7 8 13 m[12] m[13]
  mix v 3 4 9 14 m[14] m[15]

/-- The order in which the next round takes the message words. -/
def permute (m : Vector UInt32 16) : Vector UInt32 16 :=
  #v[m[2], m[6], m[3], m[10], m[7], m[0], m[4], m[13],
     m[1], m[11], m[12], m[5], m[9], m[14], m[15], m[8]]

/-- So many rounds, with the message words permuted between them. -/
def rounds : Nat → Vector UInt32 16 → Vector UInt32 16 → Vector UInt32 16
  | 0, v, _ => v
  | n + 1, v, m => rounds n (round v m) (permute m)

/-- The compression function, cut to its first eight words. -/
def compress (h : Chaining) (m : Vector UInt32 16) (counter : Nat) (length flags : UInt32) :
    Chaining :=
  let v := rounds 7
    #v[h[0], h[1], h[2], h[3], h[4], h[5], h[6], h[7],
       initial[0], initial[1], initial[2], initial[3],
       counter.toUInt32, (counter / 0x100000000).toUInt32, length, flags] m
  Vector.ofFn fun i : Fin 8 => v[i.val] ^^^ v[i.val + 8]

/-- The message words of a block; a block that is too short is filled up with
zeros. -/
def blockWords (block : List UInt8) : Vector UInt32 16 :=
  let words := (chunks 4 (block ++ List.replicate (64 - block.length) 0)).map littleEndian
  Vector.ofFn fun i : Fin 16 => words.getD i 0

/-- Compresses the blocks of a chunk.  The last one carries the flags of the
chunk's end. -/
def chunkBlocks (counter : Nat) (h : Chaining) (first last : UInt32) : List (List UInt8) → Chaining
  | [] => h
  | [block] =>
    compress h (blockWords block) counter block.length.toUInt32 (first ||| chunkEnd ||| last)
  | block :: others =>
    chunkBlocks counter (compress h (blockWords block) counter 64 first) 0 last others

/-- The chaining value of a chunk; `last` is the root flag if it is the whole
message. -/
def chunk (counter : Nat) (last : UInt32) (bytes : List UInt8) : Chaining :=
  chunkBlocks counter initial chunkStart last (chunks 64 bytes)

/-- The message words of a node of the tree. -/
def nodeWords (left right : Chaining) : Vector UInt32 16 := left ++ right

/-- How many of the chunks go to the left: the largest power of two that leaves
some for the right. -/
def leftCount (count : Nat) : Nat := 1 <<< (count - 1).log2

/-- Some chunks go to the left, and some to the right. -/
theorem leftCount_bounds {count : Nat} (h : ¬count ≤ 1) :
    0 < leftCount count ∧ leftCount count < count := by
  have hle := Nat.log2_self_le (n := count - 1) (by omega)
  have hpos := Nat.two_pow_pos (count - 1).log2
  rw [leftCount, Nat.one_shiftLeft]
  omega

theorem length_take_leftCount {leaves : List (List UInt8)} (h : ¬leaves.length ≤ 1) :
    (leaves.take (leftCount leaves.length)).length < leaves.length := by
  have hleft := leftCount_bounds h
  rw [List.length_take]
  omega

theorem length_drop_leftCount {leaves : List (List UInt8)} (h : ¬leaves.length ≤ 1) :
    (leaves.drop (leftCount leaves.length)).length < leaves.length := by
  have hleft := leftCount_bounds h
  rw [List.length_drop]
  omega

/-- The chaining value of the subtree over consecutive chunks of which the
first has the number `counter`. -/
def tree (counter : Nat) (last : UInt32) (leaves : List (List UInt8)) : Chaining :=
  if _h : leaves.length ≤ 1 then chunk counter last (leaves.headD [])
  else
    let left := leftCount leaves.length
    compress initial
      (nodeWords (tree counter 0 (leaves.take left)) (tree (counter + left) 0 (leaves.drop left)))
      0 64 (parent ||| last)
termination_by leaves.length
decreasing_by
  · exact length_take_leftCount _h
  · exact length_drop_leftCount _h

/-- The thirty-two bytes of the digest. -/
def digest (message : List UInt8) : List UInt8 :=
  (tree 0 root (chunks 1024 message)).toList.flatMap littleEndianBytes

end Blake3

/-- The BLAKE3 digest of the text's bytes, in hexadecimal. -/
def blake3 (text : String) : String := hex (Blake3.digest text.toUTF8.toList)

end OpManifest.Digest
