/-!
# Hexadecimal text

Bytes written with two lowercase digits each, and the byte order of words.
-/

namespace OpManifest.Digest

/-- The lowercase digit of a number below sixteen. -/
def hexDigit (n : Nat) : Char := Nat.digitChar (n % 16)

/-- Two digits for each byte, the high half first. -/
def hex (bytes : List UInt8) : String :=
  .ofList (bytes.flatMap fun b => [hexDigit (b.toNat / 16), hexDigit b.toNat])

/-- The digest text has two digits for each byte. -/
theorem length_hex (bytes : List UInt8) : (hex bytes).length = 2 * bytes.length := by
  induction bytes with
  | nil => rfl
  | cons b rest ih => simp_all [hex, List.flatMap_cons]; omega

/-- The word with the given bytes, the most significant first. -/
def bigEndian (bytes : List UInt8) : UInt32 :=
  bytes.foldl (fun word b => word * 256 + b.toUInt32) 0

/-- The word with the given bytes, the least significant first. -/
def littleEndian (bytes : List UInt8) : UInt32 :=
  bytes.foldr (fun b word => word * 256 + b.toUInt32) 0

/-- The four bytes of a word, the most significant first. -/
def bigEndianBytes (word : UInt32) : List UInt8 :=
  [(word >>> 24).toUInt8, (word >>> 16).toUInt8, (word >>> 8).toUInt8, word.toUInt8]

/-- The four bytes of a word, the least significant first. -/
def littleEndianBytes (word : UInt32) : List UInt8 := (bigEndianBytes word).reverse

/-- Rotates the bits of a word to the right. -/
def rotateRight (word count : UInt32) : UInt32 := (word >>> count) ||| (word <<< (32 - count))

/-- Cuts a list into parts of `size` elements; the last part may be shorter. -/
def chunks {α : Type} (size : Nat) (xs : List α) : List (List α) :=
  if _h : xs.length ≤ size ∨ size = 0 then [xs]
  else xs.take size :: chunks size (xs.drop size)
termination_by xs.length
decreasing_by simp; omega

end OpManifest.Digest
