/-!
# Random record ids

An id is made of two random words: their bytes, lowest first, with the version and the variant stamped over six bits,
are written in hexadecimal, in groups of 4, 2, 2, 2 and 6 bytes.
-/

namespace RecordStore.Uuid

/-- The bytes of a word, lowest first. -/
def bytesOf (w : UInt64) : List UInt8 := (List.range 8).map fun i => .ofNat (w.toNat >>> (8 * i))

/-- Version 4 in the upper half of the byte. -/
def stampVersion (b : UInt8) : UInt8 := b &&& 0x0F ||| 0x40

/-- The bits 10 at the top of the byte. -/
def stampVariant (b : UInt8) : UInt8 := b &&& 0x3F ||| 0x80

/-- The sixteen bytes of the id of two words. -/
def bytes (low high : UInt64) : List UInt8 :=
  (bytesOf low).modify 6 stampVersion ++ (bytesOf high).modify 0 stampVariant

/-- Two hexadecimal digits, in lower case. -/
def hexByte (b : UInt8) : List Char := [Nat.digitChar (b.toNat / 16), Nat.digitChar (b.toNat % 16)]

/-- The groups of bytes that hyphens part. -/
def groupSizes : List Nat := [4, 2, 2, 2, 6]

/-- Writes the groups of the given sizes with hyphens between them. -/
def grouped : List Nat → List UInt8 → List Char
  | [], _ => []
  | [n], bs => (bs.take n).flatMap hexByte
  | n :: sizes, bs => (bs.take n).flatMap hexByte ++ '-' :: grouped sizes (bs.drop n)

/-- The id of two random words. -/
def ofWords (low high : UInt64) : String := String.ofList (grouped groupSizes (bytes low high))

/-! ## The form of an id -/

/-- A hexadecimal digit in lower case. -/
def isHexDigit (c : Char) : Bool := c.isDigit || ('a' ≤ c && c ≤ 'f')

/-- What may stand at a place of an id. -/
def fits (place : Nat) (c : Char) : Bool :=
  if place ∈ [8, 13, 18, 23] then c = '-'
  else if place = 14 then c = '4'
  else if place = 19 then c ∈ ['8', '9', 'a', 'b']
  else isHexDigit c

/-- A text of 36 characters that all fit their places. -/
def isVersion4 (text : String) : Bool :=
  let cs := text.toList
  cs.length = 36 && cs.zipIdx.all fun (c, place) => fits place c

end RecordStore.Uuid
