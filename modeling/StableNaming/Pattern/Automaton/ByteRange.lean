import StableNaming.Pattern.CharSet

/-!
# The bytes of characters

An automaton reads names byte by byte in UTF-8. A range of characters falls into
parts in which the bytes vary independently of each other: each part is a row of
byte ranges, and holds every choice of one byte from each.
-/

namespace StableNaming.Automaton

/-- A range of bytes. -/
structure ByteRange where
  /-- The least byte. -/
  low : UInt8
  /-- The greatest byte. -/
  high : UInt8
  deriving Repr, DecidableEq

/-- The range of one byte. -/
def ByteRange.single (b : UInt8) : ByteRange := ⟨b, b⟩

/-- Cut a range of code points before each of the given ones, which ascend. -/
def cutAt : List Nat → Nat → Nat → List (Nat × Nat)
  | [], low, high => [(low, high)]
  | b :: bs, low, high =>
    if b ≤ low then cutAt bs low high
    else if high < b then [(low, high)]
    else (low, b - 1) :: cutAt bs b high

/-- Cut a range of code points so that no part leaves a block unless it consists of whole
blocks. The sizes of blocks ascend, and each divides the next. -/
def cutIntoBlocks : List Nat → Nat → Nat → List (Nat × Nat)
  | [], low, high => [(low, high)]
  | size :: sizes, low, high =>
    if low / size = high / size then cutIntoBlocks sizes low high
    else
      let first := (low + size - 1) / size * size
      let stop := (high + 1) / size * size
      (if low < first then [(low, first - 1)] else []) ++
        ((if first < stop then cutIntoBlocks sizes first (stop - 1) else []) ++
          (if stop ≤ high then [(stop, high)] else []))

/-- The byte ranges between the bytes of two code points that take equally many. -/
def byteRanges (low high : Nat) : List ByteRange :=
  List.zipWith ByteRange.mk (String.utf8EncodeChar (.ofNat low))
    (String.utf8EncodeChar (.ofNat high))

/-- The rows of byte ranges that make up a range of characters, in ascending order. -/
def byteRows (low high : Nat) : List (List ByteRange) :=
  (cutAt [0x80, 0x800, 0x10000] low high).flatMap fun (low, high) =>
    if high < 0x80 then [byteRanges low high]
    else (cutIntoBlocks [0x40, 0x1000, 0x40000] low high).map fun (low, high) =>
      byteRanges low high

end StableNaming.Automaton
