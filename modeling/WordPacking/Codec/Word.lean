/-
# Words

A word holds the values of its slots side by side, the first one from the lowest bit up.  A
value comes into a word with a shift and a bitwise or, and out of it with a shift and a mask.
-/
import WordPacking.Scalar

namespace WordPacking.Codec

/-- The number whose lowest `width` bits are set and no others. -/
def lowMask (width : Nat) : Nat := 1 <<< width - 1

/-- Puts the values of the slots of a word side by side, the first one at the lowest bit. -/
def joinWord : List Nat → List Nat → Nat
  | width :: widths, value :: values => value ||| joinWord widths values <<< width
  | _, _ => 0

/-- Takes a word apart into the values of its slots. -/
def splitWord : List Nat → Nat → List Nat
  | [], _ => []
  | width :: widths, word => (word &&& lowMask width) :: splitWord widths (word >>> width)

end WordPacking.Codec
