/-
# Scalars

A scalar is an unsigned integer of any size; whether it fits its slot is checked when it is
packed.  This file has the two figures that reports show of a scalar: its bit length and its
hexadecimal text.
-/

namespace WordPacking.Scalar

/-- The number of significant bits, none for zero. -/
def bitLength (n : Nat) : Nat := if n = 0 then 0 else n.log2 + 1

/-- The hexadecimal text: `0x` and lower-case digits without leading zeros. -/
def hex (n : Nat) : String := "0x" ++ String.ofList (Nat.toDigits 16 n)

end WordPacking.Scalar
