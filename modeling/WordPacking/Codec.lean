/-
# Packing scalars into words

Each slot takes the bits of its word that the plan gives it, and the bits of a word above its
last slot are zero.  The words of a layout are packed and unpacked one after the other, each with
its own slots.

Packing refuses a value that does not fit its slot, and unpacking refuses a word with a bit
outside its slots.
-/
import WordPacking.Codec.Word
import WordPacking.Plan

namespace WordPacking

/-- Why values cannot be packed, or words unpacked. -/
inductive CodecError where
  /-- There is not one value for each slot. -/
  | scalarCount (expected found : Nat)
  /-- A value needs more bits than its slot has. -/
  | valueOverflow (slot bits width : Nat)
  /-- There are not as many words as the plan has. -/
  | wordCount (expected found : Nat)
  /-- A word has a bit that belongs to no slot. -/
  | strayBits (word : Nat)
deriving DecidableEq, Repr

/-- The text of an error. -/
def CodecError.message : CodecError → String
  | scalarCount expected found =>
    "expected " ++ toString expected ++ " scalars, found " ++ toString found
  | valueOverflow slot bits width =>
    "value for slot " ++ toString slot ++ " needs " ++ toString bits ++
      " bits but the slot is " ++ toString width ++ " bits wide"
  | wordCount expected found =>
    "expected " ++ toString expected ++ " packed words, found " ++ toString found
  | strayBits word => "packed word " ++ toString word ++ " has bits set outside its slots"

namespace Codec

/-! ## Rows of words -/

/-- Each word takes as many of the values as it has slots. -/
def joinWords : List (List Nat) → List Nat → List Nat
  | [], _ => []
  | group :: groups, values =>
    joinWord group (values.take group.length) :: joinWords groups (values.drop group.length)

/-- The values of the slots of all words, in order. -/
def splitWords : List (List Nat) → List Nat → List Nat
  | group :: groups, word :: words => splitWord group word ++ splitWords groups words
  | _, _ => []

/-! ## What is refused -/

/-- The first value that does not fit its slot, where the slots are counted from `slot` on. -/
def firstOverflow (slot : Nat) : List Nat → List Nat → Option CodecError
  | width :: widths, value :: values =>
    if width < Scalar.bitLength value then
      some (.valueOverflow slot (Scalar.bitLength value) width)
    else firstOverflow (slot + 1) widths values
  | _, _ => none

/-- The first word with a bit outside its slots, where the words are counted from `index` on. -/
def firstStray (index : Nat) : List (List Nat) → List Nat → Option CodecError
  | group :: groups, word :: words =>
    if total group < Scalar.bitLength word then some (.strayBits index)
    else firstStray (index + 1) groups words
  | _, _ => none

end Codec

namespace Layout

/-- Packs one value for each slot into words. -/
def pack (l : Layout) (values : List Nat) : Except CodecError (List Nat) :=
  if values.length ≠ l.size then .error (.scalarCount l.size values.length)
  else match Codec.firstOverflow 0 l.widths values with
    | some overflow => .error overflow
    | none => .ok (Codec.joinWords l.plan.words values)

/-- Recovers one value for each slot from words. -/
def unpack (l : Layout) (words : List Nat) : Except CodecError (List Nat) :=
  if words.length ≠ l.plan.wordCount then .error (.wordCount l.plan.wordCount words.length)
  else match Codec.firstStray 0 l.plan.words words with
    | some stray => .error stray
    | none => .ok (Codec.splitWords l.plan.words words)

end Layout

end WordPacking
