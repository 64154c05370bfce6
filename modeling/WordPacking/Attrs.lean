/-
# Attribute tags

Structs and their members carry a set of eight flags.  Only one flag has a meaning: it marks
a member as part of the key of its record.  The other flags are kept as they are declared and
never change how a record is laid out.
-/

namespace WordPacking

/-- The attribute tags of a struct or of one of its members. -/
structure Attrs where
  /-- The flags, one per bit; the bit of least weight marks a key member. -/
  bits : UInt8
deriving DecidableEq, Repr

namespace Attrs

/-- No flag at all. -/
def empty : Attrs := ⟨0⟩

/-- The flag that marks a key member, alone. -/
def key : Attrs := ⟨1⟩

/-- Whether the key flag is among the flags. -/
def isKey (a : Attrs) : Bool := a.bits &&& 1 == 1

/-- The flags of either side. -/
def union (a b : Attrs) : Attrs := ⟨a.bits ||| b.bits⟩

/-- The flags that have no name: every flag but the key flag. -/
def unnamed (a : Attrs) : UInt8 := a.bits &&& 0xfe

@[simp] theorem isKey_empty : empty.isKey = false := rfl

@[simp] theorem isKey_key : key.isKey = true := rfl

end Attrs

end WordPacking
