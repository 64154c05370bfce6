/-
# Slot counts

The number of slots that a value of a type takes when it is unpacked.  A leaf takes one slot,
an enum takes one for its discriminant and as many as its largest variant.  Counts are natural
numbers without bound; `checkedSize` is the count with the bound that each part of the type
has to keep, also the parts that take no slot in the end.
-/
import WordPacking.Shape

namespace WordPacking.Shape

variable {α : Type}

mutual

/-- The number of slots of a type. -/
def size : Shape α → Nat
  | leaf _ => 1
  | array capacity element => capacity.toNat * element.size
  | struct _ _ members => sizeSum members
  | enum _ variants => 1 + sizeMax variants

/-- The slots of all members together. -/
def sizeSum : List (Member (Shape α)) → Nat
  | [] => 0
  | ⟨_, body, _⟩ :: members => body.size + sizeSum members

/-- The slots of the largest variant, none if there is no variant. -/
def sizeMax : List (Variant (Shape α)) → Nat
  | [] => 0
  | ⟨_, body⟩ :: variants => max body.size (sizeMax variants)

end

/-- The variant that an enum reserves space for, with its slots: the first one of those with
the most slots. -/
def widest? (variants : List (Variant (Shape α))) : Option (Variant (Shape α) × Nat) :=
  (variants.find? fun v => v.body.size == sizeMax variants).map fun v => (v, v.body.size)

/-- The number of slots that can be addressed is below this bound. -/
def slotBound : Nat := UInt64.size

/-- A count, if it is below the bound. -/
def bounded (n : Nat) : Option Nat := if n < slotBound then some n else none

mutual

/-- The number of slots of a type, if that of each part of the type is below the bound. -/
def checkedSize : Shape α → Option Nat
  | leaf _ => some 1
  | array capacity element => element.checkedSize.bind fun n => bounded (capacity.toNat * n)
  | struct _ _ members => checkedSum members
  | enum _ variants => (checkedMax variants).bind fun n => bounded (n + 1)

/-- The slots of all members together, below the bound. -/
def checkedSum : List (Member (Shape α)) → Option Nat
  | [] => some 0
  | ⟨_, body, _⟩ :: members =>
    body.checkedSize.bind fun n => (checkedSum members).bind fun m => bounded (n + m)

/-- The slots of the largest variant, below the bound. -/
def checkedMax : List (Variant (Shape α)) → Option Nat
  | [] => some 0
  | ⟨_, body⟩ :: variants =>
    body.checkedSize.bind fun n => (checkedMax variants).map fun m => max n m

end

mutual

/-- The number of nodes of a type: its leaves, arrays, structs and enums. -/
def nodeCount : Shape α → Nat
  | leaf _ => 1
  | array _ element => element.nodeCount + 1
  | struct _ _ members => nodeCountMembers members + 1
  | enum _ variants => nodeCountVariants variants + 1

/-- The nodes of all members. -/
def nodeCountMembers : List (Member (Shape α)) → Nat
  | [] => 0
  | ⟨_, body, _⟩ :: members => body.nodeCount + nodeCountMembers members

/-- The nodes of all variants. -/
def nodeCountVariants : List (Variant (Shape α)) → Nat
  | [] => 0
  | ⟨_, body⟩ :: variants => body.nodeCount + nodeCountVariants variants

end

/-! ## Counts of lists -/

theorem size_le_sizeMax {variants : List (Variant (Shape α))} {v : Variant (Shape α)}
    (h : v ∈ variants) : v.body.size ≤ sizeMax variants := by
  induction variants with
  | nil => cases h
  | cons w variants ih =>
    cases w
    rcases List.mem_cons.mp h with rfl | h
    · simp only [sizeMax]; omega
    · have := ih h
      simp only [sizeMax]; omega

theorem exists_size_eq_sizeMax {variants : List (Variant (Shape α))} (h : variants ≠ []) :
    ∃ v ∈ variants, v.body.size = sizeMax variants := by
  induction variants with
  | nil => exact absurd rfl h
  | cons w variants ih =>
    rcases w with ⟨name, body⟩
    by_cases hv : variants = []
    · subst hv
      exact ⟨⟨name, body⟩, by simp, by simp [sizeMax]⟩
    · obtain ⟨v, hmem, hsize⟩ := ih hv
      by_cases hb : sizeMax variants ≤ body.size
      · exact ⟨⟨name, body⟩, by simp, by simp only [sizeMax]; omega⟩
      · exact ⟨v, by simp [hmem], by simp only [sizeMax]; omega⟩

end WordPacking.Shape
