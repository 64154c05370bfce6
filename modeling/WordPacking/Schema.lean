/-
# Schemas

A schema is a type with everything looked up: its leaves are primitives together with their
widths, and no reference to another type is left.  All figures of a record type, and its
layout, are functions of its schema.
-/
import WordPacking.Layout
import WordPacking.Shape.Size

namespace WordPacking

/-- A leaf of a schema: a primitive with the width that it has. -/
structure Primitive where
  /-- The name of the primitive. -/
  name : String
  /-- Its width, in bits. -/
  width : Nat
deriving DecidableEq, Repr

/-- A type with its widths looked up. -/
abbrev Tree := Shape Primitive

/-- The width of the slot that tells which variant of an enum is present. -/
def discriminantBits : Nat := 8

namespace Shape

mutual

/-- The widths of the slots of a type, in order.  The members of a struct follow one another,
an array repeats the slots of its element, and an enum has its discriminant and then the slots
of its widest variant. -/
def widths : Tree → List Nat
  | leaf p => [p.width]
  | array capacity element =>
    if capacity = 0 then []
    else
      let slots := element.widths
      if slots.isEmpty then [] else (List.replicate capacity.toNat slots).flatten
  | struct _ _ members => memberWidths members
  | enum _ variants => discriminantBits :: widthsOfSize (sizeMax variants) variants

/-- The slots of the members, one member after the other. -/
def memberWidths : List (Member Tree) → List Nat
  | [] => []
  | ⟨_, body, _⟩ :: members => body.widths ++ memberWidths members

/-- The slots of the first variant that has the given number of slots. -/
def widthsOfSize (size : Nat) : List (Variant Tree) → List Nat
  | [] => []
  | ⟨_, body⟩ :: variants =>
    if body.size = size then body.widths else widthsOfSize size variants

end

/-! ## The widths of a type in terms of those of its parts -/

@[simp] theorem widths_leaf (p : Primitive) : widths (leaf p) = [p.width] := rfl

theorem widths_array (capacity : UInt32) (element : Tree) :
    widths (array capacity element) =
      (List.replicate capacity.toNat element.widths).flatten := by
  rw [widths]
  split
  · next h => simp [h]
  · dsimp only
    split
    · next h => simp [List.isEmpty_iff.mp h]
    · rfl

theorem memberWidths_eq_flatMap (members : List (Member Tree)) :
    memberWidths members = members.flatMap fun m => m.body.widths := by
  induction members with
  | nil => rfl
  | cons m members ih => simp [memberWidths, ih]

theorem widths_struct (name : String) (attrs : Attrs) (members : List (Member Tree)) :
    widths (struct name attrs members) = members.flatMap fun m => m.body.widths := by
  rw [widths, memberWidths_eq_flatMap]

theorem widthsOfSize_eq_find? (n : Nat) (variants : List (Variant Tree)) :
    widthsOfSize n variants =
      ((variants.find? fun v => v.body.size == n).map fun v => v.body.widths).getD [] := by
  induction variants with
  | nil => rfl
  | cons v variants ih =>
    rcases v with ⟨name, body⟩
    by_cases h : body.size = n <;> simp [widthsOfSize, h, ih]

/-- An enum has its discriminant and then the slots of its widest variant. -/
theorem widths_enum (name : String) (variants : List (Variant Tree)) :
    widths (enum name variants) =
      discriminantBits :: ((widest? variants).map fun v => v.1.body.widths).getD [] := by
  simp [widths, widthsOfSize_eq_find?, widest?, Function.comp_def]

mutual

/-- A type has as many widths as slots. -/
theorem length_widths : ∀ t : Tree, t.widths.length = t.size
  | leaf _ => rfl
  | array capacity element => by
    rw [widths_array, size, ← length_widths element]
    simp
  | struct _ _ members => by
    rw [widths, size, length_memberWidths members]
  | enum _ variants => by
    rw [widths, size, List.length_cons, Nat.add_comm]
    congr 1
    by_cases h : variants = []
    · subst h
      rfl
    · exact length_widthsOfSize variants _ (exists_size_eq_sizeMax h)

/-- Members have as many widths as slots. -/
theorem length_memberWidths : ∀ members : List (Member Tree),
    (memberWidths members).length = sizeSum members
  | [] => rfl
  | ⟨_, body, _⟩ :: members => by
    simp [memberWidths, sizeSum, length_widths body, length_memberWidths members]

/-- A variant that is found by its number of slots has as many widths. -/
theorem length_widthsOfSize : ∀ (variants : List (Variant Tree)) (n : Nat),
    (∃ v ∈ variants, v.body.size = n) → (widthsOfSize n variants).length = n
  | [], _, h => by simp at h
  | ⟨_, body⟩ :: variants, n, h => by
    rw [widthsOfSize]
    split
    · next hsize => rw [length_widths body, hsize]
    · next hsize =>
      obtain ⟨v, hv, hn⟩ := h
      rcases List.mem_cons.mp hv with rfl | hv
      · exact absurd hn hsize
      · exact length_widthsOfSize variants n ⟨v, hv, hn⟩

end

end Shape

/-- A record type with everything looked up, for storage words of one size. -/
structure Schema where
  /-- The type itself. -/
  root : Tree
  /-- The size of one storage word, in bits. -/
  wordBits : Nat
deriving DecidableEq, Repr

namespace Tree

/-- The declared name.  Arrays are anonymous. -/
def name? (t : Tree) : Option String := Shape.name? Primitive.name t

/-- What the type is, in one word. -/
def kind (t : Tree) : Kind := Shape.kind (fun _ => Kind.primitive) t

end Tree

namespace Schema

/-- The declared name of the root. -/
def name? (s : Schema) : Option String := Tree.name? s.root

/-- The number of slots of an unpacked record. -/
def size (s : Schema) : Nat := s.root.size

/-- The members of the root, if it is a struct. -/
def members (s : Schema) : List (Member Tree) :=
  match s.root with
  | .struct _ _ members => members
  | _ => []

/-- The members of the root that are part of the key, in declaration order. -/
def keyMembers (s : Schema) : List (Member Tree) := s.members.filter (·.attrs.isKey)

/-- The members of the root that are not part of the key, in declaration order. -/
def valueMembers (s : Schema) : List (Member Tree) := s.members.filter (!·.attrs.isKey)

/-- The number of slots of the key members. -/
def keySize (s : Schema) : Nat := total (s.keyMembers.map (·.body.size))

/-- The number of slots of everything that is not a key member. -/
def valueSize (s : Schema) : Nat := s.size - s.keySize

/-- The slots of an unpacked record.  Memory is taken to have room for them; what becomes of a run
on a machine without room is said where runs are. -/
def layout (s : Schema) : Layout := ⟨s.root.widths, s.wordBits⟩

@[simp] theorem wordBits_layout (s : Schema) : s.layout.wordBits = s.wordBits := rfl

/-- A layout has as many slots as its schema. -/
theorem size_layout (s : Schema) : s.layout.size = s.size := Shape.length_widths s.root

end Schema

end WordPacking
