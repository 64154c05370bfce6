/-
# Shapes of record types

A record type is a tree of structs, arrays and enums.  What stands at its leaves depends on
the stage the type is in: a declared type has names there, a resolved one has widths.  The
tree is therefore written once, as `Shape α`, with leaves of any type `α`.

A walk over a shape is a group of three functions, one for shapes, one for the members of a
struct and one for the variants of an enum, each by recursion on the data.
-/
import WordPacking.Attrs

namespace WordPacking

/-- A member of a struct: its name, what it holds, and its own attribute tags. -/
structure Member (β : Type) where
  /-- The name of the member. -/
  name : String
  /-- The type of the member. -/
  body : β
  /-- The tags of the member. -/
  attrs : Attrs
deriving DecidableEq, Repr

/-- A variant of an enum: its name and the payload that it carries. -/
structure Variant (β : Type) where
  /-- The name of the variant. -/
  name : String
  /-- The type of the payload. -/
  body : β
deriving DecidableEq, Repr

/-- A record type over leaves `α`. -/
inductive Shape (α : Type) where
  /-- A leaf. -/
  | leaf (a : α)
  /-- `capacity` elements of one type. -/
  | array (capacity : UInt32) (element : Shape α)
  /-- Members in declaration order. -/
  | struct (name : String) (attrs : Attrs) (members : List (Member (Shape α)))
  /-- Variants in declaration order, of which a value has one. -/
  | enum (name : String) (variants : List (Variant (Shape α)))
deriving Repr

/-- What a type is, in one word. -/
inductive Kind where
  /-- A leaf with a width. -/
  | primitive
  /-- A struct. -/
  | struct
  /-- An array. -/
  | array
  /-- An enum. -/
  | enum
  /-- A reference by name. -/
  | named
deriving DecidableEq, Repr

/-- The word for a kind. -/
def Kind.text : Kind → String
  | .primitive => "primitive"
  | .struct => "struct"
  | .array => "array"
  | .enum => "enum"
  | .named => "named"

namespace Shape

variable {α β : Type}

/-- The declared name of a type.  Arrays are anonymous; `leafName` names a leaf. -/
def name? (leafName : α → String) : Shape α → Option String
  | leaf a => some (leafName a)
  | array _ _ => none
  | struct name _ _ => some name
  | enum name _ => some name

/-- The kind of a type, given the kind of its leaves. -/
def kind (leafKind : α → Kind) : Shape α → Kind
  | leaf a => leafKind a
  | array _ _ => .array
  | struct _ _ _ => .struct
  | enum _ _ => .enum

/-! ## Changing the leaves -/

mutual

/-- The same type with every leaf changed by `f`. -/
def map (f : α → β) : Shape α → Shape β
  | leaf a => leaf (f a)
  | array capacity element => array capacity (element.map f)
  | struct name attrs members => struct name attrs (mapMembers f members)
  | enum name variants => enum name (mapVariants f variants)

/-- The same members with every leaf changed. -/
def mapMembers (f : α → β) : List (Member (Shape α)) → List (Member (Shape β))
  | [] => []
  | ⟨name, body, attrs⟩ :: members => ⟨name, body.map f, attrs⟩ :: mapMembers f members

/-- The same variants with every leaf changed. -/
def mapVariants (f : α → β) : List (Variant (Shape α)) → List (Variant (Shape β))
  | [] => []
  | ⟨name, body⟩ :: variants => ⟨name, body.map f⟩ :: mapVariants f variants

end

/-! ## Equality of shapes can be decided -/

section Equality

variable [DecidableEq α]

mutual

/-- Compares two shapes, node by node. -/
def same : Shape α → Shape α → Bool
  | leaf a, leaf b => a = b
  | array c e, array d f => c = d && e.same f
  | struct n a ms, struct m b ns => n = m && a = b && sameMembers ms ns
  | enum n vs, enum m ws => n = m && sameVariants vs ws
  | _, _ => false

/-- Compares two lists of members. -/
def sameMembers : List (Member (Shape α)) → List (Member (Shape α)) → Bool
  | [], [] => true
  | ⟨n, s, a⟩ :: ms, ⟨m, t, b⟩ :: ns => n = m && s.same t && a = b && sameMembers ms ns
  | _, _ => false

/-- Compares two lists of variants. -/
def sameVariants : List (Variant (Shape α)) → List (Variant (Shape α)) → Bool
  | [], [] => true
  | ⟨n, s⟩ :: vs, ⟨m, t⟩ :: ws => n = m && s.same t && sameVariants vs ws
  | _, _ => false

end

mutual

theorem same_iff : ∀ s t : Shape α, s.same t = true ↔ s = t
  | leaf _, t => by cases t <;> simp [same]
  | array _ e, t => by cases t <;> simp [same, same_iff e]
  | struct _ _ ms, t => by cases t <;> simp [same, sameMembers_iff ms, and_assoc]
  | enum _ vs, t => by cases t <;> simp [same, sameVariants_iff vs]

theorem sameMembers_iff : ∀ ms ns : List (Member (Shape α)), sameMembers ms ns = true ↔ ms = ns
  | [], ns => by cases ns <;> simp [sameMembers]
  | ⟨_, s, _⟩ :: ms, ns => by
    rcases ns with _ | ⟨⟨_, t, _⟩, ns⟩
    · simp [sameMembers]
    · simp [sameMembers, same_iff s, sameMembers_iff ms, and_assoc]

theorem sameVariants_iff : ∀ vs ws : List (Variant (Shape α)),
    sameVariants vs ws = true ↔ vs = ws
  | [], ws => by cases ws <;> simp [sameVariants]
  | ⟨_, s⟩ :: vs, ws => by
    rcases ws with _ | ⟨⟨_, t⟩, ws⟩
    · simp [sameVariants]
    · simp [sameVariants, same_iff s, sameVariants_iff vs]

end

instance : DecidableEq (Shape α) := fun s t => decidable_of_iff _ (same_iff s t)

end Equality

end Shape

end WordPacking
