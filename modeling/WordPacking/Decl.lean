/-
# Declared types

A declared type is a shape whose leaves are names: of a primitive, whose width is in a width
table, or of another type, whose definition is registered under that name.
-/
import WordPacking.Shape

namespace WordPacking

/-- A name at a leaf of a declared type. -/
inductive Ref where
  /-- A primitive, to be looked up in a width table. -/
  | primitive (name : String)
  /-- A registered struct or enum. -/
  | named (name : String)
deriving DecidableEq, Repr

/-- The name itself. -/
def Ref.name : Ref → String
  | primitive name => name
  | named name => name

/-- What the name is a name of. -/
def Ref.kind : Ref → Kind
  | primitive _ => .primitive
  | named _ => .named

/-- A type as declared. -/
abbrev Decl := Shape Ref

namespace Decl

/-- A primitive. -/
def primitive (name : String) : Decl := .leaf (.primitive name)

/-- A reference to a registered type. -/
def named (name : String) : Decl := .leaf (.named name)

/-- The struct without members, for variants that carry nothing. -/
def unit : Decl := .struct "()" .empty []

/-- The unsigned integer of 256 bits, kept as two halves. -/
def u256 : Decl :=
  .struct "u256" .empty
    [⟨"low", primitive "u128", .empty⟩, ⟨"high", primitive "u128", .empty⟩]

/-- The declared name.  Arrays are anonymous. -/
def name? (d : Decl) : Option String := Shape.name? Ref.name d

/-- What the type is, in one word. -/
def kind (d : Decl) : Kind := Shape.kind Ref.kind d

/-- The names of the key members of a struct, in declaration order. -/
def keys : Decl → List String
  | .struct _ _ members => (members.filter (·.attrs.isKey)).map (·.name)
  | _ => []

end Decl

end WordPacking
