/-
# Registered definitions

Structs and enums can be registered under their declared names, so that other types refer to
them by name.  A name is registered once and for all: a second definition of it is refused.
-/
import Std.Data.ExtTreeMap
import WordPacking.Decl

namespace WordPacking

/-- Why a type cannot be registered. -/
inductive RegisterError where
  /-- Only structs and enums have a name of their own. -/
  | anonymous (kind : Kind)
  /-- The name has a definition already. -/
  | duplicate (name : String)
deriving DecidableEq, Repr

/-- The text of an error. -/
def RegisterError.message : RegisterError → String
  | anonymous kind => "cannot register an anonymous " ++ kind.text ++ " type"
  | duplicate name => "type `" ++ name ++ "` is already registered"

/-- The name that a type declares for itself: that of a struct or an enum. -/
def Decl.ownName? : Decl → Option String
  | .struct name _ _ => some name
  | .enum name _ => some name
  | .array _ _ => none
  | .leaf _ => none

/-- Definitions of structs and enums, by name. -/
structure Definitions where
  /-- The definition of each registered name. -/
  byName : Std.ExtTreeMap String Decl
deriving DecidableEq

namespace Definitions

/-- No definition. -/
def empty : Definitions := ⟨∅⟩

/-- The definition of a name. -/
def get? (ds : Definitions) (name : String) : Option Decl := ds.byName[name]?

/-- Whether a name has a definition. -/
def contains (ds : Definitions) (name : String) : Bool := ds.byName.contains name

/-- The registered names, sorted. -/
def names (ds : Definitions) : List String := ds.byName.keys

/-- The number of definitions. -/
def size (ds : Definitions) : Nat := ds.byName.size

/-- Whether nothing is registered. -/
def isEmpty (ds : Definitions) : Bool := ds.byName.isEmpty

/-- All definitions, sorted by name. -/
def toList (ds : Definitions) : List (String × Decl) := ds.byName.toList

/-- Registers a struct or an enum under its declared name. -/
def register (ds : Definitions) (d : Decl) : Except RegisterError Definitions :=
  match d.ownName? with
  | none => .error (.anonymous d.kind)
  | some name =>
    if ds.contains name then .error (.duplicate name)
    else .ok ⟨ds.byName.insert name d⟩

/-- The same call on definitions that are changed in place: it leaves definitions behind also when
it refuses the type. -/
def registerM (d : Decl) : EStateM RegisterError Definitions Unit := do
  match d.ownName? with
  | none => throw (.anonymous d.kind)
  | some name =>
    if (← get).contains name then throw (.duplicate name)
    modify fun ds => ⟨ds.byName.insert name d⟩

/-- Registers types one after the other, up to the first that is refused. -/
def registerAll (ds : Definitions) (types : List Decl) : Except RegisterError Definitions :=
  types.foldlM register ds

@[simp] theorem get?_empty (name : String) : empty.get? name = none := by
  simp [empty, get?]

theorem contains_eq_isSome (ds : Definitions) (name : String) :
    ds.contains name = (ds.get? name).isSome := by
  simp [contains, get?]

theorem mem_names_iff {ds : Definitions} {name : String} :
    name ∈ ds.names ↔ (ds.get? name).isSome = true := by
  simp [names, get?]

theorem nodup_names (ds : Definitions) : ds.names.Nodup :=
  Std.ExtTreeMap.nodup_keys

end Definitions

end WordPacking
