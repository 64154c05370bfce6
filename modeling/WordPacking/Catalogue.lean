/-
# Catalogues of models

Models are kept by name.  A name is taken once and for all: a second model of that name is
refused.
-/
import Std.Data.ExtTreeMap
import WordPacking.Model

namespace WordPacking

/-- Models by name. -/
structure Catalogue where
  /-- The model of each name. -/
  byName : Std.ExtTreeMap String Model
deriving DecidableEq

namespace Catalogue

/-- No model. -/
def empty : Catalogue := ⟨∅⟩

/-- The model of a name, if there is one. -/
def find? (c : Catalogue) (name : String) : Option Model := c.byName[name]?

/-- The model of a name. -/
def get (c : Catalogue) (name : String) : Except ModelError Model :=
  match c.find? name with
  | some model => .ok model
  | none => .error (.unknownModel name)

/-- Whether there is a model of this name. -/
def contains (c : Catalogue) (name : String) : Bool := c.byName.contains name

/-- All models, sorted by name. -/
def models (c : Catalogue) : List Model := c.byName.values

/-- The names of the models, sorted. -/
def names (c : Catalogue) : List String := c.byName.keys

/-- The number of models. -/
def size (c : Catalogue) : Nat := c.byName.size

/-- Whether there is no model. -/
def isEmpty (c : Catalogue) : Bool := c.byName.isEmpty

/-- Adds a model under its name. -/
def register (c : Catalogue) (model : Model) : Except ModelError Catalogue :=
  if c.contains model.name then .error (.duplicateModel model.name)
  else .ok ⟨c.byName.insert model.name model⟩

/-- The same call on a catalogue that is changed in place. -/
def registerM (model : Model) : EStateM ModelError Catalogue Unit := do
  if (← getThe Catalogue).contains model.name then throw (.duplicateModel model.name)
  modify fun c => ⟨c.byName.insert model.name model⟩

@[simp] theorem find?_empty (name : String) : empty.find? name = none := by
  simp [empty, find?]

theorem contains_eq_isSome (c : Catalogue) (name : String) :
    c.contains name = (c.find? name).isSome := by
  simp [contains, find?]

end Catalogue

end WordPacking
