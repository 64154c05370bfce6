/-
# Sessions

A session builds up a width table, definitions and models step by step.  A model keeps the
schema that it had when it was defined, also when the table or the definitions change later.
Loading a document replaces the table and the definitions, and the models if they can be made.
-/
import WordPacking.Bundle

namespace WordPacking

/-- A table, definitions and models under construction. -/
structure Session where
  /-- What types are resolved against. -/
  scope : Scope := { table := .standard }
  /-- The models so far. -/
  models : Catalogue := .empty

namespace Session

/-- The session with another width table. -/
def withTable (s : Session) (table : WidthTable) : Session :=
  { s with scope := { s.scope with table } }

/-- The session with another nesting limit. -/
def withMaxDepth (s : Session) (maxDepth : Nat) : Session :=
  { s with scope := { s.scope with maxDepth } }

/-- Registers a type. -/
def register (s : Session) (d : Decl) : Except RegisterError Session :=
  match s.scope.definitions.register d with
  | .error e => .error e
  | .ok definitions => .ok { s with scope := { s.scope with definitions } }

/-- Defines the model of a type. -/
def define (s : Session) (d : Decl) : Except ModelError (Model × Session) := do
  let model ← Model.ofDecl s.scope d
  let models ← s.models.register model
  return (model, { s with models })

/-- Takes over the table and the definitions of a bundle, and its models if they can be made.
The nesting limit of the session stays, but the models of the bundle are made under its own. -/
def load (s : Session) (b : Bundle) : Session × Except ModelError Unit :=
  let s := { s with scope := { s.scope with table := b.table, definitions := b.types } }
  match b.models with
  | .error e => (s, .error e)
  | .ok models => ({ s with models }, .ok ())

end Session

end WordPacking
