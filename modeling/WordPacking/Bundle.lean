/-
# Bundles

A bundle is what a document comes to once its types are registered: definitions, the names of
the models among them, and what they are resolved against.  The word size and the nesting limit
can be overridden before the models are made.
-/
import WordPacking.Catalogue
import WordPacking.Document

namespace WordPacking

/-- Why no bundle can be loaded from a text. -/
inductive LoadError where
  /-- The text is no document. -/
  | invalidDocument
  /-- A type of the document cannot be registered. -/
  | register (cause : RegisterError)
deriving DecidableEq, Repr

/-- The definitions of a document, and what its models are resolved against. -/
structure Bundle where
  /-- The size of one storage word, in bits. -/
  wordBits : Nat
  /-- The widths of the primitives that the document adds to the standard ones. -/
  primitives : Std.ExtTreeMap String Nat
  /-- The declared types. -/
  types : Definitions
  /-- The names of the models, in the order of the document. -/
  modelNames : List String
  /-- The number of structs, arrays and enums that may be nested in one another. -/
  maxDepth : Nat := defaultMaxDepth
deriving DecidableEq

namespace Bundle

/-- The bundle of a document. -/
def ofDocument (d : Document) : Except RegisterError Bundle :=
  match Definitions.empty.registerAll d.types with
  | .error cause => .error cause
  | .ok types =>
    .ok ⟨d.wordBits.getD fieldElementBits, d.primitives, types, d.models, defaultMaxDepth⟩

/-- The bundle of the document that a text stands for. -/
def ofText (s : String) : Except LoadError Bundle :=
  match Document.ofText? s with
  | none => .error .invalidDocument
  | some document => (ofDocument document).mapError .register

/-- The same bundle for words of another size. -/
def withWordBits (b : Bundle) (wordBits : Nat) : Bundle := { b with wordBits }

/-- The same bundle under another nesting limit. -/
def withMaxDepth (b : Bundle) (maxDepth : Nat) : Bundle := { b with maxDepth }

/-- The standard primitives and over them those of the document, for words of the size of the
bundle. -/
def table (b : Bundle) : WidthTable :=
  (WidthTable.standardFor b.wordBits).insertAll b.primitives.toList

/-- What the models are resolved against. -/
def scope (b : Bundle) : Scope := ⟨b.table, b.types, b.maxDepth⟩

/-- The model of a registered type. -/
def model (b : Bundle) (name : String) : Except ModelError Model :=
  Model.ofDecl b.scope (Decl.named name)

/-- Adds the model of a registered type to a catalogue. -/
def addModel (b : Bundle) (c : Catalogue) (name : String) : Except ModelError Catalogue :=
  match b.model name with
  | .error e => .error e
  | .ok model => c.register model

/-- The models of the bundle, made one after the other up to the first that fails. -/
def models (b : Bundle) : Except ModelError Catalogue := b.modelNames.foldlM b.addModel .empty

/-- A bundle without primitives of its own has the standard ones. -/
theorem table_of_primitives_eq_empty {b : Bundle} (h : b.primitives = ∅) :
    b.table = .standardFor b.wordBits := by
  have hnone : (∅ : Std.ExtTreeMap String Nat).toList = [] := rfl
  simp only [table, h, hnone, WidthTable.insertAll, List.foldl_nil]

end Bundle

end WordPacking
