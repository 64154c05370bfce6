/-
# Schema documents

A document is a JSON object that declares types and lists which of them are models.  It may also
say how large a storage word is, and add primitives to the standard ones.  All its fields may be
left out, but no other field may be there, and none twice.

A document may also be written as an array of the values of its fields in their order; then the
last ones may be missing.
-/
import Std.Data.ExtTreeMap
import WordPacking.Decl.Json

namespace WordPacking

/-- What a document says. -/
structure Document where
  /-- The size of one storage word in bits, if the document says it. -/
  wordBits : Option Nat := none
  /-- The widths of further primitives; of two with one name the later one stands. -/
  primitives : Std.ExtTreeMap String Nat := ∅
  /-- The declared types. -/
  types : List Decl := []
  /-- The names of the models. -/
  models : List String := []
deriving DecidableEq

namespace Document

/-- The names of the fields, in their order. -/
def fieldNames : List String := ["word_bits", "primitives", "types", "models"]

/-- Widths are below this bound. -/
def widthBound : Nat := UInt16.size

/-- The word size that a JSON value stands for; none for null. -/
def wordBitsOfJson? : Json → Option (Option Nat)
  | .null => some none
  | j => (j.natBelow? widthBound).map some

/-- The primitives of an object: the value of each field is a width. -/
def primitivesOfFields? (widths : Std.ExtTreeMap String Nat) :
    List (String × Json) → Option (Std.ExtTreeMap String Nat)
  | [] => some widths
  | (name, value) :: fields => do
    let width ← value.natBelow? widthBound
    primitivesOfFields? (widths.insert name width) fields

/-- The primitives that a JSON value stands for. -/
def primitivesOfJson? : Json → Option (Std.ExtTreeMap String Nat)
  | .object fields => primitivesOfFields? ∅ fields
  | _ => none

/-- What an array says of whose items `read` makes sense. -/
def listOfJson? {α : Type} (read : Json → Option α) : Json → Option (List α)
  | .array items => items.mapM read
  | _ => none

/-- Reads the value of a field, and takes a default if there is no value. -/
def readOr {α : Type} (default : α) (read : Json → Option α) : Option Json → Option α
  | none => some default
  | some j => read j

/-- The document with the given values of its fields. -/
def ofValues? (wordBits primitives types models : Option Json) : Option Document := do
  let wordBits ← readOr none wordBitsOfJson? wordBits
  let primitives ← readOr ∅ primitivesOfJson? primitives
  let types ← readOr [] (listOfJson? Decl.ofJson?) types
  let models ← readOr [] (listOfJson? Json.string?) models
  return ⟨wordBits, primitives, types, models⟩

/-- The document that a JSON value stands for. -/
def ofJson? : Json → Option Document
  | .object fields =>
    if fields.all (fun field => fieldNames.contains field.1) &&
        fieldNames.all (fun name => !Json.isRepeated name fields) then
      let value (name : String) := (Json.valuesNamed name fields).head?
      ofValues? (value "word_bits") (value "primitives") (value "types") (value "models")
    else none
  | .array values =>
    if values.length ≤ fieldNames.length then
      ofValues? values[0]? values[1]? values[2]? values[3]?
    else none
  | _ => none

/-- The document that a text stands for. -/
def ofText? (s : String) : Option Document := (Json.ofText? s).bind ofJson?

end Document

end WordPacking
