/-
# JSON values

A JSON value as a text gives it: an object keeps its fields in order, also those of one name,
and a number keeps its text, so that nothing is decided about it before it is used.
-/
import WordPacking.Text.Digits

namespace WordPacking

/-- A JSON value. -/
inductive Json where
  /-- The name `null`. -/
  | null
  /-- One of the names `true` and `false`. -/
  | bool (b : Bool)
  /-- A number, by its text. -/
  | number (text : String)
  /-- A string, by the text that it stands for. -/
  | string (text : String)
  /-- An array of values. -/
  | array (items : List Json)
  /-- An object: its fields in order, each a key with a value. -/
  | object (fields : List (String × Json))
deriving Repr

namespace Json

/-- The number that stands for a natural number. -/
def ofNat (n : Nat) : Json := .number (String.ofList (Nat.toDigits 10 n))

/-- The natural number of a number without sign, fraction and exponent. -/
def nat? : Json → Option Nat
  | number text => Text.decimal? text.toList
  | _ => none

/-- A natural number below a bound. -/
def natBelow? (bound : Nat) (j : Json) : Option Nat :=
  j.nat?.filter (· < bound)

/-- The text of a string. -/
def string? : Json → Option String
  | string text => some text
  | _ => none

/-- A number is read back as the natural number that it was written for. -/
theorem nat?_ofNat (n : Nat) : (ofNat n).nat? = some n := by
  simp [ofNat, nat?, Text.decimal?_toDigits]

/-! ## Nesting -/

mutual

/-- The number of arrays and objects that are nested in one another. -/
def nesting : Json → Nat
  | array items => nestingItems items + 1
  | object fields => nestingFields fields + 1
  | _ => 0

/-- The deepest nesting among items. -/
def nestingItems : List Json → Nat
  | [] => 0
  | item :: items => max item.nesting (nestingItems items)

/-- The deepest nesting among fields. -/
def nestingFields : List (String × Json) → Nat
  | [] => 0
  | (_, value) :: fields => max value.nesting (nestingFields fields)

end

end Json

end WordPacking
