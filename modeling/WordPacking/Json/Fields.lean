/-
# Fields of JSON objects

What a reader asks of the fields of an object: the values of all fields of one name, and whether
there is exactly one.
-/
import WordPacking.Json

namespace WordPacking.Json

/-- The only entry of a list, if it has exactly one. -/
def sole? {α : Type} : List α → Option α
  | [a] => some a
  | _ => none

/-- The values of all fields of one name, in order. -/
def valuesNamed (key : String) (fields : List (String × Json)) : List Json :=
  (fields.filter fun field => field.1 = key).map (·.2)

/-- The text of the only field of one name. -/
def stringNamed? (key : String) (fields : List (String × Json)) : Option String :=
  (sole? (valuesNamed key fields)).bind string?

/-- Whether a name stands at more than one field. -/
def isRepeated (key : String) (fields : List (String × Json)) : Bool :=
  1 < (valuesNamed key fields).length

theorem sole?_eq_some_iff {α : Type} {as : List α} {a : α} : sole? as = some a ↔ as = [a] := by
  unfold sole?
  split <;> simp_all

/-- Fields of other names do not matter. -/
theorem valuesNamed_cons_of_ne {key other : String} (h : other ≠ key) (value : Json)
    (fields : List (String × Json)) :
    valuesNamed key ((other, value) :: fields) = valuesNamed key fields := by
  simp [valuesNamed, h]

end WordPacking.Json
