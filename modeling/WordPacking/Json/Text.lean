/-
# The text of a JSON value

Writing a value as a compact text, and reading a text.  Both go through the tokens of the
value.  Tokens are read by a machine that keeps the arrays and objects that are still open,
the innermost one first, and knows what has to come next.  Not more than 127 of them may be
open at a time.
-/
import WordPacking.Json
import WordPacking.Json.Token

namespace WordPacking.Json

/-! ## Writing -/

mutual

/-- The tokens of a value, and after them the given ones. -/
def tokensThen : Json → List Token → List Token
  | null, rest => .null :: rest
  | bool b, rest => .bool b :: rest
  | number text, rest => .number text :: rest
  | string text, rest => .string text :: rest
  | array [], rest => .openArray :: .closeArray :: rest
  | array (item :: items), rest =>
    .openArray :: item.tokensThen (itemsThen items (.closeArray :: rest))
  | object [], rest => .openObject :: .closeObject :: rest
  | object ((key, value) :: fields), rest =>
    .openObject :: .string key :: .colon ::
      value.tokensThen (fieldsThen fields (.closeObject :: rest))

/-- The tokens of further items, each after a comma. -/
def itemsThen : List Json → List Token → List Token
  | [], rest => rest
  | item :: items, rest => .comma :: item.tokensThen (itemsThen items rest)

/-- The tokens of further fields, each after a comma. -/
def fieldsThen : List (String × Json) → List Token → List Token
  | [], rest => rest
  | (key, value) :: fields, rest =>
    .comma :: .string key :: .colon :: value.tokensThen (fieldsThen fields rest)

end

/-- The tokens of a value. -/
def tokens (j : Json) : List Token := j.tokensThen []

/-- The compact text of a value. -/
def text (j : Json) : String := String.ofList (j.tokens.flatMap Token.chars)

/-! ## Reading -/

/-- An array or object that is still open.  What it has so far is kept last first. -/
inductive Open where
  /-- An array with its items so far. -/
  | array (items : List Json)
  /-- An object with its fields so far, while the value of `key` is read. -/
  | object (fields : List (String × Json)) (key : String)
deriving Repr

/-- What has to come next, below the arrays and objects that are open. -/
inductive Parse where
  /-- A value. -/
  | nextValue (opened : List Open)
  /-- The first item of an array, or its end. -/
  | firstItem (opened : List Open)
  /-- The first key of an object, or its end. -/
  | firstKey (opened : List Open)
  /-- A key, after a comma. -/
  | nextKey (fields : List (String × Json)) (opened : List Open)
  /-- The colon after a key. -/
  | nextColon (fields : List (String × Json)) (key : String) (opened : List Open)
  /-- A comma or an end, after a value. -/
  | after (j : Json) (opened : List Open)
deriving Repr

/-- The number of arrays and objects that may be nested in one another. -/
def maxNesting : Nat := 127

namespace Parse

/-- Reads the token that begins a value. -/
def beginValue (opened : List Open) : Token → Option Parse
  | .null => some (.after .null opened)
  | .bool b => some (.after (.bool b) opened)
  | .number text => some (.after (.number text) opened)
  | .string text => some (.after (.string text) opened)
  | .openArray => if opened.length < maxNesting then some (.firstItem opened) else none
  | .openObject => if opened.length < maxNesting then some (.firstKey opened) else none
  | _ => none

/-- Reads the token after a value that is complete. -/
def afterValue (j : Json) : List Open → Token → Option Parse
  | .array items :: opened, .comma => some (.nextValue (.array (j :: items) :: opened))
  | .array items :: opened, .closeArray => some (.after (.array (j :: items).reverse) opened)
  | .object fields key :: opened, .comma => some (.nextKey ((key, j) :: fields) opened)
  | .object fields key :: opened, .closeObject =>
    some (.after (.object ((key, j) :: fields).reverse) opened)
  | _, _ => none

/-- Reads one token. -/
def step (p : Parse) (t : Token) : Option Parse :=
  match p, t with
  | .nextValue opened, t => beginValue opened t
  | .firstItem opened, .closeArray => some (.after (.array []) opened)
  | .firstItem opened, t => beginValue (.array [] :: opened) t
  | .firstKey opened, .closeObject => some (.after (.object []) opened)
  | .firstKey opened, .string key => some (.nextColon [] key opened)
  | .nextKey fields opened, .string key => some (.nextColon fields key opened)
  | .nextColon fields key opened, .colon => some (.nextValue (.object fields key :: opened))
  | .after j opened, t => afterValue j opened t
  | _, _ => none

/-- The value of a text that has been read to its end. -/
def finish : Parse → Option Json
  | .after j [] => some j
  | _ => none

end Parse

/-- The value that a row of tokens stands for. -/
def ofTokens? (tokens : List Token) : Option Json :=
  (tokens.foldlM Parse.step (.nextValue [])).bind Parse.finish

/-- The value that a text stands for. -/
def ofText? (s : String) : Option Json := (Token.scan? s.toList).bind ofTokens?

/-! ## Reading what is written -/

namespace Parse

/-- After the bracket of an array, a token that does not end it begins its first item. -/
theorem step_firstItem {opened : List Open} {t : Token} (h : t ≠ .closeArray) :
    step (.firstItem opened) t = step (.nextValue (.array [] :: opened)) t := by
  cases t with
  | closeArray => exact absurd rfl h
  | _ => rfl

end Parse

/-- The tokens of a value begin with one that ends no array. -/
theorem tokensThen_eq_cons (j : Json) (rest : List Token) :
    ∃ t ts, j.tokensThen rest = t :: ts ∧ t ≠ .closeArray := by
  rcases j with _ | b | text | text | items | fields
  · exact ⟨_, _, rfl, by simp⟩
  · exact ⟨_, _, rfl, by simp⟩
  · exact ⟨_, _, rfl, by simp⟩
  · exact ⟨_, _, rfl, by simp⟩
  · rcases items with _ | ⟨item, items⟩
    · exact ⟨_, _, by rw [tokensThen], by simp⟩
    · exact ⟨_, _, by rw [tokensThen], by simp⟩
  · rcases fields with _ | ⟨⟨key, value⟩, fields⟩
    · exact ⟨_, _, by rw [tokensThen], by simp⟩
    · exact ⟨_, _, by rw [tokensThen], by simp⟩

open Parse

mutual

/-- Below the nesting limit, the tokens of a value are read as this value. -/
theorem foldlM_step_tokensThen : ∀ (j : Json) (opened : List Open) (rest : List Token),
    opened.length + j.nesting ≤ maxNesting →
      (j.tokensThen rest).foldlM step (.nextValue opened) = rest.foldlM step (.after j opened)
  | .null, _, _, _ => rfl
  | .bool _, _, _, _ => rfl
  | .number _, _, _, _ => rfl
  | .string _, _, _, _ => rfl
  | .array [], opened, rest, h => by
    have hlt : opened.length < maxNesting := by simp [nesting, nestingItems] at h; omega
    simp [tokensThen, step, beginValue, hlt]
  | .array (item :: items), opened, rest, h => by
    simp only [nesting, nestingItems] at h
    have hlt : opened.length < maxNesting := by omega
    have hitem := foldlM_step_tokensThen item (.array [] :: opened)
      (itemsThen items (.closeArray :: rest)) (by simp; omega)
    have hitems := foldlM_step_itemsThen items item [] opened rest (by omega)
    obtain ⟨t, ts, hts, hne⟩ := tokensThen_eq_cons item (itemsThen items (.closeArray :: rest))
    rw [hts] at hitem
    have hopen : step (.nextValue opened) .openArray = some (.firstItem opened) := by
      simp [step, beginValue, hlt]
    rw [tokensThen, hts, List.foldlM_cons, hopen]
    rw [List.foldlM_cons] at hitem
    simp only [Option.bind_eq_bind, Option.bind_some, List.foldlM_cons]
    rw [step_firstItem hne]
    exact hitem.trans (by simpa using hitems)
  | .object [], opened, rest, h => by
    have hlt : opened.length < maxNesting := by simp [nesting, nestingFields] at h; omega
    simp [tokensThen, step, beginValue, hlt]
  | .object ((key, value) :: fields), opened, rest, h => by
    simp only [nesting, nestingFields] at h
    have hlt : opened.length < maxNesting := by omega
    have hvalue := foldlM_step_tokensThen value (.object [] key :: opened)
      (fieldsThen fields (.closeObject :: rest)) (by simp; omega)
    have hfields := foldlM_step_fieldsThen fields key value [] opened rest (by omega)
    simp [tokensThen, step, beginValue, hlt, hvalue, hfields]

/-- The tokens of further items are read as these items, in order, and end the array. -/
theorem foldlM_step_itemsThen : ∀ (items : List Json) (j : Json) (done : List Json)
    (opened : List Open) (rest : List Token),
    opened.length + 1 + nestingItems items ≤ maxNesting →
      (itemsThen items (.closeArray :: rest)).foldlM step (.after j (.array done :: opened)) =
        rest.foldlM step (.after (.array (done.reverse ++ j :: items)) opened)
  | [], j, done, opened, rest, _ => by simp [itemsThen, step, afterValue]
  | item :: items, j, done, opened, rest, h => by
    simp only [nestingItems] at h
    have hitem := foldlM_step_tokensThen item (.array (j :: done) :: opened)
      (itemsThen items (.closeArray :: rest)) (by simp; omega)
    have hitems := foldlM_step_itemsThen items item (j :: done) opened rest (by omega)
    simp [itemsThen, step, afterValue, hitem, hitems]

/-- The tokens of further fields are read as these fields, in order, and end the object. -/
theorem foldlM_step_fieldsThen : ∀ (fields : List (String × Json)) (key : String) (j : Json)
    (done : List (String × Json)) (opened : List Open) (rest : List Token),
    opened.length + 1 + nestingFields fields ≤ maxNesting →
      (fieldsThen fields (.closeObject :: rest)).foldlM step
          (.after j (.object done key :: opened)) =
        rest.foldlM step (.after (.object (done.reverse ++ (key, j) :: fields)) opened)
  | [], key, j, done, opened, rest, _ => by simp [fieldsThen, step, afterValue]
  | (next, value) :: fields, key, j, done, opened, rest, h => by
    simp only [nestingFields] at h
    have hvalue := foldlM_step_tokensThen value (.object ((key, j) :: done) next :: opened)
      (fieldsThen fields (.closeObject :: rest)) (by simp; omega)
    have hfields :=
      foldlM_step_fieldsThen fields next value ((key, j) :: done) opened rest (by omega)
    simp [fieldsThen, step, afterValue, hvalue, hfields]

end

/-- A value that is not nested too deeply is read back from its tokens. -/
theorem ofTokens?_tokens {j : Json} (h : j.nesting ≤ maxNesting) :
    ofTokens? j.tokens = some j := by
  rw [ofTokens?, tokens, foldlM_step_tokensThen j [] [] (by simpa using h)]
  rfl

end WordPacking.Json
