/-
# The nesting limit

How deep a text nests can be counted without reading it: brackets and braces go one level down or
up, and inside quotes they do not count, where a backslash takes the meaning of the character after
it.  Each text of a value nests as deep as the value (`SpelledBy.nesting_eq`).

The reader keeps a list of what is open and refuses to make it longer than the limit.  A value that
nests more deeply has a place where it has to, whatever stands before this place and after it
(`foldlM_step_tokensThen_eq_none`).  Together with the reading of values that do not, the limit is
exact (`SpelledBy.ofText?_eq_ite`).
-/
import Mathlib.Tactic.Common
import WordPacking.Proofs.Json.Spelling

namespace WordPacking.Json

/-! ## The nesting of a text -/

namespace Text

/-- Where a character of a text stands. -/
inductive Place where
  /-- Outside of strings. -/
  | outside
  /-- In a string. -/
  | quoted
  /-- In a string, after a backslash. -/
  | escaped

/-- The levels of a text that is read up to some place. -/
structure Levels where
  /-- The arrays and objects that are open. -/
  opened : Nat
  /-- The most that have been open at a time. -/
  deepest : Nat
  /-- Where the next character stands. -/
  place : Place

namespace Levels

/-- Passes over one character. -/
def step : Levels → Char → Levels
  | ⟨opened, deepest, .outside⟩, c =>
    if c = '"' then ⟨opened, deepest, .quoted⟩
    else if c = '[' ∨ c = '\x7b' then ⟨opened + 1, max deepest (opened + 1), .outside⟩
    else if c = ']' ∨ c = '\x7d' then ⟨opened - 1, deepest, .outside⟩
    else ⟨opened, deepest, .outside⟩
  | ⟨opened, deepest, .quoted⟩, c =>
    if c = '"' then ⟨opened, deepest, .outside⟩
    else if c = '\\' then ⟨opened, deepest, .escaped⟩
    else ⟨opened, deepest, .quoted⟩
  | ⟨opened, deepest, .escaped⟩, _ => ⟨opened, deepest, .quoted⟩

end Levels

/-- The number of arrays and objects that are nested in one another in a text. -/
def nesting (s : String) : Nat := (s.toList.foldl Levels.step ⟨0, 0, .outside⟩).deepest

/-! ## The levels of tokens -/

variable {opened deepest : Nat} {row : List Token} {cs raw : List Char} {c : Char}

lemma ne_of_hexDigit? {c : Char} {d : Nat} (h : Text.hexDigit? c = some d) :
    c ≠ '"' ∧ c ≠ '\\' := by
  constructor
  · rintro rfl
    cases h
  · rintro rfl
    cases h

lemma ne_of_mem_of_hexFrom? {digits : List Char} {n unit : Nat}
    (h : Text.hexFrom? n digits = some unit) : ∀ c ∈ digits, c ≠ '"' ∧ c ≠ '\\' := by
  induction digits generalizing n with
  | nil => nofun
  | cons c digits ih =>
    obtain ⟨d, hd, hrest⟩ := Option.bind_eq_some_iff.mp h
    exact List.forall_mem_cons.mpr ⟨ne_of_hexDigit? hd, ih hrest⟩

/-- Inside quotes, only quotes and backslashes matter. -/
lemma foldl_step_quoted_of_ne (hcs : ∀ c ∈ cs, c ≠ '"' ∧ c ≠ '\\') :
    cs.foldl Levels.step ⟨opened, deepest, .quoted⟩ = ⟨opened, deepest, .quoted⟩ := by
  induction cs with
  | nil => rfl
  | cons c cs ih =>
    obtain ⟨⟨hquote, hbackslash⟩, hcs⟩ := List.forall_mem_cons.mp hcs
    have hstep : Levels.step ⟨opened, deepest, .quoted⟩ c = ⟨opened, deepest, .quoted⟩ := by
      simp [Levels.step, hquote, hbackslash]
    rw [List.foldl_cons, hstep, ih hcs]

lemma foldl_step_isUnit {digits : List Char} {unit : Nat} (h : IsUnit digits unit) :
    ('\\' :: 'u' :: digits).foldl Levels.step ⟨opened, deepest, .quoted⟩ =
      ⟨opened, deepest, .quoted⟩ := by
  have hdigits : digits.foldl Levels.step ⟨opened, deepest, .quoted⟩ =
      ⟨opened, deepest, .quoted⟩ := foldl_step_quoted_of_ne (ne_of_mem_of_hexFrom? h.2)
  exact hdigits

/-- A character inside quotes stays there, however it is written. -/
lemma foldl_step_charSpelling (h : CharSpelling c raw) :
    raw.foldl Levels.step ⟨opened, deepest, .quoted⟩ = ⟨opened, deepest, .quoted⟩ := by
  cases h with
  | plain hquote hbackslash _ => exact foldl_step_quoted_of_ne (by simp [hquote, hbackslash])
  | letter _ => rfl
  | unit hunit _ => exact foldl_step_isUnit hunit
  | pair hhigh hunit _ =>
    obtain ⟨-, -, digits, hhigh, rfl⟩ := hhigh
    rw [List.foldl_append, foldl_step_isUnit hhigh, foldl_step_isUnit hunit]

lemma foldl_step_quoted (h : Quoted cs raw) :
    raw.foldl Levels.step ⟨opened, deepest, .quoted⟩ = ⟨opened, deepest, .quoted⟩ := by
  induction h with
  | nil => rfl
  | cons hc _ ih => rw [List.foldl_append, foldl_step_charSpelling hc, ih]

/-- A string changes no level. -/
lemma foldl_step_string {text : String} (h : (Token.string text).SpelledBy raw) :
    raw.foldl Levels.step ⟨opened, deepest, .outside⟩ = ⟨opened, deepest, .outside⟩ := by
  obtain ⟨raw, hraw, rfl⟩ := h
  have hopen : Levels.step ⟨opened, deepest, .outside⟩ '"' = ⟨opened, deepest, .quoted⟩ := rfl
  rw [List.foldl_cons, hopen, List.foldl_append, foldl_step_quoted hraw]
  rfl

/-- Nor does a blank. -/
lemma step_of_isSpace (hc : Token.isSpace c = true) :
    Levels.step ⟨opened, deepest, .outside⟩ c = ⟨opened, deepest, .outside⟩ := by
  have hne : ∀ c', Token.isSpace c' = false → c ≠ c' := by
    rintro c' hc' rfl
    exact absurd (hc.symm.trans hc') (by decide)
  simp [Levels.step, hne '"' rfl, hne '[' rfl, hne ']' rfl, hne '\x7b' rfl, hne '\x7d' rfl]

/-- Nor does a character that may stand in an atom. -/
lemma step_of_endsAtom_eq_false (hc : Token.Scan.endsAtom c = false) :
    Levels.step ⟨opened, deepest, .outside⟩ c = ⟨opened, deepest, .outside⟩ := by
  have hne : ∀ c', Token.Scan.endsAtom c' = true → c ≠ c' := by
    rintro c' hc' rfl
    exact absurd (hc.symm.trans hc') (by decide)
  simp [Levels.step, hne '"' rfl, hne '[' rfl, hne ']' rfl, hne '\x7b' rfl, hne '\x7d' rfl]

/-- Nor does an atom. -/
lemma foldl_step_atom {t : Token} (hatom : t.isAtom = true) (ht : t.Readable) :
    t.chars.foldl Levels.step ⟨opened, deepest, .outside⟩ = ⟨opened, deepest, .outside⟩ := by
  have hplain := Token.endsAtom_of_mem_chars hatom ht
  generalize t.chars = cs at hplain
  induction cs with
  | nil => rfl
  | cons c cs ih =>
    obtain ⟨hc, hcs⟩ := List.forall_mem_cons.mp hplain
    rw [List.foldl_cons, step_of_endsAtom_eq_false hc, ih hcs]

/-- The levels after a row of tokens. -/
def levels (opened deepest : Nat) (row : List Token) : Levels :=
  (row.flatMap Token.chars).foldl Levels.step ⟨opened, deepest, .outside⟩

lemma levels_cons {t : Token} {row : List Token} {opened' deepest' : Nat}
    (ht : t.chars.foldl Levels.step ⟨opened, deepest, .outside⟩ =
      ⟨opened', deepest', .outside⟩) :
    levels opened deepest (t :: row) = levels opened' deepest' row := by
  rw [levels, List.flatMap_cons, List.foldl_append, ht, levels]

lemma levels_atom {t : Token} (hatom : t.isAtom = true) (ht : t.Readable) (row : List Token) :
    levels opened deepest (t :: row) = levels opened deepest row :=
  levels_cons (foldl_step_atom hatom ht)

@[simp] lemma levels_string (text : String) (row : List Token) :
    levels opened deepest (.string text :: row) = levels opened deepest row :=
  levels_cons (foldl_step_string (Token.spelledBy_chars trivial))

@[simp] lemma levels_comma (row : List Token) :
    levels opened deepest (.comma :: row) = levels opened deepest row := rfl

@[simp] lemma levels_colon (row : List Token) :
    levels opened deepest (.colon :: row) = levels opened deepest row := rfl

@[simp] lemma levels_openArray (row : List Token) :
    levels opened deepest (.openArray :: row) =
      levels (opened + 1) (max deepest (opened + 1)) row := rfl

@[simp] lemma levels_openObject (row : List Token) :
    levels opened deepest (.openObject :: row) =
      levels (opened + 1) (max deepest (opened + 1)) row := rfl

@[simp] lemma levels_closeArray (row : List Token) :
    levels (opened + 1) deepest (.closeArray :: row) = levels opened deepest row := rfl

@[simp] lemma levels_closeObject (row : List Token) :
    levels (opened + 1) deepest (.closeObject :: row) = levels opened deepest row := rfl

/-! ## The levels of a value -/

mutual

/-- A value goes as many levels down as it nests, and comes up again. -/
theorem levels_tokensThen : ∀ (j : Json) (rest : List Token) (opened deepest : Nat),
    j.Readable → opened ≤ deepest →
      levels opened deepest (j.tokensThen rest) =
        levels opened (max deepest (opened + j.nesting)) rest
  | .null, rest, _, _, _, hle => by
    simp only [tokensThen, Json.nesting, Nat.add_zero, max_eq_left hle]
    exact levels_atom (t := .null) rfl trivial rest
  | .bool b, rest, _, _, _, hle => by
    simp only [tokensThen, Json.nesting, Nat.add_zero, max_eq_left hle]
    exact levels_atom (t := .bool b) rfl trivial rest
  | .number text, rest, _, _, hj, hle => by
    simp only [tokensThen, Json.nesting, Nat.add_zero, max_eq_left hle]
    exact levels_atom (t := .number text) rfl hj rest
  | .string text, rest, _, _, _, hle => by
    simp only [tokensThen, Json.nesting, Nat.add_zero, max_eq_left hle]
    exact levels_string text rest
  | .array [], rest, _, _, _, _ => by
    rw [tokensThen, levels_openArray, levels_closeArray, Json.nesting, nestingItems]
  | .array (item :: items), rest, opened, deepest, hj, hle => by
    -- the first item and the others start one level down, and the deepest level is kept
    have hitem := levels_tokensThen item (itemsThen items (.closeArray :: rest)) (opened + 1)
      (max deepest (opened + 1)) hj.1 (Nat.le_max_right _ _)
    have hitems := levels_itemsThen items (.closeArray :: rest) (opened + 1)
      (max (max deepest (opened + 1)) (opened + 1 + item.nesting)) hj.2 (by omega)
    have hmax : max (max (max deepest (opened + 1)) (opened + 1 + item.nesting))
        (opened + 1 + nestingItems items) =
        max deepest (opened + (max item.nesting (nestingItems items) + 1)) := by omega
    rw [tokensThen, levels_openArray, hitem, hitems, levels_closeArray, hmax, Json.nesting,
      nestingItems]
  | .object [], rest, _, _, _, _ => by
    rw [tokensThen, levels_openObject, levels_closeObject, Json.nesting, nestingFields]
  | .object ((key, value) :: fields), rest, opened, deepest, hj, hle => by
    have hvalue := levels_tokensThen value (fieldsThen fields (.closeObject :: rest)) (opened + 1)
      (max deepest (opened + 1)) hj.1 (Nat.le_max_right _ _)
    have hfields := levels_fieldsThen fields (.closeObject :: rest) (opened + 1)
      (max (max deepest (opened + 1)) (opened + 1 + value.nesting)) hj.2 (by omega)
    have hmax : max (max (max deepest (opened + 1)) (opened + 1 + value.nesting))
        (opened + 1 + nestingFields fields) =
        max deepest (opened + (max value.nesting (nestingFields fields) + 1)) := by omega
    rw [tokensThen, levels_openObject, levels_string, levels_colon, hvalue, hfields,
      levels_closeObject, hmax, Json.nesting, nestingFields]

/-- The same for further items. -/
theorem levels_itemsThen : ∀ (items : List Json) (rest : List Token) (opened deepest : Nat),
    ReadableItems items → opened ≤ deepest →
      levels opened deepest (itemsThen items rest) =
        levels opened (max deepest (opened + nestingItems items)) rest
  | [], rest, _, _, _, hle => by
    rw [itemsThen, nestingItems, Nat.add_zero, max_eq_left hle]
  | item :: items, rest, opened, deepest, hitems, hle => by
    have hitem := levels_tokensThen item (itemsThen items rest) opened deepest hitems.1 hle
    have hrest := levels_itemsThen items rest opened (max deepest (opened + item.nesting))
      hitems.2 (by omega)
    have hmax : max (max deepest (opened + item.nesting)) (opened + nestingItems items) =
        max deepest (opened + max item.nesting (nestingItems items)) := by omega
    rw [itemsThen, levels_comma, hitem, hrest, hmax, nestingItems]

/-- The same for further fields. -/
theorem levels_fieldsThen : ∀ (fields : List (String × Json)) (rest : List Token)
    (opened deepest : Nat), ReadableFields fields → opened ≤ deepest →
      levels opened deepest (fieldsThen fields rest) =
        levels opened (max deepest (opened + nestingFields fields)) rest
  | [], rest, _, _, _, hle => by
    rw [fieldsThen, nestingFields, Nat.add_zero, max_eq_left hle]
  | (key, value) :: fields, rest, opened, deepest, hfields, hle => by
    have hvalue := levels_tokensThen value (fieldsThen fields rest) opened deepest hfields.1 hle
    have hrest := levels_fieldsThen fields rest opened (max deepest (opened + value.nesting))
      hfields.2 (by omega)
    have hmax : max (max deepest (opened + value.nesting)) (opened + nestingFields fields) =
        max deepest (opened + max value.nesting (nestingFields fields)) := by omega
    rw [fieldsThen, levels_comma, levels_string, levels_colon, hvalue, hrest, hmax, nestingFields]

end

/-! ## The levels of a text -/

/-- All texts of a token go through the same levels. -/
lemma foldl_step_spelledBy {t : Token} (h : t.SpelledBy raw) :
    raw.foldl Levels.step ⟨opened, deepest, .outside⟩ =
      t.chars.foldl Levels.step ⟨opened, deepest, .outside⟩ := by
  cases t with
  | string text => rw [foldl_step_string h, foldl_step_string (Token.spelledBy_chars trivial)]
  | _ => rw [h.2]

/-- A token outside of strings leads outside of strings again. -/
lemma exists_foldl_step_chars (t : Token) (ht : t.Readable) (opened deepest : Nat) :
    ∃ opened' deepest', t.chars.foldl Levels.step ⟨opened, deepest, .outside⟩ =
      ⟨opened', deepest', .outside⟩ := by
  cases hatom : t.isAtom with
  | true => exact ⟨_, _, foldl_step_atom hatom ht⟩
  | false =>
    cases t with
    | string text => exact ⟨_, _, foldl_step_string (Token.spelledBy_chars ht)⟩
    | null | bool | number => cases hatom
    | _ => exact ⟨_, _, rfl⟩

/-- Every text of a row goes through the same levels. -/
lemma foldl_step_rowSpelling (h : RowSpelling row cs) :
    cs.foldl Levels.step ⟨opened, deepest, .outside⟩ = levels opened deepest row := by
  induction h generalizing opened deepest with
  | nil => rfl
  | blank hc _ ih => rw [List.foldl_cons, step_of_isSpace hc, ih]
  | @token t _ _ _ ht _ ih =>
    obtain ⟨opened', deepest', hstep⟩ := exists_foldl_step_chars t ht.readable opened deepest
    rw [List.foldl_append, foldl_step_spelledBy ht, levels_cons hstep, hstep, ih]

end Text

/-- **Each text of a value nests as deep as the value.** -/
theorem SpelledBy.nesting_eq {j : Json} {s : String} (h : j.SpelledBy s) :
    Text.nesting s = j.nesting := by
  have hlevels : s.toList.foldl Text.Levels.step ⟨0, 0, .outside⟩ = Text.levels 0 0 j.tokens :=
    Text.foldl_step_rowSpelling h
  have hvalue := Text.levels_tokensThen j [] 0 0 h.readable (Nat.le_refl 0)
  rw [Text.nesting, hlevels, tokens, hvalue]
  simp [Text.levels]

/-! ## The limit -/

open Parse

/-- The tokens of a value are refused if either this value nests too deeply or, once it is read,
the tokens after it are refused. -/
lemma foldlM_step_tokensThen_eq_none_of {j : Json} {opened : List Open} {rest : List Token}
    (hdeep : maxNesting < opened.length + j.nesting →
      (j.tokensThen rest).foldlM step (.nextValue opened) = none)
    (hrest : opened.length + j.nesting ≤ maxNesting →
      rest.foldlM step (.after j opened) = none) :
    (j.tokensThen rest).foldlM step (.nextValue opened) = none := by
  rcases Nat.lt_or_ge maxNesting (opened.length + j.nesting) with h | h
  · exact hdeep h
  · rw [foldlM_step_tokensThen j opened rest h, hrest h]

mutual

/-- Above the nesting limit, the tokens of a value are refused. -/
theorem foldlM_step_tokensThen_eq_none : ∀ (j : Json) (opened : List Open) (rest : List Token),
    opened.length ≤ maxNesting → maxNesting < opened.length + j.nesting →
      (j.tokensThen rest).foldlM step (.nextValue opened) = none
  | .null, opened, _, hle, h => by
    simp only [nesting] at h
    omega
  | .bool _, opened, _, hle, h => by
    simp only [nesting] at h
    omega
  | .number _, opened, _, hle, h => by
    simp only [nesting] at h
    omega
  | .string _, opened, _, hle, h => by
    simp only [nesting] at h
    omega
  | .array [], opened, rest, _, h => by
    simp only [nesting, nestingItems] at h
    have hfull : ¬ opened.length < maxNesting := by omega
    simp [tokensThen, step, beginValue, hfull]
  | .array (item :: items), opened, rest, _, h => by
    simp only [nesting, nestingItems] at h
    by_cases hlt : opened.length < maxNesting
    -- the bracket is read, so it is the first item that is too deep, or a later one
    · have hopen : step (.nextValue opened) .openArray = some (.firstItem opened) := by
        simp [step, beginValue, hlt]
      have hitem : (item.tokensThen (itemsThen items (.closeArray :: rest))).foldlM step
          (.nextValue (.array [] :: opened)) = none :=
        foldlM_step_tokensThen_eq_none_of (foldlM_step_tokensThen_eq_none item _ _ hlt)
          fun hread => foldlM_step_itemsThen_eq_none items item [] opened _ hlt
            (by rw [List.length_cons] at hread; omega)
      obtain ⟨t, ts, hts, hne⟩ := tokensThen_eq_cons item (itemsThen items (.closeArray :: rest))
      rw [hts, List.foldlM_cons] at hitem
      rw [tokensThen, hts, List.foldlM_cons, hopen, Option.bind_eq_bind, Option.bind_some,
        List.foldlM_cons, step_firstItem hne]
      exact hitem
    · simp [tokensThen, step, beginValue, hlt]
  | .object [], opened, rest, _, h => by
    simp only [nesting, nestingFields] at h
    have hfull : ¬ opened.length < maxNesting := by omega
    simp [tokensThen, step, beginValue, hfull]
  | .object ((key, value) :: fields), opened, rest, _, h => by
    simp only [nesting, nestingFields] at h
    by_cases hlt : opened.length < maxNesting
    · have hvalue : (value.tokensThen (fieldsThen fields (.closeObject :: rest))).foldlM step
          (.nextValue (.object [] key :: opened)) = none :=
        foldlM_step_tokensThen_eq_none_of (foldlM_step_tokensThen_eq_none value _ _ hlt)
          fun hread => foldlM_step_fieldsThen_eq_none fields key value [] opened _ hlt
            (by rw [List.length_cons] at hread; omega)
      simp [tokensThen, step, beginValue, hlt, hvalue]
    · simp [tokensThen, step, beginValue, hlt]

/-- So are those of further items, one of which nests too deeply. -/
theorem foldlM_step_itemsThen_eq_none : ∀ (items : List Json) (j : Json) (done : List Json)
    (opened : List Open) (rest : List Token),
    opened.length + 1 ≤ maxNesting → maxNesting < opened.length + 1 + nestingItems items →
      (itemsThen items rest).foldlM step (.after j (.array done :: opened)) = none
  | [], j, done, opened, rest, hle, h => by
    simp only [nestingItems] at h
    omega
  | item :: items, j, done, opened, rest, hle, h => by
    simp only [nestingItems] at h
    have hitem : (item.tokensThen (itemsThen items rest)).foldlM step
        (.nextValue (.array (j :: done) :: opened)) = none :=
      foldlM_step_tokensThen_eq_none_of (foldlM_step_tokensThen_eq_none item _ _ hle)
        fun hread => foldlM_step_itemsThen_eq_none items item (j :: done) opened rest hle
          (by rw [List.length_cons] at hread; omega)
    simp [itemsThen, step, afterValue, hitem]

/-- So are those of further fields, one of which nests too deeply. -/
theorem foldlM_step_fieldsThen_eq_none : ∀ (fields : List (String × Json)) (key : String)
    (j : Json) (done : List (String × Json)) (opened : List Open) (rest : List Token),
    opened.length + 1 ≤ maxNesting → maxNesting < opened.length + 1 + nestingFields fields →
      (fieldsThen fields rest).foldlM step (.after j (.object done key :: opened)) = none
  | [], key, j, done, opened, rest, hle, h => by
    simp only [nestingFields] at h
    omega
  | (next, value) :: fields, key, j, done, opened, rest, hle, h => by
    simp only [nestingFields] at h
    have hvalue : (value.tokensThen (fieldsThen fields rest)).foldlM step
        (.nextValue (.object ((key, j) :: done) next :: opened)) = none :=
      foldlM_step_tokensThen_eq_none_of (foldlM_step_tokensThen_eq_none value _ _ hle)
        fun hread => foldlM_step_fieldsThen_eq_none fields next value _ opened rest hle
          (by rw [List.length_cons] at hread; omega)
    simp [fieldsThen, step, afterValue, hvalue]

end

/-- A value is read back from its tokens exactly if it does not nest too deeply. -/
theorem ofTokens?_tokens_eq_ite (j : Json) :
    ofTokens? j.tokens = if j.nesting ≤ maxNesting then some j else none := by
  split_ifs with h
  · exact ofTokens?_tokens h
  · have hnone := foldlM_step_tokensThen_eq_none j [] [] (Nat.zero_le _)
      (by simpa using Nat.lt_of_not_le h)
    rw [ofTokens?, tokens, hnone, Option.bind_none]

/-- **A value is read from each of its texts exactly if the text does not nest too deeply.** -/
theorem SpelledBy.ofText?_eq_ite {j : Json} {s : String} (h : j.SpelledBy s) :
    ofText? s = if Text.nesting s ≤ maxNesting then some j else none := by
  rw [h.ofText?_eq_ofTokens?, ofTokens?_tokens_eq_ite, h.nesting_eq]

/-- This is so for the text that is written. -/
theorem ofText?_text_eq_ite {j : Json} (hj : j.Readable) :
    ofText? j.text = if Text.nesting j.text ≤ maxNesting then some j else none :=
  (spelledBy_text hj).ofText?_eq_ite

end WordPacking.Json
