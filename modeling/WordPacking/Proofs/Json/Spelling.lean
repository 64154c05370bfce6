/-
# Spellings of a value

A JSON value has many texts.  Blanks may stand between any two of its tokens, and a character of a
string may be written as it is, by the letter of an escape, by its code unit or by a pair of
surrogates (`CharSpelling`).  All other tokens have one text each.  The texts of a value are the
rows of texts of its tokens, with blanks between them (`SpelledBy`).

Each of these texts is read as it should be, up to the limit on nesting
(`SpelledBy.ofText?_eq_ofTokens?`), and the text that is written for a value is one of them
(`spelledBy_text`).
-/
import Mathlib.Tactic.Common
import WordPacking.Proofs.Json.Tokens

namespace WordPacking.Json

/-! ## Texts of characters and of tokens -/

/-- Four hexadecimal digits and their value. -/
def IsUnit (digits : List Char) (unit : Nat) : Prop :=
  digits.length = 4 ∧ Text.hexFrom? 0 digits = some unit

/-- The first half of a pair of surrogates: an escape by a code unit that is a high one. -/
def IsHighHalf (high : Nat) (raw : List Char) : Prop :=
  0xd800 ≤ high ∧ high < 0xdc00 ∧ ∃ digits, IsUnit digits high ∧ raw = '\\' :: 'u' :: digits

/-- The ways to write a character inside quotes. -/
inductive CharSpelling : Char → List Char → Prop where
  /-- As it is. -/
  | plain {c : Char} (hquote : c ≠ '"') (hbackslash : c ≠ '\\') (hcontrol : ¬ c < ' ') :
      CharSpelling c [c]
  /-- By the letter of an escape. -/
  | letter {c letter : Char} (hletter : Token.unescape? letter = some c) :
      CharSpelling c ['\\', letter]
  /-- By its code unit, which is no surrogate. -/
  | unit {unit : Nat} {digits : List Char} (hunit : IsUnit digits unit)
      (hsingle : unit < 0xd800 ∨ 0xdfff < unit) :
      CharSpelling (Char.ofNat unit) ('\\' :: 'u' :: digits)
  /-- By a high surrogate and a low one. -/
  | pair {high low : Nat} {first digits : List Char} (hhigh : IsHighHalf high first)
      (hunit : IsUnit digits low) (hlow : 0xdc00 ≤ low ∧ low ≤ 0xdfff) :
      CharSpelling (Char.ofNat (0x10000 + (high - 0xd800) * 0x400 + (low - 0xdc00)))
        (first ++ '\\' :: 'u' :: digits)

/-- The ways to write a row of characters inside quotes. -/
inductive Quoted : List Char → List Char → Prop where
  /-- No characters. -/
  | nil : Quoted [] []
  /-- One more character at the front. -/
  | cons {c : Char} {cs raw rest : List Char} (hc : CharSpelling c raw) (hcs : Quoted cs rest) :
      Quoted (c :: cs) (raw ++ rest)

namespace Token

/-- The texts of a token. -/
def SpelledBy : Token → List Char → Prop
  | .string text, cs => ∃ raw, Quoted text.toList raw ∧ cs = '"' :: (raw ++ ['"'])
  | t, cs => t.Readable ∧ cs = t.chars

end Token

/-- The texts of a row of tokens, with blanks between them. -/
inductive RowSpelling : List Token → List Char → Prop where
  /-- No tokens. -/
  | nil : RowSpelling [] []
  /-- A blank before a row. -/
  | blank {c : Char} {row : List Token} {cs : List Char} (hc : Token.isSpace c = true)
      (hrow : RowSpelling row cs) : RowSpelling row (c :: cs)
  /-- A token before a row. -/
  | token {t : Token} {row : List Token} {raw cs : List Char} (ht : t.SpelledBy raw)
      (hrow : RowSpelling row cs) : RowSpelling (t :: row) (raw ++ cs)

/-- The texts of a value. -/
def SpelledBy (j : Json) (s : String) : Prop := RowSpelling j.tokens s.toList

lemma Quoted.append {cs cs' raw raw' : List Char} (h : Quoted cs raw) (h' : Quoted cs' raw') :
    Quoted (cs ++ cs') (raw ++ raw') := by
  induction h with
  | nil => exact h'
  | cons hc _ ih =>
    rw [List.append_assoc, List.cons_append]
    exact .cons hc ih

lemma Quoted.snoc {c : Char} {cs raw last : List Char} (h : Quoted cs raw)
    (hc : CharSpelling c last) : Quoted (cs ++ [c]) (raw ++ last) := by
  simpa using h.append (.cons hc .nil)

lemma RowSpelling.append {row row' : List Token} {cs cs' : List Char} (h : RowSpelling row cs)
    (h' : RowSpelling row' cs') : RowSpelling (row ++ row') (cs ++ cs') := by
  induction h with
  | nil => exact h'
  | blank hc _ ih => exact .blank hc ih
  | token ht _ ih =>
    rw [List.append_assoc, List.cons_append]
    exact .token ht ih

lemma RowSpelling.snoc {t : Token} {row : List Token} {cs raw : List Char}
    (h : RowSpelling row cs) (ht : t.SpelledBy raw) : RowSpelling (row ++ [t]) (cs ++ raw) := by
  simpa using h.append (.token ht .nil)

lemma RowSpelling.snoc_blank {row : List Token} {cs : List Char} {c : Char}
    (h : RowSpelling row cs) (hc : Token.isSpace c = true) : RowSpelling row (cs ++ [c]) := by
  simpa using h.append (.blank hc .nil)

namespace Token

open Scan

variable {t : Token} {done row : List Token} {read cs raw : List Char} {c : Char}

/-- Only a number can be a token without a text. -/
lemma SpelledBy.readable (h : t.SpelledBy raw) : t.Readable := by
  cases t with
  | string => trivial
  | _ => exact h.1

/-- Only a string has other texts than the one that is written. -/
lemma SpelledBy.eq_chars (h : t.SpelledBy raw) (ht : ∀ text, t ≠ .string text) :
    raw = t.chars := by
  cases t with
  | string text => exact absurd rfl (ht text)
  | _ => exact h.2

/-! ## Texts that are read -/

lemma foldlM_step_unit {digits : List Char} {unit value n : Nat} {high : Option Nat}
    (hlength : digits.length + n = 4) (hne : digits ≠ [])
    (hunit : Text.hexFrom? value digits = some unit) :
    digits.foldlM step ⟨done, .unit read high n value⟩ =
      (afterUnit read high unit).map fun mode => ⟨done, mode⟩ := by
  induction digits generalizing value n with
  | nil => exact absurd rfl hne
  | cons c digits ih =>
    obtain ⟨d, hd, hrest⟩ := Option.bind_eq_some_iff.mp hunit
    rw [List.length_cons] at hlength
    cases digits with
    | nil =>
      obtain rfl : n = 3 := by
        rw [List.length_nil] at hlength
        omega
      cases hrest
      simp [step, hd]
    | cons c' digits =>
      have hn : n ≠ 3 := by
        rw [List.length_cons] at hlength
        omega
      have hstep : step ⟨done, .unit read high n value⟩ c =
          some ⟨done, .unit read high (n + 1) (16 * value + d)⟩ := by
        simp [step, hd, hn]
      rw [List.foldlM_cons, hstep, Option.bind_eq_bind, Option.bind_some]
      exact ih (by omega) (List.cons_ne_nil _ _) hrest

/-- An escape by code unit is read to its end. -/
lemma foldlM_step_escapeUnit {digits : List Char} {unit : Nat} (hunit : IsUnit digits unit) :
    ('\\' :: 'u' :: digits).foldlM step ⟨done, .string read⟩ =
      (afterUnit read none unit).map fun mode => ⟨done, mode⟩ :=
  foldlM_step_unit hunit.1 (List.ne_nil_of_length_eq_add_one hunit.1) hunit.2

/-- A character inside quotes is read, however it is written. -/
lemma foldlM_step_charSpelling (h : CharSpelling c raw) :
    raw.foldlM step ⟨done, .string read⟩ = some ⟨done, .string (c :: read)⟩ := by
  cases h with
  | plain hquote hbackslash hcontrol => simp [step, hquote, hbackslash, hcontrol]
  | @letter _ l hletter =>
    have hu : l ≠ 'u' := by
      rintro rfl
      cases hletter
    simp [step, hu, hletter]
  | unit hunit hsingle =>
    rw [foldlM_step_escapeUnit hunit, afterUnit, if_pos hsingle, Option.map_some]
  | pair hhigh hunit hlow =>
    obtain ⟨hle, hlt, digits, hhigh, rfl⟩ := hhigh
    rw [List.foldlM_append, foldlM_step_escapeUnit hhigh, afterUnit, if_neg (by omega),
      if_pos hlt, Option.map_some, Option.bind_eq_bind, Option.bind_some]
    refine (foldlM_step_unit hunit.1 (List.ne_nil_of_length_eq_add_one hunit.1) hunit.2).trans ?_
    rw [afterUnit, if_pos hlow, Option.map_some]

lemma foldlM_step_quoted {text : List Char} (h : Quoted text raw) :
    raw.foldlM step ⟨done, .string read⟩ = some ⟨done, .string (text.reverse ++ read)⟩ := by
  induction h generalizing read with
  | nil => rfl
  | cons hc _ ih =>
    rw [List.foldlM_append, foldlM_step_charSpelling hc, Option.bind_eq_bind, Option.bind_some, ih]
    simp

lemma readFrom?_blank (hc : isSpace c = true) : readFrom? done (c :: cs) = readFrom? done cs := by
  have hbegin : step ⟨done, .between⟩ c = some ⟨done, .between⟩ := by
    simp [step, begin, hc]
  rw [readFrom?, List.foldlM_cons, hbegin, Option.bind_eq_bind, Option.bind_some, readFrom?]

lemma readFrom?_string {text : String} (h : (string text).SpelledBy raw) :
    readFrom? done (raw ++ cs) = readFrom? (string text :: done) cs := by
  obtain ⟨raw, hraw, rfl⟩ := h
  have hquote : step ⟨done, .between⟩ '"' = some ⟨done, .string []⟩ := rfl
  have hend : step ⟨done, .string (text.toList.reverse ++ [])⟩ '"' =
      some ⟨string text :: done, .between⟩ := by
    simp [step]
  rw [readFrom?, List.cons_append, List.foldlM_cons, hquote, Option.bind_eq_bind,
    Option.bind_some, List.append_assoc, List.foldlM_append, foldlM_step_quoted hraw,
    Option.bind_eq_bind, Option.bind_some, List.singleton_append, List.foldlM_cons, hend]
  rfl

/-- A row ends the atom before it, if it has not an atom itself at its front. -/
lemma endsAtom_head_of_rowSpelling (h : RowSpelling row cs) (hrow : beginsWithAtom row = false) :
    ∀ c ∈ cs.head?, endsAtom c = true := by
  cases h with
  | nil => nofun
  | blank hc _ =>
    rintro c ⟨⟩
    simp [endsAtom, hc]
  | @token t _ _ _ ht _ =>
    cases t with
    | null | bool | number => cases hrow
    | string =>
      obtain ⟨raw, -, rfl⟩ := ht
      rintro c ⟨⟩
      rfl
    | _ =>
      obtain ⟨-, rfl⟩ := ht
      rintro c ⟨⟩
      rfl

/-- A row in which no atoms meet is read from each of its texts. -/
theorem readFrom?_of_rowSpelling (h : RowSpelling row cs) (hrow : Parted row) :
    readFrom? done cs = some (done.reverse ++ row) := by
  induction h generalizing done with
  | nil => simp [readFrom?, finish]
  | blank hc _ ih => rw [readFrom?_blank hc, ih hrow]
  | @token t row raw cs ht hcs ih =>
    obtain ⟨hreadable, hnext, hrow⟩ := hrow
    have htoken : readFrom? done (raw ++ cs) = readFrom? (t :: done) cs := by
      cases hatom : t.isAtom with
      | true =>
        rw [ht.eq_chars (by rintro text rfl; cases hatom)]
        exact readFrom?_atom hatom hreadable (endsAtom_head_of_rowSpelling hcs (hnext hatom))
      | false =>
        cases t with
        | string text => exact readFrom?_string ht
        | null | bool | number => cases hatom
        | _ =>
          obtain ⟨-, rfl⟩ := ht
          rfl
    rw [htoken, ih hrow]
    simp

end Token

/-! ## The texts of a value -/

mutual

/-- What stands after the tokens of a value stands apart from them. -/
lemma tokensThen_append : ∀ (j : Json) (rest more : List Token),
    j.tokensThen (rest ++ more) = j.tokensThen rest ++ more
  | .null, _, _ => rfl
  | .bool _, _, _ => rfl
  | .number _, _, _ => rfl
  | .string _, _, _ => rfl
  | .array [], _, _ => by simp only [tokensThen, List.cons_append]
  | .array (item :: items), rest, more => by
    simp only [tokensThen, List.cons_append]
    rw [← tokensThen_append item, ← itemsThen_append items, List.cons_append]
  | .object [], _, _ => by simp only [tokensThen, List.cons_append]
  | .object ((key, value) :: fields), rest, more => by
    simp only [tokensThen, List.cons_append]
    rw [← tokensThen_append value, ← fieldsThen_append fields, List.cons_append]

lemma itemsThen_append : ∀ (items : List Json) (rest more : List Token),
    itemsThen items (rest ++ more) = itemsThen items rest ++ more
  | [], _, _ => rfl
  | item :: items, rest, more => by
    simp only [itemsThen, List.cons_append]
    rw [← tokensThen_append item, ← itemsThen_append items]

lemma fieldsThen_append : ∀ (fields : List (String × Json)) (rest more : List Token),
    fieldsThen fields (rest ++ more) = fieldsThen fields rest ++ more
  | [], _, _ => rfl
  | (key, value) :: fields, rest, more => by
    simp only [fieldsThen, List.cons_append]
    rw [← tokensThen_append value, ← fieldsThen_append fields]

end

lemma tokensThen_eq_append (j : Json) (rest : List Token) : j.tokensThen rest = j.tokens ++ rest :=
  tokensThen_append j [] rest

lemma itemsThen_eq_append (items : List Json) (rest : List Token) :
    itemsThen items rest = itemsThen items [] ++ rest :=
  itemsThen_append items [] rest

lemma fieldsThen_eq_append (fields : List (String × Json)) (rest : List Token) :
    fieldsThen fields rest = fieldsThen fields [] ++ rest :=
  fieldsThen_append fields [] rest

mutual

/-- The numbers of a value are among its tokens. -/
lemma readable_of_tokens : ∀ j : Json, (∀ t ∈ j.tokens, t.Readable) → j.Readable
  | .null, _ => trivial
  | .bool _, _ => trivial
  | .number text, h => h (.number text) (List.mem_singleton_self _)
  | .string _, _ => trivial
  | .array [], _ => trivial
  | .array (item :: items), h => by
    rw [tokens, tokensThen, tokensThen_eq_append, itemsThen_eq_append] at h
    exact ⟨readable_of_tokens item fun t ht => h t (by simp [ht]),
      readableItems_of_tokens items fun t ht => h t (by simp [ht])⟩
  | .object [], _ => trivial
  | .object ((key, value) :: fields), h => by
    rw [tokens, tokensThen, tokensThen_eq_append, fieldsThen_eq_append] at h
    exact ⟨readable_of_tokens value fun t ht => h t (by simp [ht]),
      readableFields_of_tokens fields fun t ht => h t (by simp [ht])⟩

lemma readableItems_of_tokens : ∀ items : List Json,
    (∀ t ∈ itemsThen items [], t.Readable) → ReadableItems items
  | [], _ => trivial
  | item :: items, h => by
    rw [itemsThen, tokensThen_eq_append] at h
    exact ⟨readable_of_tokens item fun t ht => h t (by simp [ht]),
      readableItems_of_tokens items fun t ht => h t (by simp [ht])⟩

lemma readableFields_of_tokens : ∀ fields : List (String × Json),
    (∀ t ∈ fieldsThen fields [], t.Readable) → ReadableFields fields
  | [], _ => trivial
  | (key, value) :: fields, h => by
    rw [fieldsThen, tokensThen_eq_append] at h
    exact ⟨readable_of_tokens value fun t ht => h t (by simp [ht]),
      readableFields_of_tokens fields fun t ht => h t (by simp [ht])⟩

end

lemma RowSpelling.readable {row : List Token} {cs : List Char} (h : RowSpelling row cs) :
    ∀ t ∈ row, t.Readable := by
  induction h with
  | nil => nofun
  | blank _ _ ih => exact ih
  | token ht _ ih => exact List.forall_mem_cons.mpr ⟨ht.readable, ih⟩

lemma SpelledBy.readable {j : Json} {s : String} (h : j.SpelledBy s) : j.Readable :=
  readable_of_tokens j (RowSpelling.readable h)

/-- A value is read from each of its texts as it is read from its tokens. -/
theorem SpelledBy.ofText?_eq_ofTokens? {j : Json} {s : String} (h : j.SpelledBy s) :
    ofText? s = ofTokens? j.tokens := by
  have hparted := parted_tokensThen j [] h.readable rfl trivial
  have hscan : Token.scan? s.toList = some j.tokens :=
    Token.readFrom?_of_rowSpelling h hparted
  rw [ofText?, hscan, Option.bind_some]

/-! ## The text that is written -/

lemma hexDigit?_digitChar : ∀ n : Fin 16, Text.hexDigit? (Nat.digitChar n) = some n.val := by
  decide

/-- A control character without a letter is written by its code unit, of two zeros and two more
digits. -/
lemma charSpelling_digits {c : Char} (hc : c < ' ') :
    CharSpelling c
      ['\\', 'u', '0', '0', Nat.digitChar (c.toNat / 16), Nat.digitChar (c.toNat % 16)] := by
  have hlt : c.toNat < 32 := hc
  have hhigh := hexDigit?_digitChar ⟨c.toNat / 16, by omega⟩
  have hlow := hexDigit?_digitChar ⟨c.toNat % 16, by omega⟩
  have hzero : Text.hexDigit? '0' = some 0 := by decide
  have hvalue : 16 * (c.toNat / 16) + c.toNat % 16 = c.toNat := by omega
  simp only at hhigh hlow
  have hunit : IsUnit ['0', '0', Nat.digitChar (c.toNat / 16), Nat.digitChar (c.toNat % 16)]
      c.toNat := by
    simp [IsUnit, Text.hexFrom?, hzero, hhigh, hlow, hvalue]
  have hspelling := CharSpelling.unit hunit (.inl (by omega))
  rwa [Char.ofNat_toNat] at hspelling

/-- The way in which a character is written is one of its spellings. -/
lemma charSpelling_escapeChar (c : Char) : CharSpelling c (escapeChar c) := by
  unfold escapeChar
  split_ifs with hquote hbackslash hcontrol
  · subst hquote
    exact .letter rfl
  · subst hbackslash
    exact .letter rfl
  · unfold escapeControl
    split_ifs with h h h h h
    · subst h
      exact .letter rfl
    · subst h
      exact .letter rfl
    · subst h
      exact .letter rfl
    · subst h
      exact .letter rfl
    · subst h
      exact .letter rfl
    · exact charSpelling_digits hcontrol
  · exact .plain hquote hbackslash hcontrol

lemma quoted_flatMap_escapeChar (cs : List Char) : Quoted cs (cs.flatMap escapeChar) := by
  induction cs with
  | nil => exact .nil
  | cons c cs ih => exact .cons (charSpelling_escapeChar c) ih

lemma Token.spelledBy_chars {t : Token} (ht : t.Readable) : t.SpelledBy t.chars := by
  cases t with
  | string text => exact ⟨_, quoted_flatMap_escapeChar text.toList, rfl⟩
  | _ => exact ⟨ht, rfl⟩

lemma rowSpelling_flatMap_chars {row : List Token} (hrow : ∀ t ∈ row, t.Readable) :
    RowSpelling row (row.flatMap Token.chars) := by
  induction row with
  | nil => exact .nil
  | cons t row ih =>
    obtain ⟨ht, hrow⟩ := List.forall_mem_cons.mp hrow
    exact .token (Token.spelledBy_chars ht) (ih hrow)

/-- The text that is written for a value is one of its texts. -/
theorem spelledBy_text {j : Json} (hj : j.Readable) : j.SpelledBy j.text := by
  rw [SpelledBy, text, String.toList_ofList]
  exact rowSpelling_flatMap_chars (parted_tokensThen j [] hj rfl trivial).readable

end WordPacking.Json
