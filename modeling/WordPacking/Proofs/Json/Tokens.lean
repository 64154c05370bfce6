/-
# The tokens of a value

A string ends with its quote, and each of the other tokens but atoms is one character.  An atom
has no end of its own: it is complete where the next character begins another token, or where the
text ends (`readFrom?_atom`).  So a row of tokens can be read without blanks if no atom stands next
to another one (`Parted`).  Between the atoms of a value there is always a bracket, a comma or a
colon, and the row of its tokens is of this kind (`parted_tokensThen`).
-/
import Mathlib.Tactic.Common
import WordPacking.Json.Text
import WordPacking.Proofs.Json.Number

namespace WordPacking.Json

namespace Token

open Scan

/-! ## Rows that can be read back -/

/-- The tokens that have no end of their own. -/
def isAtom : Token → Bool
  | null => true
  | bool _ => true
  | number _ => true
  | _ => false

/-- The text of a token is one that is read as this token.  This can fail for a number only. -/
def Readable : Token → Prop
  | number text => isNumber text.toList = true ∧ ∀ c ∈ text.toList, endsAtom c = false
  | _ => True

/-- Whether a row begins with an atom. -/
def beginsWithAtom : List Token → Bool
  | [] => false
  | t :: _ => t.isAtom

/-- Each token of a row is readable, and no atom stands next to another one. -/
def Parted : List Token → Prop
  | [] => True
  | t :: row => t.Readable ∧ (t.isAtom = true → beginsWithAtom row = false) ∧ Parted row

/-- A token that is no atom may stand before any row. -/
lemma Parted.cons {t : Token} {row : List Token} (ht : t.isAtom = false) (hrow : Parted row) :
    Parted (t :: row) := by
  cases t with
  | null | bool | number => cases ht
  | _ => exact ⟨trivial, nofun, hrow⟩

lemma Parted.readable {row : List Token} (hrow : Parted row) : ∀ t ∈ row, t.Readable := by
  induction row with
  | nil => nofun
  | cons t row ih => exact List.forall_mem_cons.mpr ⟨hrow.1, ih hrow.2.2⟩

/-! ## Reading an atom -/

variable {t : Token} {done : List Token} {read cs rest : List Char}

lemma ofAtom?_chars (hatom : t.isAtom = true) (ht : t.Readable) : ofAtom? t.chars = some t := by
  cases t with
  | null => rfl
  | bool b => cases b <;> rfl
  | number text =>
    obtain ⟨hnumber, -⟩ := ht
    -- the three names are no numbers
    have hname : ∀ name, isNumber name = false → text.toList ≠ name := by
      rintro _ hname rfl
      exact absurd (hnumber.symm.trans hname) (by decide)
    have hnull := hname null.chars (by decide)
    have htrue := hname (bool true).chars (by decide)
    have hfalse := hname (bool false).chars (by decide)
    simp [ofAtom?, chars, hnumber] at hnull htrue hfalse ⊢
    simp [hnull, htrue, hfalse]
  | _ => cases hatom

lemma forall_endsAtom_eq_false (h : (cs.all fun c => !endsAtom c) = true) :
    ∀ c ∈ cs, endsAtom c = false := by
  simpa using h

lemma endsAtom_of_mem_chars (hatom : t.isAtom = true) (ht : t.Readable) :
    ∀ c ∈ t.chars, endsAtom c = false := by
  cases t with
  | null => exact forall_endsAtom_eq_false rfl
  | bool b => cases b <;> exact forall_endsAtom_eq_false rfl
  | number text => exact ht.2
  | _ => cases hatom

lemma chars_ne_nil (hatom : t.isAtom = true) (ht : t.Readable) : t.chars ≠ [] := by
  intro hnil
  have hread := ofAtom?_chars hatom ht
  rw [hnil] at hread
  exact absurd hread (by simp [ofAtom?, isNumber, Number.ofChars?, Number.isWhole, chars])

/-- A digit ends no atom. -/
lemma endsAtom_of_isDigit {c : Char} (hc : c.isDigit = true) : endsAtom c = false := by
  have hne : ∀ c', c'.isDigit = false → c ≠ c' := by
    rintro c' hc' rfl
    exact absurd (hc.symm.trans hc') (by decide)
  simp [endsAtom, isSpace, ofPunctuation?, hne ' ' rfl, hne '\t' rfl, hne '\n' rfl, hne '\r' rfl,
    hne '"' rfl, hne '[' rfl, hne ']' rfl, hne '\x7b' rfl, hne '\x7d' rfl, hne ',' rfl,
    hne ':' rfl]

/-- What is read from a place between two tokens on. -/
def readFrom? (done : List Token) (cs : List Char) : Option (List Token) :=
  (cs.foldlM step ⟨done, .between⟩).bind finish

lemma foldlM_step_atom (hcs : ∀ c ∈ cs, endsAtom c = false) :
    cs.foldlM step ⟨done, .atom read⟩ = some ⟨done, .atom (cs.reverse ++ read)⟩ := by
  induction cs generalizing read with
  | nil => rfl
  | cons c cs ih =>
    obtain ⟨hc, hcs⟩ := List.forall_mem_cons.mp hcs
    have hstep : step ⟨done, .atom read⟩ c = some ⟨done, .atom (c :: read)⟩ := by
      simp [step, hc]
    rw [List.foldlM_cons, hstep, Option.bind_eq_bind, Option.bind_some, ih hcs]
    simp

/-- A character that ends no atom begins one. -/
lemma begin_of_endsAtom_eq_false {c : Char} (hc : endsAtom c = false) :
    begin done c = ⟨done, .atom [c]⟩ := by
  simp only [endsAtom, Bool.or_eq_false_iff, Option.isSome_eq_false_iff, Option.isNone_iff_eq_none,
    decide_eq_false_iff_not] at hc
  obtain ⟨⟨hspace, hpunctuation⟩, hquote⟩ := hc
  simp [begin, hspace, hpunctuation, hquote]

/-- An atom is read where it ends. -/
lemma readFrom?_atom (hatom : t.isAtom = true) (ht : t.Readable)
    (hrest : ∀ c ∈ rest.head?, endsAtom c = true) :
    readFrom? done (t.chars ++ rest) = readFrom? (t :: done) rest := by
  have hread := ofAtom?_chars hatom ht
  have hplain := endsAtom_of_mem_chars hatom ht
  rcases hchars : t.chars with _ | ⟨c, cs⟩
  · exact absurd hchars (chars_ne_nil hatom ht)
  · rw [hchars] at hread hplain
    obtain ⟨hc, hcs⟩ := List.forall_mem_cons.mp hplain
    have hbegin : step ⟨done, .between⟩ c = some ⟨done, .atom [c]⟩ :=
      congrArg some (begin_of_endsAtom_eq_false hc)
    have hend : ofAtom? (cs.reverse ++ [c]).reverse = some t := by simpa using hread
    rw [readFrom?, List.cons_append, List.foldlM_cons, hbegin, Option.bind_eq_bind,
      Option.bind_some, List.foldlM_append, foldlM_step_atom hcs, Option.bind_eq_bind,
      Option.bind_some]
    -- the atom is complete at the end of the text, or at a character that ends it
    cases rest with
    | nil => simp [readFrom?, finish, hread]
    | cons c' rest =>
      have hc' : endsAtom c' = true := hrest c' rfl
      have hstep : step ⟨done, .atom (cs.reverse ++ [c])⟩ c' =
          step ⟨t :: done, .between⟩ c' := by
        simp only [step, hc', if_true, hend, Option.map_some]
      rw [readFrom?, List.foldlM_cons, List.foldlM_cons, hstep]

end Token

/-! ## The tokens of a value -/

mutual

/-- The numbers of a value are readable. -/
def Readable : Json → Prop
  | number text => (Token.number text).Readable
  | array items => ReadableItems items
  | object fields => ReadableFields fields
  | _ => True

/-- The numbers of all items are readable. -/
def ReadableItems : List Json → Prop
  | [] => True
  | item :: items => item.Readable ∧ ReadableItems items

/-- The numbers of all fields are readable. -/
def ReadableFields : List (String × Json) → Prop
  | [] => True
  | (_, value) :: fields => value.Readable ∧ ReadableFields fields

end

open Token

/-- A natural number below `2 ^ 64` is readable. -/
lemma readable_ofNat {n : Nat} (hn : n < UInt64.size) : (ofNat n).Readable := by
  rw [ofNat, Readable, Token.Readable, String.toList_ofList]
  exact ⟨isNumber_toDigits hn, fun c hc => endsAtom_of_isDigit (Number.isDigit_of_mem_toDigits hc)⟩

lemma not_beginsWithAtom_itemsThen (items : List Json) {rest : List Token}
    (hrest : beginsWithAtom rest = false) : beginsWithAtom (itemsThen items rest) = false := by
  cases items with
  | nil => exact hrest
  | cons item items => rfl

lemma not_beginsWithAtom_fieldsThen (fields : List (String × Json)) {rest : List Token}
    (hrest : beginsWithAtom rest = false) : beginsWithAtom (fieldsThen fields rest) = false := by
  cases fields with
  | nil => exact hrest
  | cons field fields => rfl

mutual

/-- No atoms meet among the tokens of a value. -/
theorem parted_tokensThen : ∀ (j : Json) (rest : List Token), j.Readable →
    beginsWithAtom rest = false → Parted rest → Parted (j.tokensThen rest)
  | .null, _, _, hnext, hrest => ⟨trivial, fun _ => hnext, hrest⟩
  | .bool _, _, _, hnext, hrest => ⟨trivial, fun _ => hnext, hrest⟩
  | .number _, _, hj, hnext, hrest => ⟨hj, fun _ => hnext, hrest⟩
  | .string _, _, _, _, hrest => hrest.cons rfl
  | .array [], rest, _, _, hrest => by
    rw [tokensThen]
    exact (hrest.cons rfl).cons rfl
  | .array (item :: items), rest, hj, hnext, hrest => by
    have hitems := parted_itemsThen items (.closeArray :: rest) hj.2 rfl (hrest.cons rfl)
    have hitem := parted_tokensThen item _ hj.1 (not_beginsWithAtom_itemsThen items rfl) hitems
    rw [tokensThen]
    exact hitem.cons rfl
  | .object [], rest, _, _, hrest => by
    rw [tokensThen]
    exact (hrest.cons rfl).cons rfl
  | .object ((key, value) :: fields), rest, hj, hnext, hrest => by
    have hfields := parted_fieldsThen fields (.closeObject :: rest) hj.2 rfl (hrest.cons rfl)
    have hvalue := parted_tokensThen value _ hj.1 (not_beginsWithAtom_fieldsThen fields rfl)
      hfields
    rw [tokensThen]
    exact ((hvalue.cons rfl).cons rfl).cons rfl

/-- Nor among those of further items. -/
theorem parted_itemsThen : ∀ (items : List Json) (rest : List Token), ReadableItems items →
    beginsWithAtom rest = false → Parted rest → Parted (itemsThen items rest)
  | [], _, _, _, hrest => hrest
  | item :: items, rest, hitems, hnext, hrest => by
    have hitem := parted_tokensThen item _ hitems.1 (not_beginsWithAtom_itemsThen items hnext)
      (parted_itemsThen items rest hitems.2 hnext hrest)
    exact hitem.cons rfl

/-- Nor among those of further fields. -/
theorem parted_fieldsThen : ∀ (fields : List (String × Json)) (rest : List Token),
    ReadableFields fields → beginsWithAtom rest = false → Parted rest →
      Parted (fieldsThen fields rest)
  | [], _, _, _, hrest => hrest
  | (_, value) :: fields, rest, hfields, hnext, hrest => by
    have hvalue := parted_tokensThen value _ hfields.1 (not_beginsWithAtom_fieldsThen fields hnext)
      (parted_fieldsThen fields rest hfields.2 hnext hrest)
    rw [fieldsThen]
    exact ((hvalue.cons rfl).cons rfl).cons rfl

end

end WordPacking.Json
