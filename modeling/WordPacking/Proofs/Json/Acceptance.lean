/-
# Texts that are accepted

The reader accepts nothing but texts of values, so that the texts of a value that do not nest too
deeply are exactly those which are read as this value (`ofText?_eq_some_iff`).

Both machines of the reader keep what they have read.  The scanner has complete tokens and what it
is reading at the moment, and together these spell the characters so far (`Scan.Reached`).  The
parser has arrays and objects that are open, and their tokens, which can be written down again, are
those so far (`Parse.read`).  One step adds one character or one token, and the whole text follows
by induction on the run.
-/
import Mathlib.Tactic.Common
import WordPacking.Proofs.Json.Nesting

namespace WordPacking.Json

/-- What one step preserves about what has been read so far holds of the whole run. -/
lemma foldlM_invariant {σ α : Type} {f : σ → α → Option σ} {I : List α → σ → Prop}
    (hstep : ∀ {so_far s a s'}, I so_far s → f s a = some s' → I (so_far ++ [a]) s')
    {so_far as : List α} {s s' : σ} (hs : I so_far s) (h : as.foldlM f s = some s') :
    I (so_far ++ as) s' := by
  induction as generalizing so_far s with
  | nil =>
    cases h
    simpa using hs
  | cons a as ih =>
    rw [List.foldlM_cons] at h
    obtain ⟨s₁, hs₁, h⟩ := Option.bind_eq_some_iff.mp h
    simpa using ih (hstep hs hs₁) h

/-! ## The scanner -/

namespace Token

/-- The characters of a token that is not complete yet. -/
inductive Unfinished : Mode → List Char → Prop where
  /-- Nothing has been read. -/
  | between : Unfinished .between []
  /-- The characters of an atom. -/
  | atom {read : List Char} (hread : ∀ c ∈ read, Scan.endsAtom c = false) :
      Unfinished (.atom read) read.reverse
  /-- A quote, and what a string has so far. -/
  | string {read raw : List Char} (hraw : Quoted read.reverse raw) :
      Unfinished (.string read) ('"' :: raw)
  /-- The same and a backslash. -/
  | escape {read raw : List Char} (hraw : Quoted read.reverse raw) :
      Unfinished (.escape read) ('"' :: raw ++ ['\\'])
  /-- The same and an escape by code unit up to some digit. -/
  | unit {read raw digits : List Char} {value : Nat} (hraw : Quoted read.reverse raw)
      (hdigits : Text.hexFrom? 0 digits = some value) :
      Unfinished (.unit read none digits.length value) ('"' :: raw ++ ('\\' :: 'u' :: digits))
  /-- The same and a high surrogate. -/
  | pair {read raw first : List Char} {high : Nat} (hraw : Quoted read.reverse raw)
      (hhigh : IsHighHalf high first) : Unfinished (.pair read high) ('"' :: raw ++ first)
  /-- The same and a backslash. -/
  | pairEscape {read raw first : List Char} {high : Nat} (hraw : Quoted read.reverse raw)
      (hhigh : IsHighHalf high first) :
      Unfinished (.pairEscape read high) ('"' :: raw ++ first ++ ['\\'])
  /-- The same and the escape of a low surrogate up to some digit. -/
  | lowUnit {read raw first digits : List Char} {high value : Nat}
      (hraw : Quoted read.reverse raw) (hhigh : IsHighHalf high first)
      (hdigits : Text.hexFrom? 0 digits = some value) :
      Unfinished (.unit read (some high) digits.length value)
        ('"' :: raw ++ first ++ ('\\' :: 'u' :: digits))

namespace Scan

/-- The machine has read these characters: complete tokens, and what it is reading now. -/
inductive Reached : List Char → Scan → Prop where
  | mk {row : List Token} {mode : Mode} {cs raw : List Char} (hrow : RowSpelling row.reverse cs)
      (hmode : Unfinished mode raw) : Reached (cs ++ raw) ⟨row, mode⟩

variable {row : List Token} {cs raw read : List Char} {c : Char} {s s' : Scan}

lemma Reached.of_row (hrow : RowSpelling row.reverse cs) : Reached cs ⟨row, .between⟩ := by
  simpa using Reached.mk hrow .between

lemma spelledBy_of_ofAtom? {t : Token} (hread : ∀ c ∈ cs, endsAtom c = false)
    (h : ofAtom? cs = some t) : t.SpelledBy cs := by
  unfold ofAtom? at h
  split_ifs at h with hnull htrue hfalse hnumber
  · cases h
    exact ⟨trivial, hnull⟩
  · cases h
    exact ⟨trivial, htrue⟩
  · cases h
    exact ⟨trivial, hfalse⟩
  · cases h
    have hchars : (String.ofList cs).toList = cs := String.toList_ofList
    exact ⟨⟨by rwa [hchars], by rwa [hchars]⟩, hchars.symm⟩

lemma spelledBy_of_ofPunctuation? {t : Token} (h : ofPunctuation? c = some t) :
    t.SpelledBy [c] := by
  unfold ofPunctuation? at h
  split at h
  all_goals cases h
  all_goals exact ⟨trivial, rfl⟩

/-- Between two tokens, each character is a blank, a token or the first one of a token. -/
lemma reached_begin (hrow : RowSpelling row.reverse cs) :
    Reached (cs ++ [c]) (begin row c) := by
  by_cases hspace : isSpace c = true
  · rw [begin, if_pos hspace]
    exact .of_row (hrow.snoc_blank hspace)
  · rw [begin, if_neg hspace]
    cases hc : ofPunctuation? c with
    | some t =>
      refine .of_row ?_
      rw [List.reverse_cons]
      exact hrow.snoc (spelledBy_of_ofPunctuation? hc)
    | none =>
      by_cases hquote : c = '"'
      · subst hquote
        exact .mk hrow (.string .nil)
      · have hatom : ∀ c' ∈ [c], endsAtom c' = false := by
          simp [endsAtom, hspace, hc, hquote]
        simpa [hquote] using Reached.mk hrow (.atom hatom)

lemma hexFrom?_snoc {digits : List Char} {n value d : Nat}
    (hdigits : Text.hexFrom? n digits = some value) (hd : Text.hexDigit? c = some d) :
    Text.hexFrom? n (digits ++ [c]) = some (16 * value + d) := by
  induction digits generalizing n with
  | nil =>
    cases hdigits
    simp [Text.hexFrom?, hd]
  | cons c' digits ih =>
    obtain ⟨d', hd', hrest⟩ := Option.bind_eq_some_iff.mp hdigits
    rw [List.cons_append, Text.hexFrom?, hd', Option.bind_some, ih hrest]

/-- An atom that is complete is a token. -/
lemma spelling_of_atom {t : Token} (hrow : RowSpelling row.reverse cs)
    (hread : ∀ c ∈ read, endsAtom c = false) (h : ofAtom? read.reverse = some t) :
    RowSpelling (t :: row).reverse (cs ++ read.reverse) := by
  rw [List.reverse_cons]
  exact hrow.snoc (spelledBy_of_ofAtom? (by simpa using hread) h)

/-- After the last digit of an escape, a character is complete or a low surrogate has to follow. -/
lemma reached_afterUnit_none {digits : List Char} {unit : Nat} {mode : Mode}
    (hrow : RowSpelling row.reverse cs) (hraw : Quoted read.reverse raw)
    (hunit : IsUnit digits unit) (h : afterUnit read none unit = some mode) :
    Reached (cs ++ ('"' :: raw ++ ('\\' :: 'u' :: digits))) ⟨row, mode⟩ := by
  simp only [afterUnit] at h
  split_ifs at h with hsingle hhigh
  · cases h
    refine .mk hrow (.string ?_)
    rw [List.reverse_cons]
    exact hraw.snoc (.unit hunit hsingle)
  · cases h
    exact .mk hrow (.pair hraw ⟨by omega, hhigh, digits, hunit, rfl⟩)

lemma reached_afterUnit_some {digits first : List Char} {unit high : Nat} {mode : Mode}
    (hrow : RowSpelling row.reverse cs) (hraw : Quoted read.reverse raw)
    (hhigh : IsHighHalf high first) (hunit : IsUnit digits unit)
    (h : afterUnit read (some high) unit = some mode) :
    Reached (cs ++ ('"' :: raw ++ first ++ ('\\' :: 'u' :: digits))) ⟨row, mode⟩ := by
  simp only [afterUnit] at h
  split_ifs at h with hlow
  cases h
  rw [List.append_assoc]
  refine .mk hrow (.string ?_)
  rw [List.reverse_cons]
  exact hraw.snoc (.pair hhigh hunit hlow)

/-- One more character is read. -/
theorem Reached.step (h : Reached cs s) (hstep : Scan.step s c = some s') :
    Reached (cs ++ [c]) s' := by
  obtain @⟨row, mode, cs, raw, hrow, hmode⟩ := h
  cases hmode with
  | between =>
    cases hstep
    simpa using reached_begin hrow
  | @atom read hread =>
    simp only [Scan.step] at hstep
    split_ifs at hstep with hend
    · obtain ⟨t, ht, rfl⟩ := Option.map_eq_some_iff.mp hstep
      exact reached_begin (spelling_of_atom hrow hread ht)
    · cases hstep
      have hread' : ∀ c' ∈ c :: read, endsAtom c' = false :=
        List.forall_mem_cons.mpr ⟨by simpa using hend, hread⟩
      simpa using Reached.mk hrow (.atom hread')
  | @string read raw hraw =>
    simp only [Scan.step] at hstep
    split_ifs at hstep with hquote hbackslash hcontrol
    · cases hstep
      subst hquote
      have hstring : (string (String.ofList read.reverse)).SpelledBy ('"' :: (raw ++ ['"'])) :=
        ⟨raw, by rwa [String.toList_ofList], rfl⟩
      refine .of_row ?_
      rw [List.reverse_cons, List.append_assoc]
      exact hrow.snoc hstring
    · cases hstep
      subst hbackslash
      rw [List.append_assoc]
      exact .mk hrow (.escape hraw)
    · cases hstep
      rw [List.append_assoc]
      refine .mk hrow (.string ?_)
      rw [List.reverse_cons]
      exact hraw.snoc (.plain hquote hbackslash hcontrol)
  | @escape read raw hraw =>
    simp only [Scan.step] at hstep
    split_ifs at hstep with hu
    · cases hstep
      subst hu
      have hdigits : Text.hexFrom? 0 [] = some 0 := rfl
      simpa using Reached.mk hrow (.unit hraw hdigits)
    · obtain ⟨c', hletter, rfl⟩ := Option.map_eq_some_iff.mp hstep
      have hraw' : Quoted (c' :: read).reverse (raw ++ ['\\', c]) := by
        rw [List.reverse_cons]
        exact hraw.snoc (.letter hletter)
      simpa using Reached.mk hrow (.string hraw')
  | @unit read raw digits value hraw hdigits =>
    simp only [Scan.step] at hstep
    obtain ⟨d, hd, hstep⟩ := Option.bind_eq_some_iff.mp hstep
    have hsnoc := hexFrom?_snoc hdigits hd
    split_ifs at hstep with hlast
    · obtain ⟨mode, hmode, rfl⟩ := Option.map_eq_some_iff.mp hstep
      have hunit : IsUnit (digits ++ [c]) (16 * value + d) := ⟨by simp [hlast], hsnoc⟩
      simpa using reached_afterUnit_none hrow hraw hunit hmode
    · cases hstep
      simpa using Reached.mk hrow (.unit hraw hsnoc)
  | @pair read raw first high hraw hhigh =>
    simp only [Scan.step] at hstep
    split_ifs at hstep with hbackslash
    cases hstep
    subst hbackslash
    rw [List.append_assoc]
    exact .mk hrow (.pairEscape hraw hhigh)
  | @pairEscape read raw first high hraw hhigh =>
    simp only [Scan.step] at hstep
    split_ifs at hstep with hu
    cases hstep
    subst hu
    have hdigits : Text.hexFrom? 0 [] = some 0 := rfl
    simpa using Reached.mk hrow (.lowUnit hraw hhigh hdigits)
  | @lowUnit read raw first digits high value hraw hhigh hdigits =>
    simp only [Scan.step] at hstep
    obtain ⟨d, hd, hstep⟩ := Option.bind_eq_some_iff.mp hstep
    have hsnoc := hexFrom?_snoc hdigits hd
    split_ifs at hstep with hlast
    · obtain ⟨mode, hmode, rfl⟩ := Option.map_eq_some_iff.mp hstep
      have hunit : IsUnit (digits ++ [c]) (16 * value + d) := ⟨by simp [hlast], hsnoc⟩
      simpa using reached_afterUnit_some hrow hraw hhigh hunit hmode
    · cases hstep
      simpa using Reached.mk hrow (.lowUnit hraw hhigh hsnoc)

lemma Reached.finish (h : Reached cs s) (hend : Scan.finish s = some row) : RowSpelling row cs := by
  obtain ⟨hrow, hmode⟩ := h
  cases hmode with
  | between =>
    cases hend
    simpa using hrow
  | atom hread =>
    obtain ⟨t, ht, rfl⟩ := Option.map_eq_some_iff.mp hend
    exact spelling_of_atom hrow hread ht
  | _ => cases hend

end Scan

/-- **What is scanned is a text of the tokens.** -/
theorem rowSpelling_of_scan? {row : List Token} {cs : List Char} (h : scan? cs = some row) :
    RowSpelling row cs := by
  obtain ⟨s, hrun, hend⟩ := Option.bind_eq_some_iff.mp h
  have hnone : RowSpelling (List.reverse []) [] := .nil
  have hreached : Scan.Reached cs s :=
    foldlM_invariant Scan.Reached.step (Scan.Reached.of_row hnone) hrun
  exact hreached.finish hend

end Token

/-! ## The parser -/

/-- The tokens of a field. -/
def fieldTokens (field : String × Json) : List Token :=
  .string field.1 :: .colon :: field.2.tokens

lemma itemsThen_eq_flatMap (items : List Json) :
    itemsThen items [] = items.flatMap fun item => .comma :: item.tokens := by
  induction items with
  | nil => rfl
  | cons item items ih => rw [itemsThen, tokensThen_eq_append, ih, List.flatMap_cons]; rfl

lemma fieldsThen_eq_flatMap (fields : List (String × Json)) :
    fieldsThen fields [] = fields.flatMap fun field => .comma :: fieldTokens field := by
  induction fields with
  | nil => rfl
  | cons field fields ih => rw [fieldsThen, tokensThen_eq_append, ih, List.flatMap_cons]; rfl

/-- A comma before each row but the first one, or after each row but the last one. -/
lemma flatMap_comma {α : Type} (f : α → List Token) (a : α) (as : List α) (last : α) :
    f a ++ (as ++ [last]).flatMap (fun b => .comma :: f b) =
      (a :: as).flatMap (fun b => f b ++ [.comma]) ++ f last := by
  induction as generalizing a with
  | nil => simp
  | cons b as ih => simpa using ih b

/-- The tokens of an array, by its last item. -/
lemma tokens_array_snoc (items : List Json) (last : Json) :
    (array (items ++ [last])).tokens =
      .openArray :: (items.flatMap (fun item => item.tokens ++ [.comma]) ++ last.tokens ++
        [.closeArray]) := by
  cases items with
  | nil => rw [List.nil_append, tokens, tokensThen, tokensThen_eq_append]; rfl
  | cons item items =>
    rw [List.cons_append, tokens, tokensThen, tokensThen_eq_append, itemsThen_eq_append,
      itemsThen_eq_flatMap, ← List.append_assoc, flatMap_comma]

/-- The tokens of an object, by its last field. -/
lemma tokens_object_snoc (fields : List (String × Json)) (last : String × Json) :
    (object (fields ++ [last])).tokens =
      .openObject :: (fields.flatMap (fun field => fieldTokens field ++ [.comma]) ++
        fieldTokens last ++ [.closeObject]) := by
  cases fields with
  | nil => rw [List.nil_append, tokens, tokensThen, tokensThen_eq_append]; rfl
  | cons field fields =>
    have hfield : .string field.1 :: .colon :: (field.2.tokens ++
        (fields ++ [last]).flatMap fun field => .comma :: fieldTokens field) =
        fieldTokens field ++ (fields ++ [last]).flatMap fun field => .comma :: fieldTokens field :=
      rfl
    rw [List.cons_append, tokens, tokensThen, tokensThen_eq_append, fieldsThen_eq_append,
      fieldsThen_eq_flatMap, ← List.append_assoc, ← List.cons_append, ← List.cons_append, hfield,
      flatMap_comma]

/-- The tokens of an array or object up to a value that is still missing. -/
def Open.read : Open → List Token
  | array items => .openArray :: items.reverse.flatMap fun item => item.tokens ++ [.comma]
  | object fields key =>
    .openObject :: (fields.reverse.flatMap (fun field => fieldTokens field ++ [.comma]) ++
      [.string key, .colon])

namespace Parse

/-- The tokens of everything that is open, the outermost first. -/
def readOpen (opened : List Open) : List Token := opened.reverse.flatMap Open.read

/-- The tokens that have been read. -/
def read : Parse → List Token
  | nextValue opened => readOpen opened
  | firstItem opened => readOpen opened ++ [.openArray]
  | firstKey opened => readOpen opened ++ [.openObject]
  | nextKey fields opened =>
    readOpen opened ++
      .openObject :: fields.reverse.flatMap fun field => fieldTokens field ++ [.comma]
  | nextColon fields key opened =>
    readOpen opened ++
      .openObject :: (fields.reverse.flatMap (fun field => fieldTokens field ++ [.comma]) ++
        [.string key])
  | after j opened => readOpen opened ++ j.tokens

variable {p p' : Parse} {t : Token} {opened : List Open} {j : Json}

@[simp] lemma readOpen_cons (o : Open) (opened : List Open) :
    readOpen (o :: opened) = readOpen opened ++ o.read := by
  simp [readOpen]

lemma read_beginValue (h : beginValue opened t = some p') : p'.read = readOpen opened ++ [t] := by
  cases t with
  | null | bool | number | string =>
    cases h
    rfl
  | openArray | openObject =>
    simp only [beginValue] at h
    split_ifs at h
    cases h
    rfl
  | _ => cases h

lemma read_afterValue (h : afterValue j opened t = some p') :
    p'.read = readOpen opened ++ j.tokens ++ [t] := by
  rcases opened with _ | ⟨⟨items⟩ | ⟨fields, key⟩, opened⟩
  · cases h
  · cases t with
    | comma =>
      cases h
      simp [read, Open.read]
    | closeArray =>
      cases h
      rw [read, List.reverse_cons, tokens_array_snoc]
      simp [Open.read]
    | _ => cases h
  · cases t with
    | comma =>
      cases h
      simp [read, Open.read, fieldTokens]
    | closeObject =>
      cases h
      rw [read, List.reverse_cons, tokens_object_snoc]
      simp [Open.read, fieldTokens]
    | _ => cases h

/-- One more token is read. -/
theorem read_step (h : step p t = some p') : p'.read = p.read ++ [t] := by
  cases p with
  | nextValue opened => exact read_beginValue h
  | firstItem opened =>
    by_cases hclose : t = .closeArray
    · subst hclose
      cases h
      simp [read, tokens, tokensThen]
    · rw [step_firstItem hclose] at h
      simpa [read, Open.read] using read_beginValue h
  | firstKey opened =>
    cases t with
    | closeObject | string =>
      cases h
      simp [read, tokens, tokensThen]
    | _ => cases h
  | nextKey fields opened =>
    cases t with
    | string key =>
      cases h
      simp [read]
    | _ => cases h
  | nextColon fields key opened =>
    cases t with
    | colon =>
      cases h
      simp [read, Open.read]
    | _ => cases h
  | after j opened => exact read_afterValue h

end Parse

/-- **What is parsed are the tokens of the value.** -/
theorem tokens_of_ofTokens? {row : List Token} {j : Json} (h : ofTokens? row = some j) :
    j.tokens = row := by
  obtain ⟨p, hrun, hend⟩ := Option.bind_eq_some_iff.mp h
  have hstep : ∀ {so_far : List Token} {p : Parse} {t : Token} {p' : Parse},
      p.read = so_far → p.step t = some p' → p'.read = so_far ++ [t] := by
    rintro so_far p t p' rfl h
    exact Parse.read_step h
  have hread := foldlM_invariant (I := fun so_far p => p.read = so_far) hstep rfl hrun
  rcases p with _ | _ | _ | _ | _ | ⟨j', _ | ⟨o, opened⟩⟩
  all_goals cases hend
  exact hread

/-! ## The reader -/

/-- **A text is read as a value exactly if it is a text of this value and does not nest too
deeply.** -/
theorem ofText?_eq_some_iff {s : String} {j : Json} :
    ofText? s = some j ↔ j.SpelledBy s ∧ Text.nesting s ≤ maxNesting := by
  constructor
  · intro h
    obtain ⟨row, hscan, hparse⟩ := Option.bind_eq_some_iff.mp h
    obtain rfl := tokens_of_ofTokens? hparse
    have hspelled : j.SpelledBy s := Token.rowSpelling_of_scan? hscan
    refine ⟨hspelled, ?_⟩
    -- the text of a value that nests too deeply is refused
    by_contra hdeep
    rw [hspelled.ofText?_eq_ite, if_neg hdeep] at h
    cases h
  · rintro ⟨hspelled, hnesting⟩
    rw [hspelled.ofText?_eq_ite, if_pos hnesting]

end WordPacking.Json
