/-
# The figures of a report

A report on a model is a text of figures with fixed words between them.  Which figures a text has
does not depend on how they were come by: a text that begins with the name of the model can be read
in one way at most (`LayoutFigures.text_inj`, `PlanFigures.text_inj`).  So when two reports are
compared, it can be said of the texts alone that a number in one of them is a number in the other.

Reading goes from left to right.  The digits of a number end before the first character that is no
digit, so a number is determined together with the text after it if that text does not go on with
digits (`toString_append_inj`).  A list is read item by item, up to a mark that no item begins with
(`join_mapIdx_append_inj`).
-/
import Mathlib.Data.List.TakeWhile
import Mathlib.Tactic.Common
import WordPacking.Report

namespace WordPacking.Report

/-! ## Numbers in a text -/

variable {n n' length : Nat} {s s' t t' : String}

/-- The text is empty, or does not go on with a digit. -/
def DigitsEnd (s : String) : Prop := ∀ c ∈ s.toList.head?, c.isDigit = false

lemma digitsEnd_of_head? {c : Char} (hs : s.toList.head? = some c) (hc : c.isDigit = false) :
    DigitsEnd s := by
  intro c' hc'
  rw [hs, Option.mem_some_iff] at hc'
  exact hc' ▸ hc

lemma digitsEnd_append {c : Char} (hs : s.toList.head? = some c) (hc : c.isDigit = false) :
    DigitsEnd (s ++ t) := by
  refine digitsEnd_of_head? ?_ hc
  rw [String.toList_append, List.head?_append, hs, Option.some_or]

/-- A number is not written without digits. -/
lemma exists_toList_toString (n : Nat) :
    ∃ d ds, (toString n).toList = d :: ds ∧ d.isDigit = true := by
  obtain ⟨d, ds, hdigits⟩ := List.exists_cons_of_ne_nil (@Nat.toDigits_ne_nil n 10)
  refine ⟨d, ds, ?_, Nat.isDigit_of_mem_toDigits (n := n) (b := 10) (by decide) (by decide) ?_⟩
  · rw [Nat.toString_eq_repr, Nat.toList_repr, hdigits]
  · rw [hdigits]
    exact List.mem_cons_self

lemma toString_append_ne (hs : DigitsEnd s) : toString n ++ t ≠ s := by
  rintro rfl
  obtain ⟨d, ds, hdigits, hd⟩ := exists_toList_toString n
  have hhead : (toString n ++ t).toList.head? = some d := by
    rw [String.toList_append, hdigits, List.cons_append, List.head?_cons]
  rw [hs d hhead] at hd
  cases hd

/-- The digits at the front of a text are those of the number that the text begins with. -/
lemma takeWhile_toString_append (n : Nat) (hs : DigitsEnd s) :
    (toString n ++ s).toList.takeWhile Char.isDigit = Nat.toDigits 10 n := by
  have hdigits : ∀ c ∈ Nat.toDigits 10 n, c.isDigit = true := fun c hc =>
    Nat.isDigit_of_mem_toDigits (by decide) (by decide) hc
  have hstop : s.toList.takeWhile Char.isDigit = [] := by
    unfold DigitsEnd at hs
    cases hchars : s.toList with
    | nil => rfl
    | cons c cs =>
      rw [hchars, List.head?_cons] at hs
      rw [List.takeWhile_cons_of_neg (by simp [hs c rfl])]
  rw [String.toList_append, Nat.toString_eq_repr, Nat.toList_repr,
    List.takeWhile_append_of_pos hdigits, hstop, List.append_nil]

/-- A number is read off the text that it begins. -/
lemma toString_append_inj (hs : DigitsEnd s) (hs' : DigitsEnd s')
    (h : toString n ++ s = toString n' ++ s') : n = n' ∧ s = s' := by
  have hdigits : Nat.toDigits 10 n = Nat.toDigits 10 n' := by
    rw [← takeWhile_toString_append n hs, h, takeWhile_toString_append n' hs']
  obtain rfl : n = n' := by
    have hvalue := congrArg (Nat.ofDigitChars 10 · 0) hdigits
    simpa using hvalue
  exact ⟨rfl, (String.append_right_inj _).mp h⟩

/-- A number is read up to a text that is known and begins with no digit. -/
lemma toString_append_append_inj {c : Char} (hs : s.toList.head? = some c)
    (hc : c.isDigit = false) (h : toString n ++ (s ++ t) = toString n' ++ (s ++ t')) :
    n = n' ∧ t = t' := by
  obtain ⟨rfl, hrest⟩ := toString_append_inj (digitsEnd_append hs hc) (digitsEnd_append hs hc) h
  exact ⟨rfl, (String.append_right_inj s).mp hrest⟩

/-- Behind the blanks in front of a number there is the number. -/
lemma dropWhile_padLeft_append (length n : Nat) (s : String) :
    (padLeft length (toString n) ++ s).toList.dropWhile (· = ' ') = (toString n ++ s).toList := by
  have hblanks : ∀ c ∈ List.replicate (length - (toString n).length) ' ',
      decide (c = ' ') = true := fun c hc => decide_eq_true (List.eq_of_mem_replicate hc)
  obtain ⟨d, ds, hdigits, hd⟩ := exists_toList_toString n
  have hblank : ¬ decide (d = ' ') = true := by
    rw [decide_eq_true_eq]
    rintro rfl
    exact absurd hd (by decide)
  rw [padLeft, String.append_assoc, String.toList_append, String.toList_ofList,
    List.dropWhile_append_of_pos hblanks, String.toList_append, hdigits, List.cons_append]
  exact List.dropWhile_cons_of_neg hblank

/-- A number with blanks in front is read like the number. -/
lemma padLeft_append_inj (hs : DigitsEnd s) (hs' : DigitsEnd s')
    (h : padLeft length (toString n) ++ s = padLeft length (toString n') ++ s') :
    n = n' ∧ s = s' := by
  refine toString_append_inj hs hs' (String.toList_inj.mp ?_)
  rw [← dropWhile_padLeft_append length, h, dropWhile_padLeft_append]

/-! ## Lists in a text -/

/-- Texts that begin with different characters somewhere in their first parts are different. -/
lemma append_ne_append (i : Nat) {c c' : Char} (hs : s.toList[i]? = some c)
    (hs' : s'.toList[i]? = some c') (hc : c ≠ c') : s ++ t ≠ s' ++ t' := by
  intro h
  obtain ⟨hi, -⟩ := List.getElem?_eq_some_iff.mp hs
  obtain ⟨hi', -⟩ := List.getElem?_eq_some_iff.mp hs'
  have hchars := congrArg (·.toList[i]?) h
  simp only [String.toList_append, List.getElem?_append_left hi, List.getElem?_append_left hi',
    hs, hs', Option.some.injEq] at hchars
  exact hc hchars

lemma unlines_append (lines lines' : List String) :
    unlines (lines ++ lines') = unlines lines ++ unlines lines' := by
  rw [unlines, List.map_append, String.join_append]
  rfl

lemma unlines_singleton (line : String) : unlines [line] = line ++ "\n" := by
  simp [unlines]

section List

variable {α : Type} {mark : String} {f : Nat → α → String} {as as' : List α}

lemma unlines_mapIdx (f : Nat → α → String) (as : List α) :
    unlines (as.mapIdx f) = String.join (as.mapIdx fun i a => f i a ++ "\n") := by
  rw [unlines]
  refine congrArg String.join (List.ext_getElem (by simp) fun i hi hi' => ?_)
  simp only [List.getElem_map, List.getElem_mapIdx]

lemma digitsEnd_join_append (hitem : ∀ i a s, DigitsEnd (f i a ++ s)) (ht : DigitsEnd t)
    (as : List α) : DigitsEnd (String.join (as.mapIdx f) ++ t) := by
  cases as with
  | nil => simpa using ht
  | cons a as =>
    rw [List.mapIdx_cons, String.join_cons, String.append_assoc]
    exact hitem 0 a _

/-- A list whose items stand one after the other, up to a mark, is read off the text that it
begins, if an item is read off the text that it begins and none begins like the mark. -/
lemma join_mapIdx_append_inj
    (hread : ∀ i a a' s s', DigitsEnd s → DigitsEnd s' → f i a ++ s = f i a' ++ s' →
      a = a' ∧ s = s')
    (hitem : ∀ i a s, DigitsEnd (f i a ++ s)) (hmark : ∀ s, DigitsEnd (mark ++ s))
    (hne : ∀ i a s s', f i a ++ s ≠ mark ++ s')
    (h : String.join (as.mapIdx f) ++ (mark ++ s) = String.join (as'.mapIdx f) ++ (mark ++ s')) :
    as = as' ∧ s = s' := by
  induction as generalizing as' f with
  | nil =>
    cases as' with
    | nil => simpa using h
    | cons a' as' =>
      rw [List.mapIdx_cons, String.join_cons, String.append_assoc, List.mapIdx_nil,
        String.join_nil, String.empty_append] at h
      exact absurd h.symm (hne 0 a' _ _)
  | cons a as ih =>
    rw [List.mapIdx_cons, String.join_cons, String.append_assoc] at h
    cases as' with
    | nil =>
      rw [List.mapIdx_nil, String.join_nil, String.empty_append] at h
      exact absurd h (hne 0 a _ _)
    | cons a' as' =>
      rw [List.mapIdx_cons, String.join_cons, String.append_assoc] at h
      have hrest := fun as t => digitsEnd_join_append (fun i => hitem (i + 1)) (hmark t) as
      obtain ⟨rfl, htail⟩ := hread 0 a a' _ _ (hrest as s) (hrest as' s') h
      obtain ⟨rfl, hs⟩ := ih (fun i => hread (i + 1)) (fun i => hitem (i + 1))
        (fun i => hne (i + 1)) htail
      exact ⟨rfl, hs⟩

end List

/-- The text of a width that is not the first one. -/
def laterWidth (_ width : Nat) : String := ", " ++ toString width

lemma digitsEnd_laterWidth_append (i width : Nat) (s : String) :
    DigitsEnd (laterWidth i width ++ s) := by
  rw [laterWidth, String.append_assoc]
  exact digitsEnd_append rfl (by decide)

lemma widthsText_cons (width : Nat) (widths : List Nat) :
    widthsText (width :: widths) = toString width ++ String.join (widths.mapIdx laterWidth) := by
  induction widths generalizing width with
  | nil => simp [widthsText]
  | cons next widths ih =>
    have hnext : widthsText (width :: next :: widths) =
        toString width ++ ", " ++ widthsText (next :: widths) :=
      String.intercalate_cons_cons
    rw [hnext, ih, List.mapIdx_cons, String.join_cons, laterWidth, String.append_assoc,
      String.append_assoc]
    rfl

/-- Widths are read up to the bracket behind them. -/
lemma widthsText_append_inj {widths widths' : List Nat}
    (h : widthsText widths ++ ("]" ++ s) = widthsText widths' ++ ("]" ++ s')) :
    widths = widths' ∧ s = s' := by
  have hbracket : ∀ t : String, DigitsEnd ("]" ++ t) := fun t => digitsEnd_append rfl (by decide)
  have hnone : widthsText [] = "" := rfl
  cases widths with
  | nil =>
    cases widths' with
    | nil => exact ⟨rfl, by simpa using h⟩
    | cons w' ws' =>
      rw [hnone, String.empty_append, widthsText_cons, String.append_assoc] at h
      exact absurd h.symm (toString_append_ne (hbracket s))
  | cons w ws =>
    rw [widthsText_cons, String.append_assoc] at h
    cases widths' with
    | nil =>
      rw [hnone, String.empty_append] at h
      exact absurd h (toString_append_ne (hbracket s'))
    | cons w' ws' =>
      rw [widthsText_cons, String.append_assoc] at h
      have hlater := fun ws t => digitsEnd_join_append digitsEnd_laterWidth_append (hbracket t) ws
      obtain ⟨rfl, htail⟩ := toString_append_inj (hlater ws s) (hlater ws' s') h
      have hread : ∀ i a a' t t', DigitsEnd t → DigitsEnd t' →
          laterWidth i a ++ t = laterWidth i a' ++ t' → a = a' ∧ t = t' := by
        intro i a a' t t' ht ht' heq
        simp only [laterWidth, String.append_assoc, String.append_right_inj] at heq
        exact toString_append_inj ht ht' heq
      have hne : ∀ i a t t', laterWidth i a ++ t ≠ "]" ++ t' := by
        intro i a t t'
        rw [laterWidth, String.append_assoc]
        exact append_ne_append 0 rfl rfl (by decide)
      obtain ⟨rfl, hs⟩ := join_mapIdx_append_inj hread digitsEnd_laterWidth_append hbracket hne
        htail
      exact ⟨rfl, hs⟩

/-! ## The report on a layout -/

/-- What a report says about the layout of a model. -/
structure LayoutFigures where
  /-- The width of each slot. -/
  widths : List Nat
  /-- The number of slots. -/
  slots : Nat
  /-- The number of slots of the key. -/
  keySlots : Nat
  /-- The number of the other slots. -/
  valueSlots : Nat
  /-- The number of words of a packed record. -/
  words : Nat
deriving DecidableEq, Repr

namespace LayoutFigures

/-- The report with these figures on a model of a given name. -/
def text (name : String) (f : LayoutFigures) : String :=
  unlines [name,
    "  layout:        [" ++ widthsText f.widths ++ "]",
    "  unpacked size: " ++ toString f.slots ++ " (" ++ toString f.keySlots ++ " key, " ++
      toString f.valueSlots ++ " value)",
    "  packed size:   " ++ toString f.words]

/-- The figures of a report can be read off its text. -/
theorem text_inj {name : String} {f f' : LayoutFigures} (h : f.text name = f'.text name) :
    f = f' := by
  simp only [text, unlines, List.map_cons, List.map_nil, String.join_cons, String.join_nil,
    String.append_assoc, String.append_right_inj] at h
  obtain ⟨hwidths, h⟩ := widthsText_append_inj h
  rw [String.append_right_inj, String.append_right_inj] at h
  obtain ⟨hslots, h⟩ := toString_append_append_inj rfl (by decide) h
  obtain ⟨hkeys, h⟩ := toString_append_append_inj rfl (by decide) h
  obtain ⟨hvalues, h⟩ := toString_append_append_inj rfl (by decide) h
  rw [String.append_right_inj, String.append_right_inj] at h
  obtain ⟨hwords, -⟩ := toString_append_append_inj rfl (by decide) h
  cases f
  cases f'
  simp_all

end LayoutFigures

/-! ## The report on a plan -/

/-- What a report says about one word. -/
structure WordFigures where
  /-- The number of bits that are taken. -/
  used : Nat
  /-- The width of each slot in the word. -/
  widths : List Nat
deriving DecidableEq, Repr

/-- The line with these figures on the word of a given index. -/
def WordFigures.line (wordBits index : Nat) (f : WordFigures) : String :=
  "  word " ++ padRight 3 (toString index) ++ " " ++ padLeft 3 (toString f.used) ++ "/" ++
    toString wordBits ++ "  [" ++ widthsText f.widths ++ "]"

/-- What a report says about the words of a model. -/
structure PlanFigures where
  /-- The number of slots. -/
  slots : Nat
  /-- The number of words. -/
  wordCount : Nat
  /-- The size of one word, in bits. -/
  wordBits : Nat
  /-- The words, of which each has a line. -/
  words : List WordFigures
  /-- The number of bits that are left free. -/
  padding : Nat
deriving DecidableEq, Repr

namespace PlanFigures

/-- The report with these figures on a model of a given name. -/
def text (name : String) (f : PlanFigures) : String :=
  unlines ([name ++ ": " ++ toString f.slots ++ " slots in " ++ toString f.wordCount ++
      " words of " ++ toString f.wordBits ++ " bits"] ++
    f.words.mapIdx (WordFigures.line f.wordBits) ++
    ["  padding: " ++ toString f.padding ++ " bits"])

/-- A line of the report begins with blanks. -/
lemma digitsEnd_line_append (wordBits index : Nat) (f : WordFigures) (s : String) :
    DigitsEnd (f.line wordBits index ++ "\n" ++ s) := by
  simp only [WordFigures.line, String.append_assoc]
  exact digitsEnd_append rfl (by decide)

/-- The figures of a word are read off its line, of which the index of the word is known. -/
lemma line_append_inj {wordBits index : Nat} {f f' : WordFigures}
    (h : f.line wordBits index ++ "\n" ++ s = f'.line wordBits index ++ "\n" ++ s') :
    f = f' ∧ s = s' := by
  simp only [WordFigures.line, String.append_assoc, String.append_right_inj] at h
  obtain ⟨hused, h⟩ := padLeft_append_inj (digitsEnd_append rfl (by decide))
    (digitsEnd_append rfl (by decide)) h
  simp only [String.append_right_inj] at h
  obtain ⟨hwidths, h⟩ := widthsText_append_inj h
  rw [String.append_right_inj] at h
  cases f
  cases f'
  simp_all

/-- The line of a word is no line on the padding. -/
lemma line_append_ne (wordBits index : Nat) (f : WordFigures) (s s' : String) :
    f.line wordBits index ++ "\n" ++ s ≠ "  padding: " ++ s' := by
  simp only [WordFigures.line, String.append_assoc]
  exact append_ne_append 2 rfl rfl (by decide)

/-- The figures of a report can be read off its text. -/
theorem text_inj {name : String} {f f' : PlanFigures} (h : f.text name = f'.text name) :
    f = f' := by
  simp only [text, unlines_append, unlines_singleton, unlines_mapIdx, String.append_assoc,
    String.append_right_inj] at h
  obtain ⟨hslots, h⟩ := toString_append_append_inj rfl (by decide) h
  obtain ⟨hcount, h⟩ := toString_append_append_inj rfl (by decide) h
  obtain ⟨hbits, h⟩ := toString_append_append_inj rfl (by decide) h
  rw [hbits, String.append_right_inj] at h
  have hmark : ∀ s, DigitsEnd ("  padding: " ++ s) := fun s => digitsEnd_append rfl (by decide)
  obtain ⟨hwords, h⟩ :=
    join_mapIdx_append_inj (f := fun i a => WordFigures.line f'.wordBits i a ++ "\n")
      (fun _ _ _ _ _ _ _ heq => line_append_inj heq) (digitsEnd_line_append f'.wordBits) hmark
      (line_append_ne f'.wordBits) h
  obtain ⟨hpadding, -⟩ := toString_append_append_inj rfl (by decide) h
  cases f
  cases f'
  simp_all

end PlanFigures

end WordPacking.Report
