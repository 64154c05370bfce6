/-
# When packing and unpacking succeed

Packing looks for a value that does not fit its slot and unpacking for a word with a bit outside
its slots.  Where there is none, the rows of words are joined and split, and the facts about one
word hold of rows of words, word by word.
-/
import WordPacking.Codec
import WordPacking.Proofs.Codec.Word

namespace WordPacking

namespace Codec

/-! ## Joining and splitting rows of words -/

@[simp] theorem length_joinWords (groups : List (List Nat)) (values : List Nat) :
    (joinWords groups values).length = groups.length := by
  induction groups generalizing values with
  | nil => rfl
  | cons group groups ih => simp [joinWords, ih]

/-- Values that fit their slots make words without a bit outside the slots. -/
theorem fits_joinWords {groups : List (List Nat)} {values : List Nat}
    (h : Fits groups.flatten values) : Fits (groups.map total) (joinWords groups values) := by
  induction groups generalizing values with
  | nil => trivial
  | cons group groups ih =>
    obtain ⟨hgroup, hrest⟩ := fits_append.mp h
    exact ⟨joinWord_lt hgroup, ih hrest⟩

/-- What words are taken apart into fits the slots. -/
theorem fits_splitWords {groups : List (List Nat)} {words : List Nat}
    (h : words.length = groups.length) : Fits groups.flatten (splitWords groups words) := by
  induction groups generalizing words with
  | nil => cases words with
    | nil => trivial
    | cons word words => cases h
  | cons group groups ih => cases words with
    | nil => cases h
    | cons word words =>
      have hlength := length_splitWord group word
      rw [List.flatten_cons, fits_append, splitWords, ← hlength, List.take_left', List.drop_left']
      · rw [hlength] at *
        exact ⟨fits_splitWord group word, ih (by simpa using h)⟩
      · rfl
      · rfl

/-- Values that fit are recovered from their words. -/
theorem splitWords_joinWords {groups : List (List Nat)} {values : List Nat}
    (h : Fits groups.flatten values) : splitWords groups (joinWords groups values) = values := by
  induction groups generalizing values with
  | nil => cases values with
    | nil => rfl
    | cons value values => exact h.elim
  | cons group groups ih =>
    obtain ⟨hgroup, hrest⟩ := fits_append.mp h
    rw [joinWords, splitWords, splitWord_joinWord hgroup, ih hrest, List.take_append_drop]

/-- Words without a bit outside their slots are recovered from their values. -/
theorem joinWords_splitWords {groups : List (List Nat)} {words : List Nat}
    (h : Fits (groups.map total) words) :
    joinWords groups (splitWords groups words) = words := by
  induction groups generalizing words with
  | nil => cases words with
    | nil => rfl
    | cons word words => exact h.elim
  | cons group groups ih => cases words with
    | nil => exact h.elim
    | cons word words =>
      obtain ⟨hword, hwords⟩ := h
      have hlength := length_splitWord group word
      rw [splitWords, joinWords, List.take_left' hlength, List.drop_left' hlength,
        joinWord_splitWord hword, ih hwords]

/-! ## When nothing is refused -/

theorem firstOverflow_eq_none_iff {slot : Nat} {widths values : List Nat}
    (h : values.length = widths.length) :
    firstOverflow slot widths values = none ↔ Fits widths values := by
  induction widths generalizing slot values with
  | nil => cases values with
    | nil => simp [firstOverflow, Fits]
    | cons value values => cases h
  | cons width widths ih => cases values with
    | nil => cases h
    | cons value values =>
      have hrest : values.length = widths.length := by simpa using h
      have hfits := Scalar.bitLength_le_iff (n := value) (k := width)
      rw [firstOverflow]
      split
      · next hover =>
        have : ¬ value < 2 ^ width := by omega
        simp [Fits, this]
      · next hover =>
        have : value < 2 ^ width := by omega
        rw [ih hrest]
        simp [Fits, this]

/-- What is found to be wrong with a value of a slot, said of a word. -/
def strayOf : CodecError → CodecError
  | .valueOverflow slot _ _ => .strayBits slot
  | e => e

/-- A word with a bit outside its slots is too large for a slot of all their bits. -/
lemma firstStray_eq (index : Nat) (groups : List (List Nat)) (words : List Nat) :
    firstStray index groups words = (firstOverflow index (groups.map total) words).map strayOf := by
  induction groups generalizing index words with
  | nil => cases words <;> rfl
  | cons group groups ih =>
    cases words with
    | nil => rfl
    | cons word words =>
      rw [firstStray, List.map_cons, firstOverflow]
      split
      · rfl
      · exact ih (index + 1) words

theorem firstStray_eq_none_iff {index : Nat} {groups : List (List Nat)} {words : List Nat}
    (h : words.length = groups.length) :
    firstStray index groups words = none ↔ Fits (groups.map total) words := by
  have hlength : words.length = (groups.map total).length := by rw [h, List.length_map]
  rw [firstStray_eq, Option.map_eq_none_iff, firstOverflow_eq_none_iff hlength]

end Codec

namespace Layout

/-- Values can be packed exactly when there is one for each slot and each fits its slot. -/
theorem pack_eq_ok_iff {l : Layout} {values words : List Nat} :
    l.pack values = .ok words ↔
      Codec.Fits l.widths values ∧ words = Codec.joinWords l.plan.words values := by
  unfold pack
  constructor
  · intro h
    split at h
    · cases h
    · next hlength =>
      have hlength : values.length = l.widths.length := Decidable.not_not.mp hlength
      split at h
      · cases h
      · next hnone =>
        cases h
        exact ⟨(Codec.firstOverflow_eq_none_iff hlength).mp hnone, rfl⟩
  · rintro ⟨hfits, rfl⟩
    have hlength := hfits.length_eq
    have hsize : ¬ values.length ≠ l.size := not_not_intro hlength
    rw [if_neg hsize, (Codec.firstOverflow_eq_none_iff hlength).mpr hfits]

/-- Words can be unpacked exactly when there are as many as the plan has and none has a bit
outside its slots. -/
theorem unpack_eq_ok_iff {l : Layout} {words values : List Nat} :
    l.unpack words = .ok values ↔
      Codec.Fits (l.plan.words.map total) words ∧
        values = Codec.splitWords l.plan.words words := by
  unfold unpack
  constructor
  · intro h
    split at h
    · cases h
    · next hlength =>
      have hlength : words.length = l.plan.words.length := Decidable.not_not.mp hlength
      split at h
      · cases h
      · next hnone =>
        cases h
        exact ⟨(Codec.firstStray_eq_none_iff hlength).mp hnone, rfl⟩
  · rintro ⟨hfits, rfl⟩
    have hlength : words.length = l.plan.words.length := by simpa using hfits.length_eq
    have hcount : ¬ words.length ≠ l.plan.wordCount := not_not_intro hlength
    rw [if_neg hcount, (Codec.firstStray_eq_none_iff hlength).mpr hfits]

end Layout

end WordPacking
