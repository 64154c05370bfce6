/-
# Packing the same slots into wider words

Slots that are packed into wider words open a word at other places, so the two packings do not go
step by step.  What is kept is that the one with wider words stays ahead: it has opened fewer
words, or as many words and its open word has at least as much room.  When it loses its lead of a
word, it does so by opening one, and a new word has at least as much room as any narrower word.
-/
import Mathlib.Tactic.Common
import WordPacking.Plan

namespace WordPacking.Layout

/-- One packing of some slots is ahead of another one, given the words that each has opened and
the room that is left in its open word. -/
def Ahead (words room words' room' : Nat) : Prop := words < words' ∨ words = words' ∧ room' ≤ room

/-- A packing into wider words that is ahead ends with no more words. -/
lemma add_wordsOpened_le_of_ahead {wordBits wordBits' words words' room room' : Nat}
    {widths : List Nat} (hle : wordBits ≤ wordBits') (hroom : room ≤ wordBits)
    (hahead : Ahead words' room' words room) :
    words' + wordsOpened wordBits' room' widths ≤ words + wordsOpened wordBits room widths := by
  induction widths generalizing words words' room room' with
  | nil =>
    simp only [wordsOpened]
    rcases hahead with hlt | ⟨heq, -⟩ <;> omega
  | cons width widths ih =>
    have hfresh : wordBits - width ≤ wordBits := Nat.sub_le _ _
    have hrest : room - width ≤ wordBits := by omega
    unfold Ahead at hahead
    rw [wordsOpened, wordsOpened]
    split
    · split
      · have hahead' : Ahead words' (room' - width) words (room - width) := by
          unfold Ahead
          omega
        exact ih hrest hahead'
      · -- only the narrower packing opens a word, and falls behind
        have hahead' : Ahead words' (room' - width) (words + 1) (wordBits - width) := by
          unfold Ahead
          omega
        have := ih hfresh hahead'
        omega
    · split
      · -- the slot went into the narrower word only, so the other packing was ahead by a word
        have hahead' : Ahead (words' + 1) (wordBits' - width) words (room - width) := by
          unfold Ahead
          omega
        have := ih hrest hahead'
        omega
      · have hahead' : Ahead (words' + 1) (wordBits' - width) (words + 1) (wordBits - width) := by
          unfold Ahead
          omega
        have := ih hfresh hahead'
        omega

/-- Wider words are never more words. -/
theorem packedSize_le_of_le (widths : List Nat) {wordBits wordBits' : Nat}
    (hle : wordBits ≤ wordBits') :
    (⟨widths, wordBits'⟩ : Layout).packedSize ≤ (⟨widths, wordBits⟩ : Layout).packedSize := by
  have hahead : Ahead 0 0 0 0 := Or.inr ⟨rfl, Nat.le_refl 0⟩
  have hwords : 0 + wordsOpened wordBits' 0 widths ≤ 0 + wordsOpened wordBits 0 widths :=
    add_wordsOpened_le_of_ahead hle (Nat.zero_le wordBits) hahead
  rwa [Nat.zero_add, Nat.zero_add] at hwords

end WordPacking.Layout
