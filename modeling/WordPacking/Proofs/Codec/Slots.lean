/-
# Packing slot by slot

The codec joins and splits whole words.  Seen from the slots, packing starts with words that are
zero and puts each value into the word and at the offset that the plan gives its slot, and
unpacking takes each value out of there again.  This file proves that it comes to the same: the
slots of a group lie side by side from bit zero up, and the words are numbered as they are
opened.
-/
import WordPacking.Proofs.Codec.Rows

namespace WordPacking

namespace Plan

@[simp] lemma length_slotsInWord (word offset : Nat) (widths : List Nat) :
    (slotsInWord word offset widths).length = widths.length := by
  induction widths generalizing offset with
  | nil => rfl
  | cons width widths ih => simp [slotsInWord, ih]

lemma zip_slotsInWords_cons {word : Nat} {group : List Nat} {groups : List (List Nat)}
    {values : List Nat} (h : group.length ≤ values.length) :
    (slotsInWords word (group :: groups)).zip values =
      (slotsInWord word 0 group).zip (values.take group.length) ++
        (slotsInWords (word + 1) groups).zip (values.drop group.length) := by
  have hgroup : (slotsInWord word 0 group).length = (values.take group.length).length := by
    rw [length_slotsInWord, List.length_take]
    omega
  rw [← List.zip_append hgroup, List.take_append_drop, slotsInWords]

end Plan

namespace Codec

/-- Puts a value into the word of its slot with a bitwise or. -/
def orInto (words : List Nat) (entry : Slot × Nat) : List Nat :=
  words.modify entry.1.word fun word => word ||| entry.2 <<< entry.1.offset

/-- The words of a plan after all values have been put into words that were zero. -/
def orWords (p : Plan) (values : List Nat) : List Nat :=
  (p.slots.zip values).foldl orInto (List.replicate p.wordCount 0)

/-- The value of a slot, taken out of its word with a shift and a mask. -/
def readSlot (words : List Nat) (s : Slot) : Nat :=
  (words.getD s.word 0 >>> s.offset) &&& lowMask s.width

/-! ## Writing -/

/-- The values of one group come into one word, above the bits that it has already. -/
lemma foldl_orInto_slotsInWord (before after widths values : List Nat) (word offset : Nat) :
    ((Plan.slotsInWord before.length offset widths).zip values).foldl orInto
        (before ++ word :: after) =
      before ++ (word ||| joinWord widths values <<< offset) :: after := by
  induction widths generalizing values word offset with
  | nil => simp [Plan.slotsInWord, joinWord]
  | cons width widths ih =>
    cases values with
    | nil => simp [joinWord]
    | cons value values =>
      have hinto : orInto (before ++ word :: after) (⟨before.length, offset, width⟩, value) =
          before ++ (word ||| value <<< offset) :: after := by
        simp [orInto, List.modify_eq_take_drop]
      rw [Plan.slotsInWord, List.zip_cons_cons, List.foldl_cons, hinto, ih, joinWord,
        Nat.shiftLeft_or_distrib, ← Nat.shiftLeft_add, Nat.or_assoc, Nat.add_comm offset]

lemma foldl_orInto_slotsInWords {groups : List (List Nat)} {values : List Nat}
    (h : values.length = groups.flatten.length) (before : List Nat) :
    ((Plan.slotsInWords before.length groups).zip values).foldl orInto
        (before ++ List.replicate groups.length 0) =
      before ++ joinWords groups values := by
  induction groups generalizing values before with
  | nil => simp [Plan.slotsInWords, joinWords]
  | cons group groups ih =>
    rw [List.flatten_cons, List.length_append] at h
    have hgroup : group.length ≤ values.length := by omega
    have hrest : (values.drop group.length).length = groups.flatten.length := by
      rw [List.length_drop]
      omega
    -- the next word is opened behind the one that is now complete
    have hwords := ih hrest (before ++ [joinWord group (values.take group.length)])
    rw [List.length_append, List.length_singleton] at hwords
    rw [Plan.zip_slotsInWords_cons hgroup, List.foldl_append, List.length_cons,
      List.replicate_succ, foldl_orInto_slotsInWord]
    simpa [joinWords] using hwords

/-! ## Reading -/

lemma map_readSlot_slotsInWord (before after widths : List Nat) (word offset : Nat) :
    (Plan.slotsInWord before.length offset widths).map (readSlot (before ++ word :: after)) =
      splitWord widths (word >>> offset) := by
  induction widths generalizing offset with
  | nil => rfl
  | cons width widths ih =>
    have hread : readSlot (before ++ word :: after) ⟨before.length, offset, width⟩ =
        word >>> offset &&& lowMask width := by
      simp [readSlot]
    rw [Plan.slotsInWord, List.map_cons, hread, ih, splitWord, ← Nat.shiftRight_add]

lemma map_readSlot_slotsInWords {groups : List (List Nat)} {words : List Nat}
    (h : words.length = groups.length) (before : List Nat) :
    (Plan.slotsInWords before.length groups).map (readSlot (before ++ words)) =
      splitWords groups words := by
  induction groups generalizing words before with
  | nil => simp [Plan.slotsInWords, splitWords]
  | cons group groups ih =>
    cases words with
    | nil => cases h
    | cons word words =>
      have hwords := @ih words (by simpa using h) (before ++ [word])
      rw [List.length_append, List.length_singleton, List.append_assoc, List.singleton_append]
        at hwords
      rw [Plan.slotsInWords, List.map_append, map_readSlot_slotsInWord, hwords, splitWords,
        Nat.shiftRight_zero]

end Codec

namespace Layout

open Codec

variable {l : Layout} {values words : List Nat}

/-- **Packing is a loop of shifts and bitwise ors over the slots of the plan.** -/
theorem pack_eq_ok_iff_orWords :
    l.pack values = .ok words ↔ Fits l.widths values ∧ words = orWords l.plan values := by
  rw [pack_eq_ok_iff]
  refine and_congr_right fun hfits => ?_
  have hlength : values.length = l.plan.words.flatten.length := by
    rw [l.flatten_words_plan, hfits.length_eq]
  have hloop : orWords l.plan values = joinWords l.plan.words values :=
    foldl_orInto_slotsInWords hlength []
  rw [hloop]

/-- **Unpacking is a shift and a mask for each slot of the plan.** -/
theorem unpack_eq_ok_iff_readSlot :
    l.unpack words = .ok values ↔
      Fits (l.plan.words.map total) words ∧ values = l.plan.slots.map (readSlot words) := by
  rw [unpack_eq_ok_iff]
  refine and_congr_right fun hfits => ?_
  have hlength : words.length = l.plan.words.length := by simpa using hfits.length_eq
  have hread : l.plan.slots.map (readSlot words) = splitWords l.plan.words words :=
    map_readSlot_slotsInWords hlength []
  rw [hread]

end Layout

end WordPacking
