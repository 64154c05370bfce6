/-
# No packing in order takes fewer words

A slot opens a word only if the open one has no room for it.  How many words some slots open
depends on what comes before them through one number only, the room that is left there
(`wordsOpened_append`).  Slots that go into one word together open at most one word, no matter how
much room there is: once a word is open for one of them, the others follow.

So if the slots of a layout are cut, in order, into groups that go into one word each, then every
group opens at most one word, and there are no more words than groups.
-/
import Mathlib.Order.Bounds.Defs
import Mathlib.Tactic.Common
import WordPacking.Proofs.Plan.Greedy

namespace WordPacking.Layout

variable {wordBits room : Nat}

/-! ## Opening words, part by part -/

/-- The room that is left in the open word behind some widths, if there was `room` before them. -/
def roomAfter (wordBits room : Nat) : List Nat → Nat
  | [] => room
  | width :: widths =>
    if width ≤ room then roomAfter wordBits (room - width) widths
    else roomAfter wordBits (wordBits - width) widths

/-- What has been packed before matters by the room that it has left. -/
theorem wordsOpened_append (a b : List Nat) :
    wordsOpened wordBits room (a ++ b) =
      wordsOpened wordBits room a + wordsOpened wordBits (roomAfter wordBits room a) b := by
  induction a generalizing room with
  | nil => simp [wordsOpened, roomAfter]
  | cons width a ih =>
    rw [List.cons_append, wordsOpened, wordsOpened, roomAfter]
    split
    · exact ih
    · rw [ih]
      omega

/-! ## Slots that go into one word -/

lemma wordsOpened_eq_zero {group : List Nat} (hgroup : total group ≤ room) :
    wordsOpened wordBits room group = 0 := by
  induction group generalizing room with
  | nil => rfl
  | cons width group ih =>
    rw [total_cons] at hgroup
    have hwidth : width ≤ room := by omega
    rw [wordsOpened, if_pos hwidth]
    exact ih (by omega)

lemma wordsOpened_le_one {group : List Nat} (hgroup : total group ≤ wordBits) :
    wordsOpened wordBits room group ≤ 1 := by
  induction group generalizing room with
  | nil => exact Nat.zero_le 1
  | cons width group ih =>
    rw [total_cons] at hgroup
    rw [wordsOpened]
    split
    · exact ih (by omega)
    · have hrest : wordsOpened wordBits (wordBits - width) group = 0 :=
        wordsOpened_eq_zero (by omega)
      rw [hrest]

lemma wordsOpened_flatten_le {groups : List (List Nat)}
    (hgroups : ∀ group ∈ groups, total group ≤ wordBits) :
    wordsOpened wordBits room groups.flatten ≤ groups.length := by
  induction groups generalizing room with
  | nil => exact Nat.le_refl 0
  | cons group groups ih =>
    obtain ⟨hgroup, hgroups⟩ := List.forall_mem_cons.mp hgroups
    have hfirst : wordsOpened wordBits room group ≤ 1 := wordsOpened_le_one hgroup
    have hrest : wordsOpened wordBits (roomAfter wordBits room group) groups.flatten ≤
        groups.length := ih hgroups
    rw [List.flatten_cons, wordsOpened_append, List.length_cons]
    omega

/-- **The number of words is the least one.**  There is a way to cut the slots of a layout, in
order, into as many groups as the packed layout has words, such that each group goes into one word;
and every way to cut them has at least as many groups, also when groups may be empty. -/
theorem packedSize_isLeast {widths : List Nat} {wordBits : Nat} {l : Layout}
    (hl : ofWidths widths wordBits = .ok l) :
    IsLeast {n | ∃ groups : List (List Nat), groups.flatten = widths ∧
      (∀ group ∈ groups, total group ≤ wordBits) ∧ groups.length = n} l.packedSize := by
  obtain ⟨rfl, hvalid⟩ := ofWidths_eq_ok_iff.mp hl
  constructor
  · -- the groups of the plan are one way to cut them
    exact ⟨_, flatten_words_plan _,
      fun group hgroup => (Plan.total_le_of_mem_words hvalid hgroup).2,
      (packedSize_eq_wordCount hvalid).symm⟩
  · rintro n ⟨groups, hflatten, hgroups, rfl⟩
    have hwords : wordsOpened wordBits 0 groups.flatten ≤ groups.length :=
      wordsOpened_flatten_le hgroups
    rwa [hflatten] at hwords

/-- The slots take three words in this order, although two words have as many bits. -/
theorem three_words_in_order :
    ofWidths [40, 40, 24, 24] 64 = .ok ⟨[40, 40, 24, 24], 64⟩ ∧
      IsLeast {n | ∃ groups : List (List Nat), groups.flatten = [40, 40, 24, 24] ∧
        (∀ group ∈ groups, total group ≤ 64) ∧ groups.length = n} 3 := by
  have hl : ofWidths [40, 40, 24, 24] 64 = .ok ⟨[40, 40, 24, 24], 64⟩ := by decide
  exact ⟨hl, packedSize_isLeast hl⟩

/-- In another order the same slots fill two words. -/
example : (⟨[40, 24, 40, 24], 64⟩ : Layout).packedSize = 2 := rfl

end WordPacking.Layout
