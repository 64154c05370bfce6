/-
# Counting words in a loop

To count the words of a packed record a machine needs no plan.  It goes through the widths once and
keeps two numbers, the words opened so far and the room that is left in the last of them.  A width
opens a word if none is open yet, or if the room is too small for it, and is then taken off the
room.

The loop is written with a check of this one subtraction.  It has a value only if no width is ever
larger than the room that it is taken off.  From an open word on, the loop goes in step with the
words that the widths open (`foldlM_step?`); the first width opens a word for one reason or the
other.  So for the widths of a layout it counts the words of the packed layout (`count?_eq`).
-/
import WordPacking.Proofs.Layout.FewestWords
import WordPacking.Proofs.Plan.Loop

namespace WordPacking.Plan

structure Counting where
  /-- The words opened so far. -/
  words : Nat
  /-- The bits that are left in the last word. -/
  room : Nat

namespace Counting

/-- Opens a word for a width, unless the last one has room for it. -/
def openFor (wordBits : Nat) (c : Counting) (width : Nat) : Counting :=
  if c.words = 0 ∨ c.room < width then ⟨c.words + 1, wordBits⟩ else c

/-- One turn of the loop. -/
def step? (wordBits : Nat) (c : Counting) (width : Nat) : Option Counting := do
  let room ← minus? (c.openFor wordBits width).room width
  return { c.openFor wordBits width with room }

end Counting

def count? (wordBits : Nat) (widths : List Nat) : Option Counting :=
  widths.foldlM (Counting.step? wordBits) ⟨0, 0⟩

namespace Counting

variable {wordBits words room width : Nat}

/-! ## What one turn does -/

lemma step?_of_room (hopen : 0 < words) (hroom : width ≤ room) :
    step? wordBits ⟨words, room⟩ width = some ⟨words, room - width⟩ := by
  have hstays : ¬ (words = 0 ∨ room < width) := by omega
  simp [step?, openFor, hstays, minus?_eq_some hroom]

lemma step?_of_no_room (hroom : words = 0 ∨ room < width) (hwidth : width ≤ wordBits) :
    step? wordBits ⟨words, room⟩ width = some ⟨words + 1, wordBits - width⟩ := by
  simp [step?, openFor, hroom, minus?_eq_some hwidth]

/-! ## What the whole loop does -/

/-- Once a word is open, the loop adds the words that the widths open, and keeps the room behind
them. -/
lemma foldlM_step? (hopen : 0 < words) {widths : List Nat} (hwidths : ∀ w ∈ widths, w ≤ wordBits) :
    widths.foldlM (step? wordBits) ⟨words, room⟩ = some
      ⟨words + Layout.wordsOpened wordBits room widths, Layout.roomAfter wordBits room widths⟩ := by
  induction widths generalizing words room with
  | nil => rfl
  | cons width widths ih =>
    obtain ⟨hwidth, hwidths⟩ := List.forall_mem_cons.mp hwidths
    rw [List.foldlM_cons, Layout.wordsOpened, Layout.roomAfter]
    split
    · next hroom =>
      rw [step?_of_room hopen hroom, Option.bind_eq_bind, Option.bind_some, ih hopen hwidths]
    · next hroom =>
      have hfull : words = 0 ∨ room < width := Or.inr (Nat.lt_of_not_le hroom)
      rw [step?_of_no_room hfull hwidth, Option.bind_eq_bind, Option.bind_some,
        ih (Nat.succ_pos words) hwidths, Nat.succ_add_eq_add_succ]

end Counting

/-- For the widths of a layout no subtraction of the loop fails, and it counts the words of the
packed layout. -/
theorem count?_eq {l : Layout} (hl : l.Valid) :
    count? l.wordBits l.widths =
      some ⟨l.packedSize, Layout.roomAfter l.wordBits 0 l.widths⟩ := by
  rcases l with ⟨_ | ⟨width, widths⟩, wordBits⟩
  · rfl
  · obtain ⟨hwidth, hwidths⟩ := List.forall_mem_cons.mp hl
    have hfull : ¬ width ≤ 0 := by omega
    -- no word is open for the first width, which is as good as one without room
    have hfirst : Counting.step? wordBits ⟨0, 0⟩ width = some ⟨0 + 1, wordBits - width⟩ :=
      Counting.step?_of_no_room (Or.inl rfl) hwidth.2
    rw [count?, List.foldlM_cons, hfirst, Option.bind_eq_bind, Option.bind_some,
      Counting.foldlM_step? (Nat.succ_pos 0) (fun w hw => (hwidths w hw).2), Layout.packedSize,
      Layout.wordsOpened, if_neg hfull, Layout.roomAfter, if_neg hfull, Nat.add_comm]

end WordPacking.Plan
