/-
# Word plans

The slots of a layout are placed into storage words in order, and no slot is split between
two words.  A slot goes next to the slot before it if the word has room for it, and otherwise
opens the next word.  As the order is fixed, there is nothing to choose: the plan of a layout
is a function of the layout.

This file has the plan itself, as the groups of widths that share a word, the places that the
slots get by it, and a count of the words that keeps no plan, only the room left.
-/
import WordPacking.Layout

namespace WordPacking

/-- The place of one slot. -/
structure Slot where
  /-- The index of the word that holds the slot. -/
  word : Nat
  /-- The lowest bit of the slot inside its word. -/
  offset : Nat
  /-- The width of the slot. -/
  width : Nat
deriving DecidableEq, Repr

/-- A placement of slots into words. -/
structure Plan where
  /-- The widths of the slots of each word, from the lowest bit up. -/
  words : List (List Nat)
  /-- The size of one storage word, in bits. -/
  wordBits : Nat
deriving DecidableEq, Repr

namespace Plan

/-- Splits widths into those that still go into the open word, of which `used` bits are taken,
and the groups of the words after it. -/
def cut (wordBits used : Nat) : List Nat → List Nat × List (List Nat)
  | [] => ([], [])
  | width :: widths =>
    if used + width ≤ wordBits then
      let rest := cut wordBits (used + width) widths
      (width :: rest.1, rest.2)
    else
      let rest := cut wordBits width widths
      ([], (width :: rest.1) :: rest.2)

/-- The widths grouped by word.  The first width opens the first word. -/
def groups (wordBits : Nat) : List Nat → List (List Nat)
  | [] => []
  | width :: widths =>
    let rest := cut wordBits width widths
    (width :: rest.1) :: rest.2

/-- The number of words. -/
def wordCount (p : Plan) : Nat := p.words.length

/-- The bits taken in a word; none past the last word. -/
def usedBits (p : Plan) (word : Nat) : Option Nat := p.words[word]?.map total

/-- The bits that stay free in all words together. -/
def paddingBits (p : Plan) : Nat := total (p.words.map fun group => p.wordBits - total group)

/-- The places of slots that lie side by side in one word from a given bit on. -/
def slotsInWord (word offset : Nat) : List Nat → List Slot
  | [] => []
  | width :: widths => ⟨word, offset, width⟩ :: slotsInWord word (offset + width) widths

/-- The places of the slots of consecutive words, counted from `word` on. -/
def slotsInWords (word : Nat) : List (List Nat) → List Slot
  | [] => []
  | group :: groups => slotsInWord word 0 group ++ slotsInWords (word + 1) groups

/-- The places of all slots, in the order of the layout. -/
def slots (p : Plan) : List Slot := slotsInWords 0 p.words

/-! ## What the groups are -/

theorem append_flatten_cut (wordBits used : Nat) (widths : List Nat) :
    (cut wordBits used widths).1 ++ (cut wordBits used widths).2.flatten = widths := by
  induction widths generalizing used with
  | nil => rfl
  | cons w widths ih =>
    unfold cut
    split
    · simp [ih]
    · simp [ih]

/-- The groups, one after the other, are the widths. -/
theorem flatten_groups (wordBits : Nat) (widths : List Nat) :
    (groups wordBits widths).flatten = widths := by
  cases widths with
  | nil => rfl
  | cons w widths => simp [groups, append_flatten_cut]

end Plan

namespace Layout

/-- The plan of a layout. -/
def plan (l : Layout) : Plan := ⟨Plan.groups l.wordBits l.widths, l.wordBits⟩

/-- The number of words that widths open when a word with `room` free bits is open. -/
def wordsOpened (wordBits room : Nat) : List Nat → Nat
  | [] => 0
  | width :: widths =>
    if width ≤ room then wordsOpened wordBits (room - width) widths
    else wordsOpened wordBits (wordBits - width) widths + 1

/-- The number of words that a packed record takes.  Before the first slot no word is open, so
there is no room. -/
def packedSize (l : Layout) : Nat := wordsOpened l.wordBits 0 l.widths

/-- The words that are opened while `used` bits of the open word are taken are the groups that
the cut leaves for later words. -/
theorem wordsOpened_eq_length_cut {wordBits used : Nat} {widths : List Nat}
    (hused : used ≤ wordBits) (hw : ∀ w ∈ widths, w ≤ wordBits) :
    wordsOpened wordBits (wordBits - used) widths =
      (Plan.cut wordBits used widths).2.length := by
  induction widths generalizing used with
  | nil => rfl
  | cons w widths ih =>
    have hw' : ∀ x ∈ widths, x ≤ wordBits := fun x hx => hw x (List.mem_cons_of_mem _ hx)
    have hfirst := hw w List.mem_cons_self
    by_cases h : used + w ≤ wordBits
    · have hroom : w ≤ wordBits - used := by omega
      simp only [wordsOpened, Plan.cut, h, hroom, if_true]
      rw [Nat.sub_sub, ih h hw']
    · have hroom : ¬ w ≤ wordBits - used := by omega
      simp only [wordsOpened, Plan.cut, h, hroom, if_false]
      rw [ih hfirst hw']
      rfl

/-- The count of the words and the plan agree. -/
theorem packedSize_eq_wordCount {l : Layout} (h : l.Valid) :
    l.packedSize = l.plan.wordCount := by
  rcases l with ⟨widths, wordBits⟩
  cases widths with
  | nil => rfl
  | cons w widths =>
    have hw := h w List.mem_cons_self
    have hpos : ¬ w ≤ 0 := by omega
    simp only [packedSize, wordsOpened, hpos, if_false, plan, Plan.wordCount, Plan.groups,
      List.length_cons]
    rw [wordsOpened_eq_length_cut hw.2 fun x hx => (h x (List.mem_cons_of_mem _ hx)).2]

@[simp] theorem wordBits_plan (l : Layout) : l.plan.wordBits = l.wordBits := rfl

/-- The words of a plan hold the slots of the layout in order. -/
theorem flatten_words_plan (l : Layout) : l.plan.words.flatten = l.widths :=
  Plan.flatten_groups l.wordBits l.widths

end Layout

end WordPacking
