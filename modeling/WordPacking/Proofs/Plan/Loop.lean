/-
# Placing the slots in a loop

A plan is defined by its groups.  A machine has no groups to begin with: it goes through the
widths once, keeps a count of the bits taken in each word, and looks at the last count only.  Its
numbers have 16 bits, its differences are not negative, and its lists end somewhere.  In this file
the loop is written with all of these checks, so that it has a value only if none of them fails.

The invariant is that the counts are those of the words before the open one, followed by that of
the open one, which is at most a word (`foldlM_step?`).  So for the widths of a layout the loop has
a value, and it is the plan (`place?_eq`); the same goes for the free bits and the groups that are
computed from that value.  The slots of a plan are also the only ones that obey the rule
(`greedy_placement`).
-/
import WordPacking.Proofs.Plan.Greedy

namespace WordPacking

namespace Plan

/-! ## The loop -/

/-- A sum, if it has at most 16 bits. -/
def plus? (a b : Nat) : Option Nat := if a + b < UInt16.size then some (a + b) else none

/-- A difference, if it is not negative. -/
def minus? (a b : Nat) : Option Nat := if b ≤ a then some (a - b) else none

/-- The state of the loop. -/
structure Placing where
  /-- The slots placed so far. -/
  slots : List Slot
  /-- The bits taken in each word opened so far. -/
  used : List Nat

namespace Placing

/-- Whether the last word has room for a width.  If no word is open, there is no room. -/
def fits? (p : Placing) (wordBits width : Nat) : Option Bool :=
  match p.used.getLast? with
  | none => some false
  | some bits => (minus? wordBits bits).map fun room => width ≤ room

/-- Places a width in the last word. -/
def put? (p : Placing) (width : Nat) : Option Placing := do
  let last ← minus? p.used.length 1
  let bits ← p.used[last]?
  let sum ← plus? bits width
  return ⟨p.slots ++ [⟨last, bits, width⟩], p.used.set last sum⟩

/-- Places a width at the start of a new word. -/
def openWord (p : Placing) (width : Nat) : Placing :=
  ⟨p.slots ++ [⟨p.used.length, 0, width⟩], p.used ++ [width]⟩

/-- One turn of the loop. -/
def step? (wordBits : Nat) (p : Placing) (width : Nat) : Option Placing := do
  if ← p.fits? wordBits width then p.put? width else return p.openWord width

/-- The bits that stay free in all words together. -/
def paddingBits? (p : Placing) (wordBits : Nat) : Option Nat :=
  (p.used.mapM (minus? wordBits)).map total

/-- Adds the width of a slot to the group of its word. -/
def addTo? (groups : List (List Nat)) (s : Slot) : Option (List (List Nat)) := do
  let group ← groups[s.word]?
  return groups.set s.word (group ++ [s.width])

/-- The widths of the slots grouped by word, from groups that are empty. -/
def words? (p : Placing) : Option (List (List Nat)) :=
  p.slots.foldlM addTo? (List.replicate p.used.length [])

end Placing

/-- The loop over all widths. -/
def place? (wordBits : Nat) (widths : List Nat) : Option Placing :=
  widths.foldlM (Placing.step? wordBits) ⟨[], []⟩

/-! ## What one turn does -/

lemma plus?_eq_some {a b : Nat} (h : a + b < UInt16.size) : plus? a b = some (a + b) := if_pos h

lemma minus?_eq_some {a b : Nat} (h : b ≤ a) : minus? a b = some (a - b) := if_pos h

namespace Placing

variable {wordBits bits width : Nat} {slots : List Slot} {used : List Nat}

lemma fits?_append (hbits : bits ≤ wordBits) :
    fits? ⟨slots, used ++ [bits]⟩ wordBits width = some (decide (bits + width ≤ wordBits)) := by
  have hroom : width ≤ wordBits - bits ↔ bits + width ≤ wordBits := by omega
  simp [fits?, minus?_eq_some hbits, hroom]

lemma put?_append (hsum : bits + width < UInt16.size) :
    put? ⟨slots, used ++ [bits]⟩ width =
      some ⟨slots ++ [⟨used.length, bits, width⟩], used ++ [bits + width]⟩ := by
  simp [put?, minus?, plus?_eq_some hsum]

lemma step?_of_room (hword : wordBits < UInt16.size) (hroom : bits + width ≤ wordBits) :
    step? wordBits ⟨slots, used ++ [bits]⟩ width =
      some ⟨slots ++ [⟨used.length, bits, width⟩], used ++ [bits + width]⟩ := by
  have hbits : bits ≤ wordBits := by omega
  have hsum : bits + width < UInt16.size := by omega
  rw [step?, fits?_append hbits, put?_append hsum, decide_eq_true hroom]
  rfl

lemma step?_of_no_room (hbits : bits ≤ wordBits) (hroom : ¬ bits + width ≤ wordBits) :
    step? wordBits ⟨slots, used ++ [bits]⟩ width =
      some ⟨slots ++ [⟨used.length + 1, 0, width⟩], used ++ [bits] ++ [width]⟩ := by
  rw [step?, fits?_append hbits, decide_eq_false hroom]
  simp [Placing.openWord]

/-! ## What the whole loop does -/

/-- From a word that is open the loop fills it up as the widths are cut, and has a word for each
group after it. -/
lemma foldlM_step? (hword : wordBits < UInt16.size) {widths : List Nat}
    (hwidths : ∀ w ∈ widths, w ≤ wordBits) (hbits : bits ≤ wordBits) :
    widths.foldlM (step? wordBits) ⟨slots, used ++ [bits]⟩ = some
      ⟨slots ++ slotsInWord used.length bits (cut wordBits bits widths).1 ++
          slotsInWords (used.length + 1) (cut wordBits bits widths).2,
        used ++ [bits + total (cut wordBits bits widths).1] ++
          (cut wordBits bits widths).2.map total⟩ := by
  induction widths generalizing slots used bits with
  | nil => simp [cut, slotsInWord, slotsInWords]
  | cons width widths ih =>
    obtain ⟨hwidth, hwidths⟩ := List.forall_mem_cons.mp hwidths
    rw [List.foldlM_cons]
    by_cases hroom : bits + width ≤ wordBits
    · rw [step?_of_room hword hroom, Option.bind_eq_bind, Option.bind_some, ih hwidths hroom,
        cut, if_pos hroom]
      simp [slotsInWord, Nat.add_assoc]
    · rw [step?_of_no_room hbits hroom, Option.bind_eq_bind, Option.bind_some,
        ih hwidths hwidth, cut, if_neg hroom]
      simp [slotsInWord, slotsInWords]

end Placing

variable {l : Layout}

/-- For the widths of a layout no check of the loop fails, and it finds the plan. -/
theorem place?_eq (hl : l.Valid) (hword : l.wordBits < UInt16.size) :
    place? l.wordBits l.widths = some ⟨l.plan.slots, l.plan.words.map total⟩ := by
  rcases l with ⟨_ | ⟨width, widths⟩, wordBits⟩
  · rfl
  · obtain ⟨hwidth, hwidths⟩ := List.forall_mem_cons.mp hl
    -- the first width finds no word open
    have hfirst : Placing.step? wordBits ⟨[], []⟩ width =
        some ⟨[⟨0, 0, width⟩], [] ++ [width]⟩ := rfl
    rw [place?, List.foldlM_cons, hfirst, Option.bind_eq_bind, Option.bind_some,
      Placing.foldlM_step? hword (fun w hw => (hwidths w hw).2) hwidth.2]
    simp [Layout.plan, groups, Plan.slots, slotsInWord, slotsInWords]

/-! ## What is computed from its value -/

lemma mapM_minus? {wordBits : Nat} {groups : List (List Nat)}
    (hgroups : ∀ group ∈ groups, total group ≤ wordBits) :
    (groups.map total).mapM (minus? wordBits) =
      some (groups.map fun group => wordBits - total group) := by
  induction groups with
  | nil => rfl
  | cons group groups ih =>
    obtain ⟨hgroup, hgroups⟩ := List.forall_mem_cons.mp hgroups
    rw [List.map_cons, List.mapM_cons, minus?_eq_some hgroup, ih hgroups]
    rfl

/-- No word has more bits taken than there are. -/
theorem paddingBits?_eq (hl : l.Valid) :
    Placing.paddingBits? ⟨l.plan.slots, l.plan.words.map total⟩ l.wordBits =
      some l.plan.paddingBits := by
  rw [Placing.paddingBits?, mapM_minus? fun group hgroup => (total_le_of_mem_words hl hgroup).2]
  rfl

namespace Placing

/-- The slots of one word add their widths to its group. -/
lemma foldlM_addTo?_slotsInWord (before after : List (List Nat)) (group : List Nat) (offset : Nat)
    (widths : List Nat) :
    (slotsInWord before.length offset widths).foldlM addTo? (before ++ group :: after) =
      some (before ++ (group ++ widths) :: after) := by
  induction widths generalizing group offset with
  | nil => simp [slotsInWord]
  | cons width widths ih =>
    have hadd : addTo? (before ++ group :: after) ⟨before.length, offset, width⟩ =
        some (before ++ (group ++ [width]) :: after) := by
      simp [addTo?]
    rw [slotsInWord, List.foldlM_cons, hadd, Option.bind_eq_bind, Option.bind_some, ih]
    simp

lemma foldlM_addTo?_slotsInWords (before groups : List (List Nat)) :
    (slotsInWords before.length groups).foldlM addTo?
        (before ++ List.replicate groups.length []) = some (before ++ groups) := by
  induction groups generalizing before with
  | nil => simp [slotsInWords]
  | cons group groups ih =>
    have hrest := ih (before ++ [group])
    rw [List.length_append, List.length_singleton, List.append_assoc, List.singleton_append,
      List.append_assoc, List.singleton_append] at hrest
    rw [slotsInWords, List.foldlM_append, List.length_cons, List.replicate_succ,
      foldlM_addTo?_slotsInWord, List.nil_append, Option.bind_eq_bind, Option.bind_some, hrest]

end Placing

/-- Each slot is in a word that there is. -/
theorem words?_eq (l : Layout) :
    Placing.words? ⟨l.plan.slots, l.plan.words.map total⟩ = some l.plan.words := by
  rw [Placing.words?, List.length_map]
  exact Placing.foldlM_addTo?_slotsInWords [] l.plan.words

/-! ## The plan of a layout -/

lemma used_of_lt_wordCount (hl : l.Valid) {word : Nat} (hword : word < l.plan.wordCount) :
    ∃ used, l.plan.usedBits word = some used ∧ 1 ≤ used ∧ used ≤ l.wordBits ∧
      used = total ((l.plan.slots.filter fun s => s.word = word).map (·.width)) ∧
      ∀ bit, (∃ s ∈ l.plan.slots, s.Covers word bit) ↔ bit < used := by
  obtain ⟨group, hget⟩ : ∃ group, l.plan.words[word]? = some group :=
    ⟨_, List.getElem?_eq_getElem hword⟩
  have hmem : group ∈ l.plan.words := List.mem_of_getElem? hget
  have hslots : (l.plan.slots.filter fun s => s.word = word) = slotsInWord word 0 group := by
    have hfilter := filter_word_slotsInWords 0 word l.plan.words
    rwa [Nat.zero_add, hget] at hfilter
  refine ⟨total group, ?_, total_pos_of_mem_words hl hmem, (total_le_of_mem_words hl hmem).2, ?_,
    fun bit => ?_⟩
  · rw [usedBits, hget]
    rfl
  · rw [hslots, map_width_slotsInWord]
  · have hcovers : (∃ s ∈ l.plan.slots, s.Covers word bit) ↔
        ∃ s ∈ slotsInWord word 0 group, s.Covers word bit := by
      simp only [← hslots, List.mem_filter, decide_eq_true_eq, and_assoc]
      exact exists_congr fun s => and_congr_right fun _ => (and_iff_right_of_imp And.left).symm
    rw [hcovers, exists_covers_slotsInWord_iff]
    omega

lemma usedBits_of_wordCount_le {p : Plan} {word : Nat} (hword : p.wordCount ≤ word) :
    p.usedBits word = none := by
  rw [usedBits, List.getElem?_eq_none hword, Option.map_none]

lemma end_le_of_mem_slots (hl : l.Valid) {s : Slot} (hs : s ∈ l.plan.slots) :
    s.offset + s.width ≤ l.wordBits := by
  obtain ⟨group, hgroup, hmem⟩ := exists_group_of_mem_slots hs
  have hend := end_le_of_mem_slotsInWord hmem
  have := (total_le_of_mem_words hl (List.mem_of_getElem? hgroup)).2
  omega

/-- **The plan of a layout is its one greedy placement, and a machine finds it.**  No other slots
obey the rule.  Each slot is inside its word, no two slots share a bit, and the bits that the slots
of a word take are those from zero up to the count of the word, which is from one bit to all.  The
groups are not empty and hold the widths in order.  No check of the loop fails, nor one on the way
to the free bits and the groups. -/
theorem greedy_placement {widths : List Nat} {wordBits : Nat} {l : Layout}
    (hl : Layout.ofWidths widths wordBits = .ok l) (hword : wordBits < UInt16.size) :
    (∀ slots, Greedy widths wordBits slots ↔ slots = l.plan.slots) ∧
    (∀ s ∈ l.plan.slots, s.offset + s.width ≤ wordBits) ∧
    l.plan.slots.Pairwise Slot.Apart ∧
    (∀ word < l.plan.wordCount, ∃ used, l.plan.usedBits word = some used ∧
      1 ≤ used ∧ used ≤ wordBits ∧
      used = total ((l.plan.slots.filter fun s => s.word = word).map (·.width)) ∧
      ∀ bit, (∃ s ∈ l.plan.slots, s.Covers word bit) ↔ bit < used) ∧
    (∀ word, l.plan.wordCount ≤ word → l.plan.usedBits word = none) ∧
    ([] ∉ l.plan.words ∧ l.plan.words.flatten = widths) ∧
    ∃ p, place? wordBits widths = some p ∧ p.slots = l.plan.slots ∧
      (∀ word, p.used[word]? = l.plan.usedBits word) ∧
      p.paddingBits? wordBits = some l.plan.paddingBits ∧ p.words? = some l.plan.words := by
  obtain ⟨rfl, hvalid⟩ := Layout.ofWidths_eq_ok_iff.mp hl
  have hgreedy := greedy_slots ⟨widths, wordBits⟩
  refine ⟨fun slots => ⟨fun h => h.unique hgreedy, ?_⟩, fun s hs => end_le_of_mem_slots hvalid hs,
    hgreedy.pairwise_apart, fun word => used_of_lt_wordCount hvalid,
    fun word => usedBits_of_wordCount_le, ⟨?_, Layout.flatten_words_plan _⟩,
    ⟨_, place?_eq hvalid hword, rfl, fun word => ?_, paddingBits?_eq hvalid, words?_eq _⟩⟩
  · rintro rfl
    exact hgreedy
  · intro hmem
    exact (total_le_of_mem_words hvalid hmem).1 rfl
  · rw [List.getElem?_map, usedBits]

/-- Four slots, of which the first fills a word and the next two fill another one. -/
theorem four_slots_placed :
    Layout.ofWidths [64, 32, 32, 8] 64 = .ok ⟨[64, 32, 32, 8], 64⟩ ∧ 64 < UInt16.size ∧
    (∀ slots, Greedy [64, 32, 32, 8] 64 slots ↔
      slots = [⟨0, 0, 64⟩, ⟨1, 0, 32⟩, ⟨1, 32, 32⟩, ⟨2, 0, 8⟩]) ∧
    ∃ p, place? 64 [64, 32, 32, 8] = some p ∧ p.paddingBits? 64 = some 56 := by
  have hl : Layout.ofWidths [64, 32, 32, 8] 64 = .ok ⟨[64, 32, 32, 8], 64⟩ := by decide
  have hword : 64 < UInt16.size := by decide
  obtain ⟨hrule, -, -, -, -, -, p, hp, -, -, hpadding, -⟩ := greedy_placement hl hword
  exact ⟨hl, hword, hrule, p, hp, hpadding⟩

end Plan

end WordPacking
