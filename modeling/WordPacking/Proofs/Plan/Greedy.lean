/-
# The greedy placement

A slot goes directly behind the slot before it if the word has room for it, and otherwise to the
start of the next word (`Follows`).  With the widths and the place of the first slot given, this
rule leaves no choice, so a list of slots that obeys it (`Greedy`) is the only one
(`Greedy.unique`).  The slots of a plan obey it (`greedy_slots`).

The plan is made of groups of widths, one group for each word.  The slots of a word are those of
its group, and side by side they take its bits from bit zero up.
-/
import Mathlib.Data.List.Chain
import Mathlib.Tactic.Common
import WordPacking.Proofs.Plan.Fill

namespace WordPacking

namespace Slot

/-- The slot takes a bit of a word. -/
def Covers (s : Slot) (word bit : Nat) : Prop :=
  s.word = word ∧ s.offset ≤ bit ∧ bit < s.offset + s.width

/-- No bit is taken by both slots. -/
def Apart (s t : Slot) : Prop := ∀ word bit, ¬ (s.Covers word bit ∧ t.Covers word bit)

/-- A slot ends before another one begins. -/
def Before (s t : Slot) : Prop :=
  s.word < t.word ∨ s.word = t.word ∧ s.offset + s.width ≤ t.offset

instance : Trans Before Before Before where
  trans h h' := by
    unfold Before at *
    omega

lemma Before.apart {s t : Slot} (h : s.Before t) : s.Apart t := by
  rintro word bit ⟨⟨hs, -, hbit⟩, ht, hbit', -⟩
  unfold Before at h
  omega

end Slot

namespace Plan

variable {wordBits : Nat}

/-! ## The rule -/

/-- The second slot is placed right after the first one: in the same word if it has room there,
and otherwise at the start of the next word. -/
def Follows (wordBits : Nat) (s t : Slot) : Prop :=
  if s.offset + s.width + t.width ≤ wordBits then
    t.word = s.word ∧ t.offset = s.offset + s.width
  else t.word = s.word + 1 ∧ t.offset = 0

/-- The slots are placed by the rule, one after the other. -/
structure Greedy (widths : List Nat) (wordBits : Nat) (slots : List Slot) : Prop where
  /-- There is one slot for each width, in order. -/
  widths : slots.map (·.width) = widths
  /-- The first slot is at the start of the first word. -/
  first : ∀ s, slots.head? = some s → s.word = 0 ∧ s.offset = 0
  /-- Each slot follows the one before it. -/
  next : slots.IsChain (Follows wordBits)

lemma Follows.before {s t : Slot} (h : Follows wordBits s t) : s.Before t := by
  unfold Follows at h
  unfold Slot.Before
  split at h <;> omega

/-- The rule leaves no choice for the next slot. -/
lemma Follows.unique {s t u : Slot} (ht : Follows wordBits s t) (hu : Follows wordBits s u)
    (hwidth : t.width = u.width) : t = u := by
  rcases t with ⟨_, _, _⟩
  rcases u with ⟨_, _, _⟩
  unfold Follows at ht hu
  simp only at hwidth ht hu
  subst hwidth
  split at ht <;> simp_all

/-- Nor for all the slots after one that is placed. -/
lemma eq_of_isChain_cons {prev : Slot} {slots slots' : List Slot}
    (h : (prev :: slots).IsChain (Follows wordBits))
    (h' : (prev :: slots').IsChain (Follows wordBits))
    (hwidths : slots.map (·.width) = slots'.map (·.width)) : slots = slots' := by
  induction slots generalizing prev slots' with
  | nil =>
    rw [List.map_nil, eq_comm, List.map_eq_nil_iff] at hwidths
    exact hwidths.symm
  | cons s slots ih =>
    cases slots' with
    | nil => cases hwidths
    | cons s' slots' =>
      rw [List.map_cons, List.map_cons, List.cons.injEq] at hwidths
      rw [List.isChain_cons_cons] at h h'
      obtain rfl := h.1.unique h'.1 hwidths.1
      rw [ih h.2 h'.2 hwidths.2]

/-- There is one greedy placement of given widths at most. -/
theorem Greedy.unique {widths : List Nat} {slots slots' : List Slot}
    (h : Greedy widths wordBits slots) (h' : Greedy widths wordBits slots') : slots = slots' := by
  have hwidths := h.widths.trans h'.widths.symm
  cases slots with
  | nil =>
    rw [List.map_nil, eq_comm, List.map_eq_nil_iff] at hwidths
    exact hwidths.symm
  | cons s slots =>
    cases slots' with
    | nil => cases hwidths
    | cons s' slots' =>
      rw [List.map_cons, List.map_cons, List.cons.injEq] at hwidths
      obtain ⟨hword, hoffset⟩ := h.first s rfl
      obtain ⟨hword', hoffset'⟩ := h'.first s' rfl
      have hsame : s = s' := by
        rcases s with ⟨_, _, _⟩
        rcases s' with ⟨_, _, _⟩
        simp_all
      subst hsame
      rw [eq_of_isChain_cons h.next h'.next hwidths.2]

/-- Slots that are placed by the rule share no bit. -/
lemma Greedy.pairwise_apart {widths : List Nat} {slots : List Slot}
    (h : Greedy widths wordBits slots) : slots.Pairwise Slot.Apart := by
  have hbefore : slots.IsChain Slot.Before := h.next.imp fun _ _ => Follows.before
  exact (List.isChain_iff_pairwise.mp hbefore).imp Slot.Before.apart

/-! ## The slots of a plan -/

@[simp] lemma map_width_slotsInWord (word offset : Nat) (widths : List Nat) :
    (slotsInWord word offset widths).map (·.width) = widths := by
  induction widths generalizing offset with
  | nil => rfl
  | cons width widths ih => rw [slotsInWord, List.map_cons, ih]

@[simp] lemma map_width_slotsInWords (word : Nat) (groups : List (List Nat)) :
    (slotsInWords word groups).map (·.width) = groups.flatten := by
  induction groups generalizing word with
  | nil => rfl
  | cons group groups ih =>
    rw [slotsInWords, List.map_append, map_width_slotsInWord, ih, List.flatten_cons]

/-- The slots that are cut off behind a placed slot follow it and one another. -/
lemma isChain_cut {prev : Slot} {word used : Nat} (hword : prev.word = word)
    (hused : prev.offset + prev.width = used) (widths : List Nat) :
    (prev :: (slotsInWord word used (cut wordBits used widths).1 ++
      slotsInWords (word + 1) (cut wordBits used widths).2)).IsChain (Follows wordBits) := by
  induction widths generalizing prev word used with
  | nil => exact List.isChain_singleton prev
  | cons width widths ih =>
    by_cases hroom : used + width ≤ wordBits
    · have hnext : Follows wordBits prev ⟨word, used, width⟩ := by
        rw [Follows, hused, if_pos hroom]
        exact ⟨hword.symm, rfl⟩
      rw [cut, if_pos hroom, slotsInWord, List.cons_append, List.isChain_cons_cons]
      exact ⟨hnext, ih rfl rfl⟩
    · have hnext : Follows wordBits prev ⟨word + 1, 0, width⟩ := by
        rw [Follows, hused, if_neg hroom, hword]
        exact ⟨rfl, rfl⟩
      rw [cut, if_neg hroom, slotsInWord, List.nil_append, slotsInWords, slotsInWord,
        Nat.zero_add, List.cons_append, List.isChain_cons_cons]
      exact ⟨hnext, ih rfl (Nat.zero_add width)⟩

/-- The slots of a plan are placed by the rule. -/
theorem greedy_slots (l : Layout) : Greedy l.widths l.wordBits l.plan.slots := by
  refine ⟨?_, ?_, ?_⟩
  · rw [slots, map_width_slotsInWords, l.flatten_words_plan]
  · rcases l with ⟨_ | ⟨width, widths⟩, wordBits⟩
    · rintro s ⟨⟩
    · rintro s ⟨⟩
      exact ⟨rfl, rfl⟩
  · rcases l with ⟨_ | ⟨width, widths⟩, wordBits⟩
    · exact List.isChain_nil
    · have hchain := @isChain_cut wordBits ⟨0, 0, width⟩ 0 width rfl (Nat.zero_add width) widths
      simpa [slots, Layout.plan, groups, slotsInWords, slotsInWord] using hchain

/-! ## The groups of a plan -/

/-- The groups of a plan are not empty and go into one word each. -/
lemma total_le_of_mem_words {l : Layout} (hl : l.Valid) {group : List Nat}
    (hgroup : group ∈ l.plan.words) : group ≠ [] ∧ total group ≤ l.wordBits := by
  rcases l with ⟨_ | ⟨width, widths⟩, wordBits⟩
  · cases hgroup
  · obtain ⟨hwidth, hwidths⟩ := List.forall_mem_cons.mp hl
    rw [Layout.plan, groups_cons] at hgroup
    exact total_le_of_mem_fill (List.cons_ne_nil _ _) hwidth.2 (fun w hw => (hwidths w hw).2) hgroup

/-- No word is empty. -/
lemma total_pos_of_mem_words {l : Layout} (hl : l.Valid) {group : List Nat}
    (hgroup : group ∈ l.plan.words) : 0 < total group := by
  cases group with
  | nil => exact absurd rfl (total_le_of_mem_words hl hgroup).1
  | cons width group =>
    have hmem : width ∈ l.widths := by
      rw [← l.flatten_words_plan]
      exact List.mem_flatten_of_mem hgroup List.mem_cons_self
    have := (hl width hmem).1
    rw [total_cons]
    omega

/-! ## The slots of one word -/

lemma word_of_mem_slotsInWord {word offset : Nat} {widths : List Nat} {s : Slot}
    (h : s ∈ slotsInWord word offset widths) : s.word = word := by
  induction widths generalizing offset with
  | nil => cases h
  | cons width widths ih =>
    rcases List.mem_cons.mp h with rfl | h
    · rfl
    · exact ih h

lemma le_word_of_mem_slotsInWords {word : Nat} {groups : List (List Nat)} {s : Slot}
    (h : s ∈ slotsInWords word groups) : word ≤ s.word := by
  induction groups generalizing word with
  | nil => cases h
  | cons group groups ih =>
    rcases List.mem_append.mp h with h | h
    · exact (word_of_mem_slotsInWord h).ge
    · have := ih h
      omega

section Filter

variable {α : Type} {entries : List α} {slotOf : α → Slot} {word : Nat}

/-- Entries for slots of one word are all for this word, and for no other. -/
lemma filter_word_eq_ite (h : ∀ e ∈ entries, (slotOf e).word = word) (k : Nat) :
    entries.filter (fun e => (slotOf e).word = k) = if word = k then entries else [] := by
  split
  · next hword =>
    rw [List.filter_eq_self]
    intro e he
    rw [decide_eq_true_eq, h e he, hword]
  · next hword =>
    rw [List.filter_eq_nil_iff]
    intro e he
    rwa [decide_eq_true_eq, h e he]

/-- Entries for slots of later words are not for an earlier one. -/
lemma filter_word_eq_nil (h : ∀ e ∈ entries, word ≤ (slotOf e).word) {k : Nat} (hk : k < word) :
    entries.filter (fun e => (slotOf e).word = k) = [] := by
  rw [List.filter_eq_nil_iff]
  intro e he
  rw [decide_eq_true_eq]
  exact (Nat.lt_of_lt_of_le hk (h e he)).ne'

end Filter

/-- The slots of a word are those of its group. -/
lemma filter_word_slotsInWords (word k : Nat) (groups : List (List Nat)) :
    (slotsInWords word groups).filter (fun s => s.word = word + k) =
      slotsInWord (word + k) 0 (groups[k]?.getD []) := by
  induction groups generalizing word k with
  | nil => rfl
  | cons group groups ih =>
    rw [slotsInWords, List.filter_append, filter_word_eq_ite fun s => word_of_mem_slotsInWord]
    cases k with
    | zero =>
      rw [Nat.add_zero, if_pos rfl, filter_word_eq_nil (fun s => le_word_of_mem_slotsInWords)
        (Nat.lt_succ_self word), List.append_nil]
      rfl
    | succ k =>
      have hword : word + (k + 1) = word + 1 + k := by omega
      rw [if_neg (by omega), List.nil_append, hword, ih, List.getElem?_cons_succ]

/-- Slots that lie side by side take the bits from the first offset to the last end. -/
lemma exists_covers_slotsInWord_iff {word offset bit : Nat} {widths : List Nat} :
    (∃ s ∈ slotsInWord word offset widths, s.Covers word bit) ↔
      offset ≤ bit ∧ bit < offset + total widths := by
  induction widths generalizing offset with
  | nil =>
    simp [slotsInWord]
  | cons width widths ih =>
    rw [slotsInWord, List.exists_mem_cons_iff, ih, total_cons]
    unfold Slot.Covers
    simp only [true_and]
    omega

/-- The slots of a group lie inside its bits. -/
lemma end_le_of_mem_slotsInWord {word offset : Nat} {widths : List Nat} {s : Slot}
    (h : s ∈ slotsInWord word offset widths) :
    s.offset + s.width ≤ offset + total widths := by
  induction widths generalizing offset with
  | nil => cases h
  | cons width widths ih =>
    rw [total_cons]
    rcases List.mem_cons.mp h with rfl | h
    · simp only
      omega
    · have := ih h
      omega

/-- Each slot is one of the group of its word. -/
lemma exists_group_of_mem_slots {p : Plan} {s : Slot} (h : s ∈ p.slots) :
    ∃ group, p.words[s.word]? = some group ∧ s ∈ slotsInWord s.word 0 group := by
  have hfilter := filter_word_slotsInWords 0 s.word p.words
  rw [Nat.zero_add] at hfilter
  have hmem : s ∈ slotsInWord s.word 0 (p.words[s.word]?.getD []) := by
    rw [← hfilter, List.mem_filter]
    exact ⟨h, decide_eq_true rfl⟩
  cases hgroup : p.words[s.word]? with
  | none =>
    rw [hgroup] at hmem
    cases hmem
  | some group =>
    rw [hgroup] at hmem
    exact ⟨group, rfl, hmem⟩

lemma word_lt_of_mem_slots {p : Plan} {s : Slot} (h : s ∈ p.slots) : s.word < p.wordCount := by
  obtain ⟨group, hgroup, -⟩ := exists_group_of_mem_slots h
  exact (List.getElem?_eq_some_iff.mp hgroup).1

end Plan

end WordPacking
