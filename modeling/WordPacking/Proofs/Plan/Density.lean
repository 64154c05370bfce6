/-
# How full the words are

No bit of the words of a packed record is lost: each belongs to a slot or is left free.  That bounds
the bits of the slots from above, by the bits of all words.  They are bounded from below as well.
A word is closed only when the next slot does not fit, so two words that follow one another hold
more bits than one word has.  Taking the words in pairs, from the first one on, the slots have more
than a word of bits in each pair; a word that is left over at the end counts for nothing.
-/
import WordPacking.Proofs.Plan.Fill
import WordPacking.Proofs.Plan.Greedy

namespace WordPacking

namespace Plan

variable {wordBits : Nat}

/-! ## The bits of some groups -/

/-- The bits of words are those that are taken and those that are free. -/
lemma length_mul_eq_total_add_free {groups : List (List Nat)}
    (hgroups : ∀ group ∈ groups, total group ≤ wordBits) :
    groups.length * wordBits =
      total (groups.map total) + total (groups.map fun group => wordBits - total group) := by
  induction groups with
  | nil => simp
  | cons group groups ih =>
    obtain ⟨hgroup, hgroups⟩ := List.forall_mem_cons.mp hgroups
    rw [List.length_cons, Nat.succ_mul, ih hgroups, List.map_cons, List.map_cons, total_cons,
      total_cons]
    omega

/-- Groups of which two neighbours hold more than a word of bits hold more than a word of bits for
each pair.  The induction takes two groups at a time. -/
lemma half_length_mul_le_total : ∀ {groups : List (List Nat)},
    (groups.IsChain fun g h => wordBits < total g + total h) →
      groups.length / 2 * (wordBits + 1) ≤ total (groups.map total)
  | [], _ => by simp
  | [_], _ => by simp
  | g :: h :: groups, hchain => by
    obtain ⟨hpair, hrest⟩ := List.isChain_cons_cons.mp hchain
    have hpairs := half_length_mul_le_total hrest.tail
    have hhalf : (g :: h :: groups).length / 2 = groups.length / 2 + 1 := by
      rw [List.length_cons, List.length_cons]
      omega
    rw [List.tail_cons] at hpairs
    rw [hhalf, Nat.succ_mul, List.map_cons, List.map_cons, total_cons, total_cons]
    omega

end Plan

namespace Layout

variable {l : Layout}

lemma totalBits_eq_total_words (l : Layout) : l.totalBits = total (l.plan.words.map total) := by
  rw [← total_flatten, flatten_words_plan]
  rfl

/-- The bits of all words are those of the slots and those that are left free. -/
lemma packedSize_mul_wordBits (hl : l.Valid) :
    l.packedSize * l.wordBits = l.totalBits + l.plan.paddingBits := by
  rw [packedSize_eq_wordCount hl, totalBits_eq_total_words]
  exact Plan.length_mul_eq_total_add_free fun group hgroup =>
    (Plan.total_le_of_mem_words hl hgroup).2

/-- Each pair of words has more bits of slots than one word has. -/
lemma half_packedSize_mul_le (hl : l.Valid) :
    l.packedSize / 2 * (l.wordBits + 1) ≤ l.totalBits := by
  rw [packedSize_eq_wordCount hl, totalBits_eq_total_words]
  exact Plan.half_length_mul_le_total (Plan.isChain_groups l.wordBits l.widths)

lemma totalBits_le (hl : l.Valid) : l.totalBits ≤ l.packedSize * l.wordBits := by
  have hbits := packedSize_mul_wordBits hl
  omega

lemma packedSize_eq_zero_iff (hl : l.Valid) : l.packedSize = 0 ↔ l.widths = [] := by
  rw [packedSize_eq_wordCount hl, Plan.wordCount, List.length_eq_zero_iff]
  exact Plan.groups_eq_nil_iff

/-- Some slots that have no more bits than a word go into one. -/
lemma packedSize_eq_one (hl : l.Valid) (hsome : l.widths ≠ []) (hfew : l.totalBits ≤ l.wordBits) :
    l.packedSize = 1 := by
  have hpairs := half_packedSize_mul_le hl
  have hnone : l.packedSize / 2 = 0 := by
    by_contra hpair
    have := Nat.le_mul_of_pos_left (l.wordBits + 1) (Nat.pos_of_ne_zero hpair)
    omega
  have hne : l.packedSize ≠ 0 := fun hzero => hsome ((packedSize_eq_zero_iff hl).mp hzero)
  omega

/-- There are as many words as the bits need, rounded up. -/
lemma totalBits_ceil_le (hl : l.Valid) :
    (l.totalBits + l.wordBits - 1) / l.wordBits ≤ l.packedSize := by
  have hle := totalBits_le hl
  rcases Nat.eq_zero_or_pos l.wordBits with hzero | hpos
  · rw [hzero, Nat.div_zero]
    exact Nat.zero_le _
  · rw [Nat.mul_comm] at hle
    rw [Nat.div_le_iff_le_mul_add_pred hpos]
    omega

/-- **Words are full together and half full in pairs.**  The bits of the words of a packed layout
are those of its slots and those left free.  So the slots have at most the bits of the words, and
they have more than a word of bits for every two words.  No word is taken exactly when there is no
slot, some slots with a word of bits at most take one word, and there are never fewer words than
the bits need. -/
theorem packedSize_density {widths : List Nat} {wordBits : Nat} {l : Layout}
    (hl : ofWidths widths wordBits = .ok l) :
    l.packedSize * wordBits = l.totalBits + l.plan.paddingBits ∧
    l.packedSize / 2 * (wordBits + 1) ≤ l.totalBits ∧
    l.totalBits ≤ l.packedSize * wordBits ∧
    (l.packedSize = 0 ↔ widths = []) ∧
    (widths ≠ [] → l.totalBits ≤ wordBits → l.packedSize = 1) ∧
    (l.totalBits + wordBits - 1) / wordBits ≤ l.packedSize := by
  obtain ⟨rfl, hvalid⟩ := ofWidths_eq_ok_iff.mp hl
  exact ⟨packedSize_mul_wordBits hvalid, half_packedSize_mul_le hvalid, totalBits_le hvalid,
    packedSize_eq_zero_iff hvalid, packedSize_eq_one hvalid, totalBits_ceil_le hvalid⟩

/-- Four slots in four words.  Every other one has a single bit, and two words that follow one
another have just one bit more than a word, so that the slots have no bit more than they must. -/
theorem four_words_half_full :
    ofWidths [64, 1, 64, 1] 64 = .ok ⟨[64, 1, 64, 1], 64⟩ ∧
      4 * 64 = total [64, 1, 64, 1] + 126 ∧
      4 / 2 * (64 + 1) ≤ total [64, 1, 64, 1] ∧ total [64, 1, 64, 1] = 4 / 2 * (64 + 1) := by
  have hl : ofWidths [64, 1, 64, 1] 64 = .ok ⟨[64, 1, 64, 1], 64⟩ := by decide
  obtain ⟨hbits, hhalf, -⟩ := packedSize_density hl
  exact ⟨hl, hbits, hhalf, rfl⟩

end Layout

end WordPacking
