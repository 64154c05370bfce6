/-
# More slots at the end

When slots are added at the end of a layout, those that are there stay where they are.  The rule of
placement looks back only, so the first slots of a greedy placement are a greedy placement of their
widths, and there is only one (`take_slots_plan`).  In the words, only the last one can gain slots
(`exists_words_append`).
-/
import WordPacking.Proofs.Plan.Fill
import WordPacking.Proofs.Plan.Greedy

namespace WordPacking

namespace Plan

variable {wordBits : Nat}

lemma Greedy.take {widths : List Nat} {slots : List Slot} (h : Greedy widths wordBits slots)
    (n : Nat) : Greedy (widths.take n) wordBits (slots.take n) where
  widths := by rw [List.map_take, h.widths]
  first s hs := by
    rw [List.head?_take] at hs
    split at hs
    · cases hs
    · exact h.first s hs
  next := h.next.take n

end Plan

namespace Layout

/-- A layout is in another one: its slots come first there, and each is in the same place. -/
structure Extends (l' l : Layout) : Prop where
  widths : l.widths <+: l'.widths
  slots : ∀ i < l.size, l'.plan.slots[i]? = l.plan.slots[i]?

/-- The first slots of a plan are the slots of the plan of the first widths. -/
lemma take_slots_plan (l : Layout) (n : Nat) :
    l.plan.slots.take n = (⟨l.widths.take n, l.wordBits⟩ : Layout).plan.slots :=
  ((Plan.greedy_slots l).take n).unique (Plan.greedy_slots ⟨l.widths.take n, l.wordBits⟩)

/-- A layout is in every one that goes on behind it. -/
theorem extends_of_prefix {l l' : Layout} (hwidths : l.widths <+: l'.widths)
    (hbits : l'.wordBits = l.wordBits) : l'.Extends l where
  widths := hwidths
  slots i hi := by
    have htake : l'.plan.slots.take l.size = l.plan.slots := by
      rw [take_slots_plan, size, ← List.prefix_iff_eq_take.mp hwidths, hbits]
    rw [← htake, List.getElem?_take_of_lt hi]

/-! ## The words -/

variable {wordBits word : Nat} {a : List Nat}

/-- The words of the first widths stay, and the last of them is filled up before another one is
opened. -/
lemma exists_words_append (ha : a ≠ []) (b : List Nat) (wordBits : Nat) :
    ∃ before last more after,
      (⟨a, wordBits⟩ : Layout).plan.words = before ++ [last] ∧
      (⟨a ++ b, wordBits⟩ : Layout).plan.words = before ++ (last ++ more) :: after := by
  have hne : Plan.groups wordBits a ≠ [] := fun h => ha (Plan.groups_eq_nil_iff.mp h)
  have hlast := (List.dropLast_append_getLast hne).symm
  exact ⟨_, _, _, _, hlast, Plan.groups_append hlast b⟩

lemma usedBits_append_of_lt (hword : word + 1 < (⟨a, wordBits⟩ : Layout).plan.wordCount)
    (b : List Nat) :
    (⟨a ++ b, wordBits⟩ : Layout).plan.usedBits word =
      (⟨a, wordBits⟩ : Layout).plan.usedBits word := by
  have ha : a ≠ [] := by
    rintro rfl
    exact absurd hword (Nat.not_lt_zero _)
  obtain ⟨before, last, more, after, hwords, hwords'⟩ := exists_words_append ha b wordBits
  have hbefore : word < before.length := by
    rw [Plan.wordCount, hwords, List.length_append, List.length_singleton] at hword
    omega
  rw [Plan.usedBits, Plan.usedBits, hwords, hwords', List.getElem?_append_left hbefore,
    List.getElem?_append_left hbefore]

lemma usedBits_append_of_eq (hword : word + 1 = (⟨a, wordBits⟩ : Layout).plan.wordCount)
    (b : List Nat) :
    ∃ used used', (⟨a, wordBits⟩ : Layout).plan.usedBits word = some used ∧
      (⟨a ++ b, wordBits⟩ : Layout).plan.usedBits word = some used' ∧ used ≤ used' := by
  have ha : a ≠ [] := by
    rintro rfl
    exact absurd hword (Nat.succ_ne_zero _)
  obtain ⟨before, last, more, after, hwords, hwords'⟩ := exists_words_append ha b wordBits
  obtain rfl : word = before.length := by
    rw [Plan.wordCount, hwords, List.length_append, List.length_singleton] at hword
    omega
  refine ⟨total last, total (last ++ more), ?_, ?_, ?_⟩
  · rw [Plan.usedBits, hwords, List.getElem?_concat_length, Option.map_some]
  · rw [Plan.usedBits, hwords', List.getElem?_append_right (Nat.le_refl _), Nat.sub_self,
      List.getElem?_cons_zero, Option.map_some]
  · rw [total_append]
    exact Nat.le_add_right _ _

end Layout

end WordPacking
