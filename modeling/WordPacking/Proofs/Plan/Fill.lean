/-
# Groups as they grow

A plan has its groups all at once, while the widths come one after the other.  With a group that is
open, a width either goes into it or closes it and opens the next one.  `fill` has the groups that
some widths make from an open group on, and goes by these two steps.

What the groups of a plan are like is read off these steps.  They are not empty, and each goes into
one word (`total_le_of_mem_fill`).  Widths that are added at the end go on where the plan has
stopped, so only its last group can still grow (`groups_append`).  And a group was closed because
the first width of the next one did not fit, so two neighbours have more bits than a word
(`isChain_groups`).
-/
import Mathlib.Data.List.Chain
import Mathlib.Tactic.Common
import WordPacking.Plan

namespace WordPacking

@[simp] lemma total_append (a b : List Nat) : total (a ++ b) = total a + total b := by
  induction a with
  | nil => simp
  | cons n a ih => rw [List.cons_append, total_cons, total_cons, ih, Nat.add_assoc]

lemma total_flatten (groups : List (List Nat)) :
    total groups.flatten = total (groups.map total) := by
  induction groups with
  | nil => rfl
  | cons group groups ih => rw [List.flatten_cons, total_append, ih, List.map_cons, total_cons]

namespace Plan

variable {wordBits width : Nat} {group widths : List Nat}

/-- The groups that widths make from an open group on. -/
def fill (wordBits : Nat) (group widths : List Nat) : List (List Nat) :=
  (group ++ (cut wordBits (total group) widths).1) :: (cut wordBits (total group) widths).2

@[simp] lemma fill_nil (wordBits : Nat) (group : List Nat) : fill wordBits group [] = [group] := by
  simp [fill, cut]

/-- A width that has room goes into the open group. -/
lemma fill_cons_of_room (hroom : total group + width ≤ wordBits) :
    fill wordBits group (width :: widths) = fill wordBits (group ++ [width]) widths := by
  simp [fill, cut, hroom]

/-- A width that has no room opens the next group. -/
lemma fill_cons_of_no_room (hroom : ¬ total group + width ≤ wordBits) :
    fill wordBits group (width :: widths) = group :: fill wordBits [width] widths := by
  simp [fill, cut, hroom]

/-- The first width opens the first group. -/
lemma groups_cons (wordBits width : Nat) (widths : List Nat) :
    groups wordBits (width :: widths) = fill wordBits [width] widths := by
  simp [fill, groups]

lemma groups_eq_nil_iff : groups wordBits widths = [] ↔ widths = [] := by
  cases widths <;> simp [groups]

/-! ## Groups that go into a word -/

/-- No group is empty, and each goes into one word, if this is so of the open one. -/
lemma total_le_of_mem_fill (hne : group ≠ []) (hgroup : total group ≤ wordBits)
    (hwidths : ∀ w ∈ widths, w ≤ wordBits) {g : List Nat} (hg : g ∈ fill wordBits group widths) :
    g ≠ [] ∧ total g ≤ wordBits := by
  induction widths generalizing group with
  | nil =>
    rw [fill_nil, List.mem_singleton] at hg
    exact hg ▸ ⟨hne, hgroup⟩
  | cons width widths ih =>
    obtain ⟨hwidth, hwidths⟩ := List.forall_mem_cons.mp hwidths
    by_cases hroom : total group + width ≤ wordBits
    · rw [fill_cons_of_room hroom] at hg
      exact ih (by simp) (by simpa using hroom) hwidths hg
    · rw [fill_cons_of_no_room hroom] at hg
      rcases List.mem_cons.mp hg with rfl | hg
      · exact ⟨hne, hgroup⟩
      · exact ih (by simp) (by simpa using hwidth) hwidths hg

/-! ## More widths at the end -/

/-- Filling goes on where it has stopped, with the group that was open then. -/
theorem fill_append {before : List (List Nat)} {last a : List Nat}
    (h : fill wordBits group a = before ++ [last]) (b : List Nat) :
    fill wordBits group (a ++ b) = before ++ fill wordBits last b := by
  induction a generalizing group before with
  | nil =>
    rw [fill_nil] at h
    obtain ⟨rfl, rfl⟩ : before = [] ∧ last = group := by
      cases before <;> simp_all
    rfl
  | cons width a ih =>
    rw [List.cons_append]
    by_cases hroom : total group + width ≤ wordBits
    · rw [fill_cons_of_room hroom] at h ⊢
      exact ih h
    · rw [fill_cons_of_no_room hroom] at h ⊢
      cases before with
      | nil => cases h
      | cons first before =>
        obtain ⟨rfl, hrest⟩ := List.cons.inj h
        rw [ih hrest, List.cons_append]

/-- Widths at the end of others leave the groups of these as they are, up to the last. -/
theorem groups_append {before : List (List Nat)} {last a : List Nat}
    (h : groups wordBits a = before ++ [last]) (b : List Nat) :
    groups wordBits (a ++ b) = before ++ fill wordBits last b := by
  cases a with
  | nil => simp [groups] at h
  | cons width a =>
    rw [groups_cons] at h
    rw [List.cons_append, groups_cons, fill_append h]

/-! ## Neighbours -/

/-- The open group and the next one do not go into one word together, nor do the next two. -/
lemma isChain_fill (group widths : List Nat) :
    (fill wordBits group widths).IsChain fun g h => wordBits < total g + total h := by
  induction widths generalizing group with
  | nil =>
    rw [fill_nil]
    exact List.isChain_singleton group
  | cons width widths ih =>
    by_cases hroom : total group + width ≤ wordBits
    · rw [fill_cons_of_room hroom]
      exact ih (group ++ [width])
    · have hrest := ih [width]
      rw [fill] at hrest
      rw [fill_cons_of_no_room hroom, fill, List.isChain_cons_cons]
      refine ⟨?_, hrest⟩
      rw [total_append, total_cons, total_nil]
      omega

/-- Two words of a plan that follow one another hold more bits than go into one word. -/
theorem isChain_groups (wordBits : Nat) (widths : List Nat) :
    (groups wordBits widths).IsChain fun g h => wordBits < total g + total h := by
  cases widths with
  | nil => exact List.isChain_nil
  | cons width widths =>
    rw [groups_cons]
    exact isChain_fill [width] widths

end Plan

end WordPacking
