/-
# Shapes without labels

The names of structs, enums, members and variants, and the tags of structs and members, describe
a type to its readers.  The bare shape has none of them left: two shapes are the same up to these
labels when their bare shapes are equal.  What is at the leaves is no label, nor are capacities
and the order of members and variants.

Slots are counted and laid out by the bare shape.
-/
import Mathlib.Tactic.Common
import WordPacking.Schema

namespace WordPacking.Shape

variable {α : Type}

mutual

/-- The shape without names and tags. -/
def bare : Shape α → Shape α
  | leaf a => leaf a
  | array capacity element => array capacity element.bare
  | struct _ _ members => struct "" .empty (bareMembers members)
  | enum _ variants => enum "" (bareVariants variants)

/-- The members without names and tags. -/
def bareMembers : List (Member (Shape α)) → List (Member (Shape α))
  | [] => []
  | ⟨_, body, _⟩ :: members => ⟨"", body.bare, .empty⟩ :: bareMembers members

/-- The variants without names. -/
def bareVariants : List (Variant (Shape α)) → List (Variant (Shape α))
  | [] => []
  | ⟨_, body⟩ :: variants => ⟨"", body.bare⟩ :: bareVariants variants

end

lemma bareMembers_eq_map (members : List (Member (Shape α))) :
    bareMembers members = members.map fun m => ⟨"", m.body.bare, .empty⟩ := by
  induction members with
  | nil => rfl
  | cons m members ih => rw [bareMembers, ih, List.map_cons]

lemma bareVariants_eq_map (variants : List (Variant (Shape α))) :
    bareVariants variants = variants.map fun v => ⟨"", v.body.bare⟩ := by
  induction variants with
  | nil => rfl
  | cons v variants ih => rw [bareVariants, ih, List.map_cons]

/-! ## Slots of the bare shape -/

mutual

theorem size_bare : ∀ t : Shape α, t.bare.size = t.size
  | leaf _ => rfl
  | array _ element => by rw [bare, size, size, size_bare element]
  | struct _ _ members => by rw [bare, size, size, sizeSum_bareMembers members]
  | enum _ variants => by rw [bare, size, size, sizeMax_bareVariants variants]

theorem sizeSum_bareMembers : ∀ members : List (Member (Shape α)),
    sizeSum (bareMembers members) = sizeSum members
  | [] => rfl
  | ⟨_, body, _⟩ :: members => by
    rw [bareMembers, sizeSum, sizeSum, size_bare body, sizeSum_bareMembers members]

theorem sizeMax_bareVariants : ∀ variants : List (Variant (Shape α)),
    sizeMax (bareVariants variants) = sizeMax variants
  | [] => rfl
  | ⟨_, body⟩ :: variants => by
    rw [bareVariants, sizeMax, sizeMax, size_bare body, sizeMax_bareVariants variants]

end

mutual

theorem checkedSize_bare : ∀ t : Shape α, t.bare.checkedSize = t.checkedSize
  | leaf _ => rfl
  | array _ element => by rw [bare, checkedSize, checkedSize, checkedSize_bare element]
  | struct _ _ members => by rw [bare, checkedSize, checkedSize, checkedSum_bareMembers members]
  | enum _ variants => by rw [bare, checkedSize, checkedSize, checkedMax_bareVariants variants]

theorem checkedSum_bareMembers : ∀ members : List (Member (Shape α)),
    checkedSum (bareMembers members) = checkedSum members
  | [] => rfl
  | ⟨_, body, _⟩ :: members => by
    rw [bareMembers, checkedSum, checkedSum, checkedSize_bare body,
      checkedSum_bareMembers members]

theorem checkedMax_bareVariants : ∀ variants : List (Variant (Shape α)),
    checkedMax (bareVariants variants) = checkedMax variants
  | [] => rfl
  | ⟨_, body⟩ :: variants => by
    rw [bareVariants, checkedMax, checkedMax, checkedSize_bare body,
      checkedMax_bareVariants variants]

end

mutual

/-- No label leads to another variant being the widest one, or to another order of slots. -/
theorem widths_bare : ∀ t : Tree, t.bare.widths = t.widths
  | leaf _ => rfl
  | array _ element => by rw [bare, widths_array, widths_array, widths_bare element]
  | struct _ _ members => by rw [bare, widths, widths, memberWidths_bareMembers members]
  | enum _ variants => by
    rw [bare, widths, widths, sizeMax_bareVariants variants, widthsOfSize_bareVariants variants]

theorem memberWidths_bareMembers : ∀ members : List (Member Tree),
    memberWidths (bareMembers members) = memberWidths members
  | [] => rfl
  | ⟨_, body, _⟩ :: members => by
    rw [bareMembers, memberWidths, memberWidths, widths_bare body,
      memberWidths_bareMembers members]

theorem widthsOfSize_bareVariants : ∀ (variants : List (Variant Tree)) (n : Nat),
    widthsOfSize n (bareVariants variants) = widthsOfSize n variants
  | [], _ => rfl
  | ⟨_, body⟩ :: variants, n => by
    rw [bareVariants, widthsOfSize, widthsOfSize, size_bare body, widths_bare body,
      widthsOfSize_bareVariants variants]

end

end WordPacking.Shape
