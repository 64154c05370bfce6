/-
# Words as numbers in a mixed radix

The slots of a word are the digits of the word in a mixed radix: a slot of width `w` is a digit
below `2 ^ w`, and the lowest slot is the lowest digit.  On digits that fit, a bitwise or adds
and a mask is a remainder.  So joining digits and splitting a word are inverse to each other on
digits that fit and on words that have no bit above their digits.
-/
import Mathlib.Algebra.Ring.Nat
import Mathlib.Tactic.Common
import WordPacking.Codec.Word
import WordPacking.Layout

namespace WordPacking

/-- A scalar has at most `k` significant bits exactly when it is below `2 ^ k`. -/
theorem Scalar.bitLength_le_iff {n k : Nat} : bitLength n ≤ k ↔ n < 2 ^ k := by
  unfold bitLength
  split
  · next h =>
    subst h
    exact ⟨fun _ => Nat.two_pow_pos k, fun _ => Nat.zero_le k⟩
  · next h =>
    rw [Nat.succ_le_iff]
    exact Nat.log2_lt h

namespace Codec

/-! ## Bits as digits -/

/-- A mask keeps the remainder. -/
lemma and_lowMask (word width : Nat) : word &&& lowMask width = word % 2 ^ width := by
  rw [lowMask, Nat.one_shiftLeft, Nat.and_two_pow_sub_one_eq_mod]

/-- The first value does not overlap the others, so that the bitwise or adds. -/
lemma joinWord_cons {width value : Nat} (widths values : List Nat) (h : value < 2 ^ width) :
    joinWord (width :: widths) (value :: values) =
      value + joinWord widths values * 2 ^ width := by
  rw [joinWord, Nat.or_comm, ← Nat.shiftLeft_add_eq_or_of_lt h, Nat.shiftLeft_eq, Nat.add_comm]

lemma splitWord_cons (width : Nat) (widths : List Nat) (word : Nat) :
    splitWord (width :: widths) word =
      word % 2 ^ width :: splitWord widths (word / 2 ^ width) := by
  rw [splitWord, and_lowMask, Nat.shiftRight_eq_div_pow]

/-! ## Values that fit -/

/-- There is one value for each slot, and it fits its slot. -/
def Fits : List Nat → List Nat → Prop
  | [], [] => True
  | width :: widths, value :: values => value < 2 ^ width ∧ Fits widths values
  | _, _ => False

/-- Whether values fit their slots can be decided. -/
def decideFits : (widths values : List Nat) → Decidable (Fits widths values)
  | [], [] => .isTrue trivial
  | width :: widths, value :: values =>
    have := decideFits widths values
    inferInstanceAs (Decidable (value < 2 ^ width ∧ Fits widths values))
  | [], _ :: _ => .isFalse id
  | _ :: _, [] => .isFalse id

instance (widths values : List Nat) : Decidable (Fits widths values) := decideFits widths values

theorem Fits.length_eq {widths values : List Nat} (h : Fits widths values) :
    values.length = widths.length := by
  induction widths generalizing values with
  | nil => cases values with
    | nil => rfl
    | cons v values => exact h.elim
  | cons w widths ih => cases values with
    | nil => exact h.elim
    | cons v values => simp [ih h.2]

/-- Values fit two lists of slots together exactly when their parts fit them. -/
theorem fits_append {as bs values : List Nat} :
    Fits (as ++ bs) values ↔ Fits as (values.take as.length) ∧ Fits bs (values.drop as.length) := by
  induction as generalizing values with
  | nil => simp [Fits]
  | cons w as ih => cases values with
    | nil => simp [Fits]
    | cons v values => simp [Fits, ih, and_assoc]

@[simp] theorem length_splitWord (widths : List Nat) (word : Nat) :
    (splitWord widths word).length = widths.length := by
  induction widths generalizing word with
  | nil => rfl
  | cons w widths ih => simp [splitWord, ih]

/-- What a word is taken apart into fits the slots. -/
theorem fits_splitWord (widths : List Nat) (word : Nat) : Fits widths (splitWord widths word) := by
  induction widths generalizing word with
  | nil => trivial
  | cons w widths ih =>
    rw [splitWord_cons]
    exact ⟨Nat.mod_lt _ (Nat.two_pow_pos w), ih _⟩

/-- Values that fit leave no bit above the last slot. -/
theorem joinWord_lt {widths values : List Nat} (h : Fits widths values) :
    joinWord widths values < 2 ^ total widths := by
  induction widths generalizing values with
  | nil => cases values with
    | nil => exact Nat.two_pow_pos 0
    | cons v values => exact h.elim
  | cons w widths ih => cases values with
    | nil => exact h.elim
    | cons v values =>
      obtain ⟨hv, hvs⟩ := h
      have hjoin := ih hvs
      rw [joinWord_cons widths values hv, total_cons, Nat.pow_add, Nat.mul_comm (2 ^ w)]
      calc v + joinWord widths values * 2 ^ w
          < 2 ^ w + joinWord widths values * 2 ^ w := by omega
        _ = (joinWord widths values + 1) * 2 ^ w := by rw [Nat.succ_mul, Nat.add_comm]
        _ ≤ 2 ^ total widths * 2 ^ w := Nat.mul_le_mul_right _ hjoin

/-- Values that fit are recovered from their word. -/
theorem splitWord_joinWord {widths values : List Nat} (h : Fits widths values) :
    splitWord widths (joinWord widths values) = values := by
  induction widths generalizing values with
  | nil => cases values with
    | nil => rfl
    | cons v values => exact h.elim
  | cons w widths ih => cases values with
    | nil => exact h.elim
    | cons v values =>
      -- dividing by the radix of the first digit takes the digits apart
      obtain ⟨hv, hvs⟩ := h
      have hlow : (v + joinWord widths values * 2 ^ w) % 2 ^ w = v := by
        rw [Nat.add_mul_mod_self_right, Nat.mod_eq_of_lt hv]
      have hhigh : (v + joinWord widths values * 2 ^ w) / 2 ^ w = joinWord widths values := by
        rw [Nat.add_mul_div_right _ _ (Nat.two_pow_pos w), Nat.div_eq_of_lt hv, Nat.zero_add]
      rw [joinWord_cons widths values hv, splitWord_cons, hlow, hhigh, ih hvs]

/-- A word without a bit above its slots is recovered from its values. -/
theorem joinWord_splitWord {widths : List Nat} {word : Nat} (h : word < 2 ^ total widths) :
    joinWord widths (splitWord widths word) = word := by
  induction widths generalizing word with
  | nil =>
    rw [total_nil, Nat.pow_zero, Nat.lt_one_iff] at h
    rw [h, splitWord, joinWord]
    simp
  | cons w widths ih =>
    have hrest : word / 2 ^ w < 2 ^ total widths := by
      apply Nat.div_lt_of_lt_mul
      rwa [← Nat.pow_add]
    have hlow : word % 2 ^ w < 2 ^ w := Nat.mod_lt _ (Nat.two_pow_pos w)
    rw [splitWord_cons, joinWord_cons _ _ hlow, ih hrest]
    exact Nat.mod_add_div' word (2 ^ w)

end Codec

end WordPacking
