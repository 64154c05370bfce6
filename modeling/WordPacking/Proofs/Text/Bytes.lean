/-
# The order of texts and of their bytes

Texts are ordered by the code points of their characters.  The bytes of a text in UTF-8 come in the
same order: of two characters, the one of the smaller code point has the smaller bytes, and neither
is the beginning of the other one.  So a list of names is sorted in one order exactly when it is
sorted in the other (`lt_iff_bytes_lt`).
-/
import Mathlib.Tactic.Common

namespace WordPacking.Text

/-- The bytes of a text in UTF-8. -/
def bytes (s : String) : List UInt8 := s.toUTF8.data.toList

lemma bytes_eq (s : String) : bytes s = s.toList.flatMap String.utf8EncodeChar := by
  have hs : s.toByteArray = s.toList.utf8Encode := by
    rw [← String.toByteArray_ofList, String.ofList_toList]
  rw [bytes, String.toUTF8_eq_toByteArray, hs, List.utf8Encode, List.toList_data_toByteArray]

/-- Of two numbers, the smaller one is smaller at the first digit to base 64 where they differ. -/
lemma lt_by_digits {m n : Nat} (h : m < n) :
    m / 262144 < n / 262144 ∨ m / 262144 = n / 262144 ∧
      (m / 4096 % 64 < n / 4096 % 64 ∨ m / 4096 % 64 = n / 4096 % 64 ∧
        (m / 64 % 64 < n / 64 % 64 ∨ m / 64 % 64 = n / 64 % 64 ∧ m % 64 < n % 64)) := by
  have hdigits : ∀ k, k / 262144 = k / 64 / 64 / 64 ∧ k / 4096 = k / 64 / 64 := by
    intro k
    simp only [Nat.div_div_eq_div_mul, Nat.reduceMul, and_self]
  simp only [hdigits]
  omega

/-- The bytes of a smaller character are smaller, whatever follows them. -/
lemma utf8EncodeChar_append_lt {c d : Char} (h : c < d) (rest rest' : List UInt8) :
    String.utf8EncodeChar c ++ rest < String.utf8EncodeChar d ++ rest' := by
  have hlt : c.val.toNat < d.val.toNat := h
  have hd : d.val.toNat < 0x110000 := by
    rcases d.valid with h | ⟨-, h⟩
    · exact Nat.lt_trans h (by decide)
    · exact h
  simp only [String.utf8EncodeChar]
  generalize c.val.toNat = m at hlt
  generalize d.val.toNat = n at hlt hd
  have hdigits := lt_by_digits hlt
  have hm : m / 262144 < 8 := by omega
  have hn : n / 262144 < 8 := by omega
  have hbyte : ∀ k, k < 256 → (UInt8.ofNat k).toNat = k := fun k hk => Nat.mod_eq_of_lt hk
  rw [Nat.mod_eq_of_lt hm, Nat.mod_eq_of_lt hn]
  -- one case for each two numbers of bytes; the first byte decides if they are not the same
  split_ifs <;>
    simp (disch := omega) only [List.cons_append, List.nil_append, List.cons_lt_cons_iff,
      UInt8.lt_iff_toNat_lt, ← UInt8.toNat_inj, hbyte] <;>
    omega

lemma flatMap_utf8EncodeChar_lt {cs ds : List Char} (h : cs < ds) :
    cs.flatMap String.utf8EncodeChar < ds.flatMap String.utf8EncodeChar := by
  induction h with
  | @nil d ds =>
    rw [List.flatMap_nil, List.flatMap_cons]
    cases hd : String.utf8EncodeChar d with
    | nil => exact absurd hd String.utf8EncodeChar_ne_nil
    | cons b bytes => exact List.nil_lt_cons b _
  | rel h => exact utf8EncodeChar_append_lt h _ _
  | cons _ ih =>
    rw [List.flatMap_cons, List.flatMap_cons]
    exact List.append_left_lt ih

/-- **Texts are in the order of their bytes.** -/
theorem lt_iff_bytes_lt (s t : String) : s < t ↔ bytes s < bytes t := by
  have hbytes : ∀ {s t : String}, s < t → bytes s < bytes t := by
    intro s t h
    rw [bytes_eq, bytes_eq]
    exact flatMap_utf8EncodeChar_lt h
  refine ⟨hbytes, fun h => ?_⟩
  by_contra hnot
  by_cases hlt : t < s
  · exact List.lt_asymm h (hbytes hlt)
  · obtain rfl := String.le_antisymm hlt hnot
    exact List.lt_irrefl _ h

end WordPacking.Text
