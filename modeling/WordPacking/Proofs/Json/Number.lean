/-
# Natural numbers as JSON numbers

The decimal digits of a natural number are a JSON number: they have no leading zero, and nothing
follows them.  Below `2 ^ 64` all of them go into the significand, so the number is in range.
-/
import Mathlib.Data.List.TakeWhile
import Mathlib.Tactic.Common
import WordPacking.Json.Number

namespace WordPacking.Json

namespace Number

open Nat (toDigits ofDigitChars)

lemma isDigit_of_mem_toDigits {n : Nat} {c : Char} (hc : c ∈ toDigits 10 n) : c.isDigit = true :=
  Nat.isDigit_of_mem_toDigits (by decide) (by decide) hc

lemma digitChar_ne_zero : ∀ d : Fin 10, d ≠ 0 → Nat.digitChar d ≠ '0' := by decide

/-- Only zero begins with the digit zero. -/
lemma head?_toDigits_ne_zero {n : Nat} (hn : 0 < n) : (toDigits 10 n).head? ≠ some '0' := by
  induction n using Nat.strongRecOn with
  | ind n ih =>
    rcases Nat.lt_or_ge n 10 with hlt | hge
    · have hne : (⟨n, hlt⟩ : Fin 10) ≠ 0 := Fin.ne_of_val_ne (Nat.ne_of_gt hn)
      rw [Nat.toDigits_of_lt_base hlt, List.head?_cons, ne_eq, Option.some.injEq]
      exact digitChar_ne_zero ⟨n, hlt⟩ hne
    · have hpos : 0 < n / 10 := by omega
      obtain ⟨d, ds, hdigits⟩ := List.exists_cons_of_ne_nil (@Nat.toDigits_ne_nil (n / 10) 10)
      have hhead := ih (n / 10) (by omega) hpos
      rw [hdigits] at hhead
      rwa [Nat.toDigits_of_base_le (by decide) hge, hdigits]

lemma isWhole_of_head?_ne_zero {cs : List Char} (hdigits : ∀ c ∈ cs, c.isDigit = true)
    (hne : cs ≠ []) (hhead : cs.head? ≠ some '0') : isWhole cs = true := by
  rcases cs with _ | ⟨d, _ | ⟨d', ds⟩⟩
  · exact absurd rfl hne
  · exact hdigits d List.mem_cons_self
  · simp_all [isWhole]

/-- The digits of a number are a whole part. -/
lemma isWhole_toDigits (n : Nat) : isWhole (toDigits 10 n) = true := by
  rcases Nat.eq_zero_or_pos n with rfl | hn
  · rfl
  · exact isWhole_of_head?_ne_zero (fun c => isDigit_of_mem_toDigits) Nat.toDigits_ne_nil
      (head?_toDigits_ne_zero hn)

/-- The digits of a number are all of its text. -/
lemma ofChars?_toDigits (n : Nat) : ofChars? (toDigits 10 n) = some ⟨toDigits 10 n, [], 0⟩ := by
  have hdigits : ∀ c ∈ toDigits 10 n, c.isDigit = true := fun c => isDigit_of_mem_toDigits
  have htake := List.takeWhile_eq_self_iff.mpr hdigits
  have hdrop := List.dropWhile_eq_nil_iff.mpr hdigits
  have hwhole := isWhole_toDigits n
  generalize toDigits 10 n = cs at *
  have hsign : ∀ rest, cs ≠ '-' :: rest := by
    rintro rest rfl
    exact absurd (hdigits '-' List.mem_cons_self) (by decide)
  simp [ofChars?, htake, hdrop, hwhole, fraction?, exponent?]

lemma le_ofDigitChars (n : Nat) (cs : List Char) : n ≤ ofDigitChars 10 cs n := by
  induction cs generalizing n with
  | nil => exact Nat.le_refl n
  | cons c cs ih =>
    rw [Nat.ofDigitChars_cons]
    have := ih (10 * n + (c.toNat - '0'.toNat))
    omega

/-- Digits of a number that is small enough all go into the significand. -/
lemma appendDigits_eq {n : Nat} {cs : List Char} (h : ofDigitChars 10 cs n < UInt64.size) :
    appendDigits n cs = (ofDigitChars 10 cs n, []) := by
  induction cs generalizing n with
  | nil => rfl
  | cons c cs ih =>
    rw [Nat.ofDigitChars_cons] at h ⊢
    have hle := le_ofDigitChars (10 * n + (c.toNat - '0'.toNat)) cs
    rw [appendDigits, if_pos (by omega), ih h]

end Number

open Number in
/-- A natural number below `2 ^ 64` is a JSON number. -/
theorem isNumber_toDigits {n : Nat} (h : n < UInt64.size) :
    isNumber (Nat.toDigits 10 n) = true := by
  have hvalue : Nat.ofDigitChars 10 (Nat.toDigits 10 n) 0 = n :=
    Nat.ofDigitChars_toDigits (by decide) (by decide)
  have hdigits : appendDigits 0 (Nat.toDigits 10 n) = (n, []) := by
    rw [appendDigits_eq (by rwa [hvalue]), hvalue]
  have hpower : (⟨Nat.toDigits 10 n, [], 0⟩ : Number).scaled.2 = 0 := by
    simp [scaled, hdigits, appendDigits]
  rw [isNumber, ofChars?_toDigits, Option.any_some, inRange, hpower, fits, if_pos (by simp)]

end WordPacking.Json
