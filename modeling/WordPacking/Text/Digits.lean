/-
# Numbers written in digits

Reading the natural number that a text of digits stands for, in base ten and in base sixteen.
Only ASCII digits count, as the formats that use these readers have no others.
-/

namespace WordPacking.Text

/-- The number that a text of decimal digits stands for.  There has to be a digit. -/
def decimal? (cs : List Char) : Option Nat :=
  if cs ≠ [] ∧ cs.all Char.isDigit then some (Nat.ofDigitChars 10 cs 0) else none

/-- The value of a hexadecimal digit, in either case. -/
def hexDigit? (c : Char) : Option Nat :=
  if '0' ≤ c ∧ c ≤ '9' then some (c.toNat - '0'.toNat)
  else if 'a' ≤ c ∧ c ≤ 'f' then some (c.toNat - 'a'.toNat + 10)
  else if 'A' ≤ c ∧ c ≤ 'F' then some (c.toNat - 'A'.toNat + 10)
  else none

/-- The number that hexadecimal digits stand for, after a number that is read already. -/
def hexFrom? (n : Nat) : List Char → Option Nat
  | [] => some n
  | c :: cs => (hexDigit? c).bind fun d => hexFrom? (16 * n + d) cs

/-- The number that a text of hexadecimal digits stands for.  There has to be a digit. -/
def hex? (cs : List Char) : Option Nat := if cs = [] then none else hexFrom? 0 cs

/-- A number without its sign, which may be a plus and nothing else. -/
def dropPlus : List Char → List Char
  | '+' :: cs => cs
  | cs => cs

/-- Decimal digits are read back as the number that they were written for. -/
theorem decimal?_toDigits (n : Nat) : decimal? (Nat.toDigits 10 n) = some n := by
  have hne : Nat.toDigits 10 n ≠ [] := Nat.toDigits_ne_nil
  have hall : (Nat.toDigits 10 n).all Char.isDigit = true :=
    List.all_eq_true.mpr fun c hc => Nat.isDigit_of_mem_toDigits (by decide) (by decide) hc
  simp [decimal?, hne, hall, Nat.ofDigitChars_toDigits]

end WordPacking.Text
