/-
# JSON numbers

The text of a JSON number is a whole part without leading zeros, with a minus in front if it is
negative, then a fraction and an exponent, both of which may be missing.

A number must not be too large for double precision.  For that it is read as a significand,
which is made of its leading digits as long as it stays below `2 ^ 64`, times a power of ten.
Significand and power are each rounded to double precision, and the number is out of range if
their product rounds to infinity.  All of this is computed with natural numbers.
-/
import WordPacking.Text.Digits

namespace WordPacking.Json

/-- The parts of a number that say how large it is.  Its sign does not. -/
structure Number where
  /-- The digits before the point. -/
  whole : List Char
  /-- The digits after the point, none if there is no point. -/
  fraction : List Char
  /-- The exponent of ten. -/
  exponent : Int
deriving DecidableEq, Repr

namespace Number

/-- The digits of a whole part: one digit, or several of which the first is not zero. -/
def isWhole : List Char → Bool
  | [] => false
  | [d] => d.isDigit
  | d :: ds => d.isDigit && d != '0' && ds.all Char.isDigit

/-- The digits of a fraction, if there is one, and what follows. -/
def fraction? : List Char → Option (List Char × List Char)
  | '.' :: cs =>
    let digits := cs.takeWhile Char.isDigit
    if digits = [] then none else some (digits, cs.dropWhile Char.isDigit)
  | cs => some ([], cs)

/-- The value of an exponent, if there is one; nothing may follow. -/
def exponent? : List Char → Option Int
  | [] => some 0
  | mark :: cs =>
    if mark = 'e' ∨ mark = 'E' then
      match cs with
      | '-' :: digits => (Text.decimal? digits).map fun n => -(n : Int)
      | digits => (Text.decimal? (Text.dropPlus digits)).map fun n => (n : Int)
    else none

/-- The parts of a number, if the text is one. -/
def ofChars? (cs : List Char) : Option Number := do
  let cs := match cs with
    | '-' :: cs => cs
    | cs => cs
  let whole := cs.takeWhile Char.isDigit
  if isWhole whole then
    let (fraction, cs) ← fraction? (cs.dropWhile Char.isDigit)
    let exponent ← exponent? cs
    return ⟨whole, fraction, exponent⟩
  else none

/-- Appends digits to a significand as long as it stays below `2 ^ 64`.  The digits from the
first that does not go in are left over. -/
def appendDigits (n : Nat) : List Char → Nat × List Char
  | [] => (n, [])
  | d :: ds =>
    let m := 10 * n + (d.toNat - '0'.toNat)
    if m < UInt64.size then appendDigits m ds else (n, d :: ds)

/-- The significand and the power of ten of a number.  Whole digits that are left over raise the
power, and those of the fraction are dropped. -/
def scaled (n : Number) : Nat × Int :=
  let whole := appendDigits 0 n.whole
  let fraction := appendDigits whole.1 n.fraction
  let taken := n.fraction.length - fraction.2.length
  (fraction.1, (whole.2.length : Int) - taken + n.exponent)

/-- The nearest number with a significand of 53 bits, the even one of two that are as near. -/
def roundToDouble (n : Nat) : Nat :=
  let ulp := 1 <<< (n.log2 - 52)
  let q := n / ulp
  let twice := 2 * (n % ulp)
  if ulp < twice ∨ (twice = ulp ∧ q % 2 = 1) then (q + 1) * ulp else q * ulp

/-- The least number that rounds to infinity: halfway from the largest double to `2 ^ 1024`. -/
def infinityBound : Nat := 1 <<< 1024 - 1 <<< 970

/-- Whether a significand times a power of ten is not too large for double precision. -/
def fits (significand : Nat) (power : Int) : Bool :=
  if significand = 0 ∨ power ≤ 0 then true
  else if 308 < power then false
  else roundToDouble significand * roundToDouble (Nat.pow 10 power.toNat) < infinityBound

/-- Whether a number is not too large. -/
def inRange (n : Number) : Bool := fits n.scaled.1 n.scaled.2

end Number

/-- Whether a text is a number that is not too large. -/
def isNumber (cs : List Char) : Bool := (Number.ofChars? cs).any Number.inRange

end WordPacking.Json
