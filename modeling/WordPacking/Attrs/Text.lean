/-
# The text of attribute tags

In a document the tags are one text: flags separated by bars, with blanks around each of them.
A flag is `KEY`, or `0x` and the hexadecimal value of any of the eight flags together.  The
flags that have no name are written as one such value, after the name.
-/
import WordPacking.Attrs
import WordPacking.Scalar
import WordPacking.Text.Blank
import WordPacking.Text.Digits

namespace WordPacking.Attrs

/-- The name of the flag that marks a key member. -/
def keyName : String := "KEY"

/-- The text of the tags; no text at all if there is no flag. -/
def text (a : Attrs) : String :=
  let named := if a.isKey then [keyName] else []
  let unnamed := if a.unnamed = 0 then [] else [Scalar.hex a.unnamed.toNat]
  " | ".intercalate (named ++ unnamed)

/-- The parts of a text between bars. -/
def parts : List Char → List (List Char)
  | [] => [[]]
  | c :: cs =>
    if c = '|' then [] :: parts cs
    else match parts cs with
      | [] => [[c]]
      | part :: rest => (c :: part) :: rest

/-- The flags of a hexadecimal value of at most eight bits, which may have a plus in front. -/
def ofHex? (cs : List Char) : Option Attrs :=
  match Text.hex? (Text.dropPlus cs) with
  | some n => if n < 256 then some ⟨UInt8.ofNat n⟩ else none
  | none => none

/-- The flags that one part of a text stands for. -/
def ofFlag? : List Char → Option Attrs
  | '0' :: 'x' :: digits => ofHex? digits
  | name => if name = keyName.toList then some key else none

/-- The flags of all parts of a text; each part has to stand for some. -/
def ofParts? : List (List Char) → Option Attrs
  | [] => some empty
  | part :: rest => do
    let flags ← ofFlag? (Text.trim part)
    let others ← ofParts? rest
    return flags.union others

/-- The tags that a text stands for.  A blank text stands for no flag. -/
def ofText? (s : String) : Option Attrs :=
  if Text.trim s.toList = [] then some empty else ofParts? (parts s.toList)

/-! ## Reading what is written -/

/-- The tags of each of the 256 values are read back; there are few enough to go through. -/
theorem ofText?_text_ofNat :
    ∀ n : Fin 256, ofText? (text ⟨UInt8.ofNat n⟩) = some ⟨UInt8.ofNat n⟩ := by
  decide +kernel

/-- The text of any tags, named or not, is read back as these tags. -/
theorem ofText?_text (a : Attrs) : ofText? a.text = some a := by
  simpa using ofText?_text_ofNat ⟨a.bits.toNat, a.bits.toNat_lt⟩

end WordPacking.Attrs
