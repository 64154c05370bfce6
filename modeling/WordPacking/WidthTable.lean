/-
# Width tables

A width table gives the width in bits of each primitive type, for storage words of one size.
An entry may have any width; one that is zero or wider than a word is only refused when a
declaration uses it.

The standard table is for words that hold one element of a field of 251 bits.
-/
import Std.Data.ExtTreeMap

namespace WordPacking

/-- Why a primitive has no usable width. -/
inductive WidthError where
  /-- The table has no entry of this name. -/
  | unknown (name : String)
  /-- The entry has a width of zero bits. -/
  | zero (name : String)
  /-- The entry is wider than a storage word. -/
  | oversized (name : String) (width wordBits : Nat)
deriving DecidableEq, Repr

/-- The sentence that says that something wider than a word was asked for. -/
def oversizedText (name : String) (width wordBits : Nat) : String :=
  "`" ++ name ++ "` is " ++ toString width ++ " bits wide but a word holds only " ++
    toString wordBits ++ " bits"

/-- The text of an error. -/
def WidthError.message : WidthError → String
  | unknown name => "unknown primitive `" ++ name ++ "`"
  | zero name => "`" ++ name ++ "` has a width of zero bits"
  | oversized name width wordBits => oversizedText name width wordBits

/-- The width of a standard storage word: one field element. -/
def fieldElementBits : Nat := 251

/-- A width for each primitive, and the size of the storage words that they go into. -/
structure WidthTable where
  /-- The size of one storage word, in bits. -/
  wordBits : Nat
  /-- The width of each primitive, in bits. -/
  widths : Std.ExtTreeMap String Nat
deriving DecidableEq

namespace WidthTable

/-- The table without entries. -/
def empty (wordBits : Nat) : WidthTable := ⟨wordBits, ∅⟩

/-- Adds an entry, in place of one of the same name. -/
def insert (t : WidthTable) (name : String) (width : Nat) : WidthTable :=
  ⟨t.wordBits, t.widths.insert name width⟩

/-- Adds entries one after the other; of two entries of one name the later one stays. -/
def insertAll (t : WidthTable) (entries : List (String × Nat)) : WidthTable :=
  entries.foldl (fun t e => t.insert e.1 e.2) t

/-- The entry of a name, usable or not. -/
def get? (t : WidthTable) (name : String) : Option Nat := t.widths[name]?

/-- Whether the table has an entry of this name, usable or not. -/
def contains (t : WidthTable) (name : String) : Bool := t.widths.contains name

/-- The number of entries. -/
def size (t : WidthTable) : Nat := t.widths.size

/-- Whether the table has no entry. -/
def isEmpty (t : WidthTable) : Bool := t.widths.isEmpty

/-- Entries sorted by name. -/
def sortByName (listed : List (String × Nat)) : List (String × Nat) :=
  listed.mergeSort fun e e' => decide (e.1 ≤ e'.1)

/-- All entries, sorted by name. -/
def entries (t : WidthTable) : List (String × Nat) := sortByName t.widths.toList

/-- The usable width of a primitive: its entry, if it is at least one bit and at most a word. -/
def widthOf (t : WidthTable) (name : String) : Except WidthError Nat :=
  match t.get? name with
  | none => .error (.unknown name)
  | some width =>
    if width = 0 then .error (.zero name)
    else if t.wordBits < width then .error (.oversized name width t.wordBits)
    else .ok width

/-- The primitives of the standard table. -/
def standardEntries : List (String × Nat) :=
  [("bool", 1), ("u8", 8), ("u16", 16), ("u32", 32), ("u64", 64), ("u128", 128),
    ("usize", 32), ("EthAddress", 160), ("felt252", fieldElementBits),
    ("ClassHash", fieldElementBits), ("ContractAddress", fieldElementBits)]

/-- The standard primitives, for words of any size. -/
def standardFor (wordBits : Nat) : WidthTable := (empty wordBits).insertAll standardEntries

/-- The standard table. -/
def standard : WidthTable := standardFor fieldElementBits

/-! ## Looking up after adding -/

@[simp] theorem wordBits_insert (t : WidthTable) (name : String) (width : Nat) :
    (t.insert name width).wordBits = t.wordBits := rfl

@[simp] theorem wordBits_insertAll (t : WidthTable) (entries : List (String × Nat)) :
    (t.insertAll entries).wordBits = t.wordBits := by
  induction entries generalizing t with
  | nil => rfl
  | cons e entries ih => exact ih (t.insert e.1 e.2)

@[simp] theorem get?_empty (wordBits : Nat) (name : String) :
    (empty wordBits).get? name = none := by
  simp [empty, get?]

theorem contains_eq_isSome (t : WidthTable) (name : String) :
    t.contains name = (t.get? name).isSome := by
  simp [contains, get?]

theorem get?_insert (t : WidthTable) (name other : String) (width : Nat) :
    (t.insert name width).get? other = if name = other then some width else t.get? other := by
  simp [insert, get?, Std.ExtTreeMap.getElem?_insert]

/-- Of several entries of one name the last one stands, and it stands over what was there. -/
theorem get?_insertAll (t : WidthTable) (entries : List (String × Nat)) (name : String) :
    (t.insertAll entries).get? name =
      ((entries.reverse.find? fun e => e.1 = name).map (·.2)).or (t.get? name) := by
  induction entries generalizing t with
  | nil => simp [insertAll]
  | cons e entries ih =>
    have hstep : t.insertAll (e :: entries) = (t.insert e.1 e.2).insertAll entries := rfl
    rw [hstep, ih, get?_insert, List.reverse_cons, List.find?_append]
    by_cases h : e.1 = name <;>
      cases entries.reverse.find? fun e => e.1 = name <;> simp [h]

/-- A usable width is an entry of the table between one bit and a word. -/
theorem widthOf_eq_ok_iff {t : WidthTable} {name : String} {width : Nat} :
    t.widthOf name = .ok width ↔
      t.get? name = some width ∧ 0 < width ∧ width ≤ t.wordBits := by
  unfold widthOf
  split
  · next h => simp [h]
  · next w h =>
    rw [h]
    split
    · grind
    · split <;> grind

end WidthTable

end WordPacking
