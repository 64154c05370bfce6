/-
# Layouts

A layout is the flat list of the slots of an unpacked record.  Each slot has a width in bits,
and every slot has to go into one storage word whole, so a layout also says how large a word is.
-/

namespace WordPacking

/-- Why a list of widths is no layout. -/
inductive LayoutError where
  /-- A slot is wider than a storage word. -/
  | oversizedSlot (slot width wordBits : Nat)
  /-- A slot has a width of zero bits. -/
  | zeroWidthSlot (slot : Nat)
deriving DecidableEq, Repr

/-- The text of an error. -/
def LayoutError.message : LayoutError → String
  | oversizedSlot slot width wordBits =>
    "slot " ++ toString slot ++ " is " ++ toString width ++ " bits wide but a word holds only " ++
      toString wordBits ++ " bits"
  | zeroWidthSlot slot => "slot " ++ toString slot ++ " has a width of zero bits"

/-- The slots of an unpacked record. -/
structure Layout where
  /-- The width of each slot, in bits. -/
  widths : List Nat
  /-- The size of one storage word, in bits. -/
  wordBits : Nat
deriving DecidableEq, Repr

/-- The sum of a list of numbers. -/
def total (numbers : List Nat) : Nat := numbers.foldr (· + ·) 0

@[simp] theorem total_nil : total [] = 0 := rfl

@[simp] theorem total_cons (n : Nat) (numbers : List Nat) :
    total (n :: numbers) = n + total numbers := rfl

/-- The text of a list of widths, as reports show it: separated by commas. -/
def widthsText (widths : List Nat) : String := ", ".intercalate (widths.map toString)

namespace Layout

/-- The first slot that is empty or wider than a word, where the slots are counted from
`slot` on. -/
def firstDefect (wordBits slot : Nat) : List Nat → Option LayoutError
  | [] => none
  | width :: widths =>
    if width = 0 then some (.zeroWidthSlot slot)
    else if wordBits < width then some (.oversizedSlot slot width wordBits)
    else firstDefect wordBits (slot + 1) widths

/-- The layout with the given slots, if each is at least one bit and at most a word wide. -/
def ofWidths (widths : List Nat) (wordBits : Nat) : Except LayoutError Layout :=
  match firstDefect wordBits 0 widths with
  | some defect => .error defect
  | none => .ok ⟨widths, wordBits⟩

/-- Each slot is at least one bit and at most a word wide. -/
def Valid (l : Layout) : Prop := ∀ width ∈ l.widths, 0 < width ∧ width ≤ l.wordBits

instance (l : Layout) : Decidable l.Valid := by unfold Valid; infer_instance

/-- The number of slots. -/
def size (l : Layout) : Nat := l.widths.length

/-- Whether there is no slot. -/
def isEmpty (l : Layout) : Bool := l.widths.isEmpty

/-- The bits of all slots together. -/
def totalBits (l : Layout) : Nat := total l.widths

/-- The widths in order, in square brackets. -/
def text (l : Layout) : String := "[" ++ widthsText l.widths ++ "]"

/-! ## Which lists of widths are layouts -/

theorem firstDefect_eq_none_iff {wordBits slot : Nat} {widths : List Nat} :
    firstDefect wordBits slot widths = none ↔ ∀ w ∈ widths, 0 < w ∧ w ≤ wordBits := by
  induction widths generalizing slot with
  | nil => simp [firstDefect]
  | cons w widths ih =>
    simp only [firstDefect, List.mem_cons, forall_eq_or_imp]
    split
    · simp [*]
    · split
      · simp; omega
      · rw [ih]
        have : 0 < w ∧ w ≤ wordBits := by omega
        simp [this]

/-- Widths make a layout exactly when each is at least one bit and at most a word. -/
theorem ofWidths_eq_ok_iff {widths : List Nat} {wordBits : Nat} {l : Layout} :
    ofWidths widths wordBits = .ok l ↔ l = ⟨widths, wordBits⟩ ∧ l.Valid := by
  unfold ofWidths
  constructor
  · intro h
    split at h
    · cases h
    · next hd => cases h; exact ⟨rfl, firstDefect_eq_none_iff.mp hd⟩
  · rintro ⟨rfl, hl⟩
    rw [firstDefect_eq_none_iff.mpr hl]

end Layout

end WordPacking
