/-
# What the codec refuses, and why

Packing looks through the values for one that is too large for its slot, and unpacking through the
words for one that has bits above its slots.  Both stop at the first one.  It is the same search
twice: a word is a value for a slot that has as many bits as all slots of the word together
(`firstStray_eq`).

What is looked for is stated by index (`FirstMisfit`), with the slots and the values as functions
of the index, as they may come from lists, from a plan, or from several lists at once.  In the same
way `EachFits` says that there is nothing to be found.  Both go over to the rest of the lists by one
step, and from there the searches follow by induction over the slots.
-/
import Mathlib.Order.Bounds.Basic
import WordPacking.Proofs.Codec.RoundTrip

namespace WordPacking

namespace Codec

/-- Each value has a slot, and fits it. -/
def EachFits (width? value? : Nat → Option Nat) : Prop :=
  ∀ i value, value? i = some value → ∃ width, width? i = some width ∧ value < 2 ^ width

/-- The value at `i` is the first one that does not fit its slot. -/
structure FirstMisfit (width? value? : Nat → Option Nat) (i width value : Nat) : Prop where
  /-- The slot has this width. -/
  slot : width? i = some width
  /-- This value is meant for the slot. -/
  found : value? i = some value
  /-- The value needs more bits than the slot has. -/
  exceeds : 2 ^ width ≤ value
  /-- The values before it fit their slots. -/
  before : ∀ j < i, ∀ width value, width? j = some width → value? j = some value →
    value < 2 ^ width

variable {width value i slot index : Nat} {widths values words : List Nat}
  {groups : List (List Nat)} {e : CodecError}

/-! ## One step along the lists -/

lemma eachFits_cons_iff :
    EachFits ((width :: widths)[·]?) ((value :: values)[·]?) ↔
      value < 2 ^ width ∧ EachFits (widths[·]?) (values[·]?) := by
  constructor
  · intro h
    refine ⟨?_, fun i v hv => h (i + 1) v hv⟩
    obtain ⟨w, hw, hlt⟩ := h 0 value rfl
    cases hw
    exact hlt
  · rintro ⟨hfirst, hrest⟩ i v hv
    cases i with
    | zero =>
      cases hv
      exact ⟨width, rfl, hfirst⟩
    | succ i => exact hrest i v hv

lemma firstMisfit_zero_iff {w v : Nat} :
    FirstMisfit ((width :: widths)[·]?) ((value :: values)[·]?) 0 w v ↔
      w = width ∧ v = value ∧ 2 ^ width ≤ value := by
  constructor
  · intro h
    obtain rfl := Option.some.inj h.slot
    obtain rfl := Option.some.inj h.found
    exact ⟨rfl, rfl, h.exceeds⟩
  · rintro ⟨rfl, rfl, hexceeds⟩
    exact ⟨rfl, rfl, hexceeds, fun j hj => absurd hj (Nat.not_lt_zero j)⟩

lemma firstMisfit_succ_iff {w v : Nat} :
    FirstMisfit ((width :: widths)[·]?) ((value :: values)[·]?) (i + 1) w v ↔
      value < 2 ^ width ∧ FirstMisfit (widths[·]?) (values[·]?) i w v := by
  constructor
  · intro h
    exact ⟨h.before 0 (Nat.succ_pos i) width value rfl rfl, h.slot, h.found, h.exceeds,
      fun j hj => h.before (j + 1) (Nat.succ_lt_succ hj)⟩
  · rintro ⟨hfirst, h⟩
    refine ⟨h.slot, h.found, h.exceeds, fun j hj w v hw hv => ?_⟩
    cases j with
    | zero =>
      cases hw
      cases hv
      exact hfirst
    | succ j => exact h.before j (Nat.lt_of_succ_lt_succ hj) w v hw hv

/-- The first misfit is the first value, or the first value fits and the misfit is the first one of
the rest. -/
lemma exists_firstMisfit_cons_iff {P : Nat → Nat → Nat → Prop} :
    (∃ i w v, FirstMisfit ((width :: widths)[·]?) ((value :: values)[·]?) i w v ∧ P i w v) ↔
      (2 ^ width ≤ value ∧ P 0 width value) ∨
        (value < 2 ^ width ∧
          ∃ i w v, FirstMisfit (widths[·]?) (values[·]?) i w v ∧ P (i + 1) w v) := by
  constructor
  · rintro ⟨i, w, v, h, hP⟩
    cases i with
    | zero =>
      obtain ⟨rfl, rfl, hexceeds⟩ := firstMisfit_zero_iff.mp h
      exact Or.inl ⟨hexceeds, hP⟩
    | succ i =>
      obtain ⟨hfirst, hrest⟩ := firstMisfit_succ_iff.mp h
      exact Or.inr ⟨hfirst, i, w, v, hrest, hP⟩
  · rintro (⟨hexceeds, hP⟩ | ⟨hfirst, i, w, v, h, hP⟩)
    · exact ⟨0, width, value, firstMisfit_zero_iff.mpr ⟨rfl, rfl, hexceeds⟩, hP⟩
    · exact ⟨i + 1, w, v, firstMisfit_succ_iff.mpr ⟨hfirst, h⟩, hP⟩

/-! ## What the searches find -/

/-- Values fit some slots when there are as many of them and each fits its own. -/
theorem fits_iff :
    Fits widths values ↔ values.length = widths.length ∧ EachFits (widths[·]?) (values[·]?) := by
  induction widths generalizing values with
  | nil => cases values <;> simp [Fits, EachFits]
  | cons width widths ih =>
    cases values with
    | nil => simp [Fits]
    | cons value values =>
      rw [Fits, ih, eachFits_cons_iff, List.length_cons, List.length_cons, Nat.add_right_cancel_iff,
        and_left_comm]

/-- The search through the values finds the first one that does not fit, if there is one. -/
theorem firstOverflow_eq_some_iff :
    firstOverflow slot widths values = some e ↔
      ∃ i width value, FirstMisfit (widths[·]?) (values[·]?) i width value ∧
        e = .valueOverflow (slot + i) (Scalar.bitLength value) width := by
  induction widths generalizing slot values with
  | nil =>
    simp only [firstOverflow, reduceCtorEq, false_iff]
    rintro ⟨i, width, value, h, -⟩
    cases h.slot
  | cons width widths ih =>
    cases values with
    | nil =>
      simp only [firstOverflow, reduceCtorEq, false_iff]
      rintro ⟨i, w, value, h, -⟩
      cases h.found
    | cons value values =>
      have hfits := Scalar.bitLength_le_iff (n := value) (k := width)
      rw [firstOverflow, exists_firstMisfit_cons_iff]
      split
      · next hover =>
        have hexceeds : 2 ^ width ≤ value := by omega
        simp [hexceeds, eq_comm]
      · next hover =>
        have hfirst : value < 2 ^ width := by omega
        simp only [ih, hfirst, Nat.not_le_of_lt hfirst, false_and, false_or, true_and]
        simp only [Nat.add_assoc, Nat.add_comm 1]

/-- The search through the words finds the first one with a bit above its slots. -/
theorem firstStray_eq_some_iff :
    firstStray index groups words = some e ↔
      ∃ k used word, FirstMisfit ((groups.map total)[·]?) (words[·]?) k used word ∧
        e = .strayBits (index + k) := by
  rw [firstStray_eq, Option.map_eq_some_iff]
  constructor
  · rintro ⟨_, hfound, rfl⟩
    obtain ⟨k, used, word, h, rfl⟩ := firstOverflow_eq_some_iff.mp hfound
    exact ⟨k, used, word, h, rfl⟩
  · rintro ⟨k, used, word, h, rfl⟩
    exact ⟨_, firstOverflow_eq_some_iff.mpr ⟨k, used, word, h, rfl⟩, rfl⟩

/-- The bit length of a number is the least number of bits that it goes into. -/
lemma isLeast_bitLength (n : Nat) : IsLeast {k | n < 2 ^ k} (Scalar.bitLength n) :=
  ⟨Scalar.bitLength_le_iff.mp (Nat.le_refl _), fun _ hk => Scalar.bitLength_le_iff.mpr hk⟩

end Codec

namespace Layout

open Codec

variable {l : Layout} {values words : List Nat} {e : CodecError}

/-! ## What the codec returns -/

lemma usedBits_plan_eq (l : Layout) : l.plan.usedBits = ((l.plan.words.map total)[·]?) := by
  funext word
  rw [Plan.usedBits, List.getElem?_map]

lemma exists_pack_eq_ok_iff :
    (∃ words, l.pack values = .ok words) ↔
      values.length = l.size ∧ EachFits (l.widths[·]?) (values[·]?) := by
  simp only [pack_eq_ok_iff, exists_and_left, exists_eq, and_true]
  exact fits_iff

/-- Of as many values as slots the first one that does not fit is reported, with the least number of
bits that it goes into. -/
lemma pack_eq_error_iff (hlength : values.length = l.size) :
    l.pack values = .error e ↔
      ∃ i width value bits, FirstMisfit (l.widths[·]?) (values[·]?) i width value ∧
        IsLeast {k | value < 2 ^ k} bits ∧ e = .valueOverflow i bits width := by
  have hfirst : l.pack values = .error e ↔ firstOverflow 0 l.widths values = some e := by
    rw [pack, if_neg (not_not_intro hlength)]
    cases firstOverflow 0 l.widths values <;> simp
  rw [hfirst, firstOverflow_eq_some_iff]
  simp only [Nat.zero_add]
  constructor
  · rintro ⟨i, width, value, h, rfl⟩
    exact ⟨i, width, value, _, h, isLeast_bitLength value, rfl⟩
  · rintro ⟨i, width, value, bits, h, hbits, rfl⟩
    exact ⟨i, width, value, h, by rw [hbits.unique (isLeast_bitLength value)]⟩

lemma exists_unpack_eq_ok_iff :
    (∃ values, l.unpack words = .ok values) ↔
      words.length = l.plan.wordCount ∧ EachFits l.plan.usedBits (words[·]?) := by
  simp only [unpack_eq_ok_iff, exists_and_left, exists_eq, and_true]
  rw [fits_iff, List.length_map, usedBits_plan_eq]
  rfl

/-- Of as many words as the plan has the first one with a bit above its slots is reported. -/
lemma unpack_eq_error_iff (hlength : words.length = l.plan.wordCount) :
    l.unpack words = .error e ↔
      ∃ k used word, FirstMisfit l.plan.usedBits (words[·]?) k used word ∧ e = .strayBits k := by
  have hfirst : l.unpack words = .error e ↔ firstStray 0 l.plan.words words = some e := by
    rw [unpack, if_neg (not_not_intro hlength)]
    cases firstStray 0 l.plan.words words <;> simp
  rw [hfirst, firstStray_eq_some_iff, usedBits_plan_eq]
  simp only [Nat.zero_add]

/-- **The codec refuses just what does not fit, and says where.**  Values are packed exactly when
there is one for each slot and each fits its slot.  If their number is wrong, that is the error;
else it is about the first value that does not fit, with the number of bits that the value needs
at least.  Words are unpacked exactly when there are as many as the layout takes and each has only
bits of its slots.  If their number is wrong, that is the error; else it is about the first word
with another bit.  What is unpacked fits the slots. -/
theorem codec_refuses_exactly {l : Layout} (hl : l.Valid) :
    (∀ values,
      ((∃ words, l.pack values = .ok words) ↔
        values.length = l.size ∧ EachFits (l.widths[·]?) (values[·]?)) ∧
      (values.length ≠ l.size → l.pack values = .error (.scalarCount l.size values.length)) ∧
      (values.length = l.size → ∀ e, l.pack values = .error e ↔
        ∃ i width value bits, FirstMisfit (l.widths[·]?) (values[·]?) i width value ∧
          IsLeast {k | value < 2 ^ k} bits ∧ e = .valueOverflow i bits width)) ∧
    ∀ words,
      ((∃ values, l.unpack words = .ok values) ↔
        words.length = l.packedSize ∧ EachFits l.plan.usedBits (words[·]?)) ∧
      (words.length ≠ l.packedSize →
        l.unpack words = .error (.wordCount l.packedSize words.length)) ∧
      (words.length = l.packedSize → ∀ e, l.unpack words = .error e ↔
        ∃ k used word, FirstMisfit l.plan.usedBits (words[·]?) k used word ∧
          e = .strayBits k) ∧
      ∀ values, l.unpack words = .ok values →
        values.length = l.size ∧ EachFits (l.widths[·]?) (values[·]?) := by
  rw [packedSize_eq_wordCount hl]
  refine ⟨fun values => ⟨exists_pack_eq_ok_iff, fun hcount => ?_, fun hcount e => ?_⟩,
    fun words => ⟨exists_unpack_eq_ok_iff, fun hcount => ?_, fun hcount e => ?_, ?_⟩⟩
  · rw [pack, if_pos hcount]
  · exact pack_eq_error_iff hcount
  · rw [unpack, if_pos hcount]
  · exact unpack_eq_error_iff hcount
  · intro values hunpack
    -- what is unpacked can be packed, and so it fits
    exact exists_pack_eq_ok_iff.mp ⟨words, pack_eq_ok_iff_unpack_eq_ok.mpr hunpack⟩

/-- Three slots in two words.  The second value needs more bits than a word has, and the third does
not fit either.  The second word has one bit above its slots, though not above the word. -/
theorem second_value_and_second_word_refused :
    let l : Layout := ⟨[40, 40, 8], 64⟩
    l.Valid ∧ l.pack [1, 2 ^ 70, 300] = .error (.valueOverflow 1 71 40) ∧
      l.unpack [7, 2 ^ 48] = .error (.strayBits 1) := by
  intro l
  have hl : l.Valid := by decide
  obtain ⟨hpack, hunpack⟩ := codec_refuses_exactly hl
  obtain ⟨-, -, hoverflow⟩ := hpack [1, 2 ^ 70, 300]
  obtain ⟨-, -, hstray, -⟩ := hunpack [7, 2 ^ 48]
  refine ⟨hl, (hoverflow rfl _).mpr ⟨1, 40, 2 ^ 70, 71, ⟨rfl, rfl, by decide, ?_⟩, ?_, rfl⟩,
    (hstray rfl _).mpr ⟨1, 48, 2 ^ 48, ⟨rfl, rfl, by decide, ?_⟩, rfl⟩⟩
  · intro j hj width value hwidth hvalue
    obtain rfl : j = 0 := by omega
    cases hwidth
    cases hvalue
    decide
  · exact isLeast_bitLength (2 ^ 70)
  · intro j hj used word hused hword
    obtain rfl : j = 0 := by omega
    cases hused
    cases hword
    decide

end Layout

end WordPacking
