/-
# Interleaving keys and values

A record comes as the scalars of its key members and the scalars of its other members.  Two
walks over the members lead from there to the order of the layout and back.  Both take from a
list as many scalars as the member at hand has slots.  So they undo each other as soon as the
lists have the right lengths, whatever the order of key members and other members is, and
whether a member has no slot or many.

Lists of the right lengths are made up of one part for each member (`Supplied`).  What holds of
their interleaving is shown by induction over the parts.
-/
import Mathlib.Tactic.Common
import WordPacking.Model

namespace WordPacking.Model

/-- The slots of the members that are part of the key. -/
def keySlots (members : List (Member Tree)) : Nat :=
  total ((members.filter (·.attrs.isKey)).map (·.body.size))

/-- The slots of the members that are not part of the key. -/
def valueSlots (members : List (Member Tree)) : Nat :=
  total ((members.filter (!·.attrs.isKey)).map (·.body.size))

/-! ## The slots of the two sides -/

section Slots

variable {m : Member Tree} {members : List (Member Tree)}

lemma keySlots_cons_of_key (h : m.attrs.isKey = true) :
    keySlots (m :: members) = m.body.size + keySlots members := by
  simp [keySlots, h]

lemma keySlots_cons_of_not_key (h : ¬ m.attrs.isKey = true) :
    keySlots (m :: members) = keySlots members := by
  simp [keySlots, h]

lemma valueSlots_cons_of_key (h : m.attrs.isKey = true) :
    valueSlots (m :: members) = valueSlots members := by
  simp [valueSlots, h]

lemma valueSlots_cons_of_not_key (h : ¬ m.attrs.isKey = true) :
    valueSlots (m :: members) = m.body.size + valueSlots members := by
  simp [valueSlots, h]

/-- Every member is on one of the two sides. -/
lemma keySlots_add_valueSlots (members : List (Member Tree)) :
    keySlots members + valueSlots members = Shape.sizeSum members := by
  induction members with
  | nil => rfl
  | cons m members ih =>
    rw [Shape.sizeSum, ← ih]
    by_cases hkey : m.attrs.isKey = true
    · rw [keySlots_cons_of_key hkey, valueSlots_cons_of_key hkey]
      omega
    · rw [keySlots_cons_of_not_key hkey, valueSlots_cons_of_not_key hkey]
      omega

end Slots

/-! ## One step of the walks -/

section Step

variable {m : Member Tree} {members : List (Member Tree)} {part keys values scalars : List Nat}

lemma interleave_append_of_key (hkey : m.attrs.isKey = true)
    (hpart : part.length = m.body.size) :
    interleave (m :: members) (part ++ keys) values = part ++ interleave members keys values := by
  rw [interleave, if_pos hkey, List.take_left' hpart, List.drop_left' hpart]

lemma interleave_append_of_not_key (hkey : ¬ m.attrs.isKey = true)
    (hpart : part.length = m.body.size) :
    interleave (m :: members) keys (part ++ values) = part ++ interleave members keys values := by
  rw [interleave, if_neg hkey, List.take_left' hpart, List.drop_left' hpart]

lemma split_cons_of_key (h : m.attrs.isKey = true) :
    split (m :: members) scalars =
      (scalars.take m.body.size ++ (split members (scalars.drop m.body.size)).1,
        (split members (scalars.drop m.body.size)).2) := by
  rw [split, if_pos h]

lemma split_cons_of_not_key (h : ¬ m.attrs.isKey = true) :
    split (m :: members) scalars =
      ((split members (scalars.drop m.body.size)).1,
        scalars.take m.body.size ++ (split members (scalars.drop m.body.size)).2) := by
  rw [split, if_neg h]

/-- What a member takes, and what it leaves to the members after it. -/
lemma length_take_drop {n k : Nat} (h : scalars.length = n + k) :
    (scalars.take n).length = n ∧ (scalars.drop n).length = k := by
  rw [List.length_take, List.length_drop]
  omega

end Step

/-! ## Scalars for all slots -/

/-- There are as many scalars on each side as it has slots: the members can be supplied one after
the other, each from its side. -/
inductive Supplied : List (Member Tree) → List Nat → List Nat → Prop where
  /-- Without members there is nothing to supply. -/
  | nil : Supplied [] [] []
  /-- A key member takes its part from the keys. -/
  | key {m : Member Tree} {members : List (Member Tree)} {part keys values : List Nat}
    (hkey : m.attrs.isKey = true) (hpart : part.length = m.body.size)
    (h : Supplied members keys values) : Supplied (m :: members) (part ++ keys) values
  /-- Another member takes its part from the values. -/
  | value {m : Member Tree} {members : List (Member Tree)} {part keys values : List Nat}
    (hkey : ¬ m.attrs.isKey = true) (hpart : part.length = m.body.size)
    (h : Supplied members keys values) : Supplied (m :: members) keys (part ++ values)

section Supplied

variable {members : List (Member Tree)} {keys values : List Nat}

lemma supplied_of_length (hkeys : keys.length = keySlots members)
    (hvalues : values.length = valueSlots members) : Supplied members keys values := by
  induction members generalizing keys values with
  | nil =>
    rw [List.eq_nil_of_length_eq_zero hkeys, List.eq_nil_of_length_eq_zero hvalues]
    exact .nil
  | cons m members ih =>
    by_cases hkey : m.attrs.isKey = true
    · rw [keySlots_cons_of_key hkey] at hkeys
      rw [valueSlots_cons_of_key hkey] at hvalues
      obtain ⟨htake, hdrop⟩ := length_take_drop hkeys
      rw [← keys.take_append_drop m.body.size]
      exact .key hkey htake (ih hdrop hvalues)
    · rw [keySlots_cons_of_not_key hkey] at hkeys
      rw [valueSlots_cons_of_not_key hkey] at hvalues
      obtain ⟨htake, hdrop⟩ := length_take_drop hvalues
      rw [← values.take_append_drop m.body.size]
      exact .value hkey htake (ih hkeys hdrop)

lemma Supplied.length_interleave (h : Supplied members keys values) :
    (interleave members keys values).length = Shape.sizeSum members := by
  induction h with
  | nil => rfl
  | key hkey hpart _ ih =>
    rw [interleave_append_of_key hkey hpart, List.length_append, hpart, ih, Shape.sizeSum]
  | value hkey hpart _ ih =>
    rw [interleave_append_of_not_key hkey hpart, List.length_append, hpart, ih, Shape.sizeSum]

end Supplied

/-! ## The walks undo each other -/

variable {members : List (Member Tree)} {keys values scalars : List Nat}

/-- Splitting finds the two sides in the scalars of all members again. -/
theorem Supplied.split_interleave (h : Supplied members keys values) :
    split members (interleave members keys values) = (keys, values) := by
  induction h with
  | nil => rfl
  | key hkey hpart _ ih =>
    rw [interleave_append_of_key hkey hpart, split_cons_of_key hkey, List.take_left' hpart,
      List.drop_left' hpart, ih]
  | value hkey hpart _ ih =>
    rw [interleave_append_of_not_key hkey hpart, split_cons_of_not_key hkey,
      List.take_left' hpart, List.drop_left' hpart, ih]

/-- Interleaving puts the two sides of the scalars back into their order. -/
theorem interleave_split (hscalars : scalars.length = Shape.sizeSum members) :
    interleave members (split members scalars).1 (split members scalars).2 = scalars := by
  induction members generalizing scalars with
  | nil => rw [List.eq_nil_of_length_eq_zero hscalars, interleave]
  | cons m members ih =>
    rw [Shape.sizeSum] at hscalars
    obtain ⟨htake, hdrop⟩ := length_take_drop hscalars
    by_cases hkey : m.attrs.isKey = true
    · rw [split_cons_of_key hkey, interleave_append_of_key hkey htake, ih hdrop,
        List.take_append_drop]
    · rw [split_cons_of_not_key hkey, interleave_append_of_not_key hkey htake, ih hdrop,
        List.take_append_drop]

/-- Splitting gives each side as many scalars as it has slots. -/
theorem length_split (hscalars : scalars.length = Shape.sizeSum members) :
    (split members scalars).1.length = keySlots members ∧
      (split members scalars).2.length = valueSlots members := by
  induction members generalizing scalars with
  | nil => exact ⟨rfl, rfl⟩
  | cons m members ih =>
    rw [Shape.sizeSum] at hscalars
    obtain ⟨htake, hdrop⟩ := length_take_drop hscalars
    obtain ⟨hkeys, hvalues⟩ := ih hdrop
    by_cases hkey : m.attrs.isKey = true
    · rw [split_cons_of_key hkey, keySlots_cons_of_key hkey, valueSlots_cons_of_key hkey]
      exact ⟨by rw [List.length_append, htake, hkeys], hvalues⟩
    · rw [split_cons_of_not_key hkey, keySlots_cons_of_not_key hkey,
        valueSlots_cons_of_not_key hkey]
      exact ⟨hkeys, by rw [List.length_append, htake, hvalues]⟩

/-! ## The counts of a model -/

lemma keySize_eq (m : Model) : m.keySize = keySlots m.members := rfl

lemma unpackedSize_eq (m : Model) : m.unpackedSize = Shape.sizeSum m.members := by
  simp [unpackedSize, schema, Schema.size, Shape.size]

/-- The size of the other members is the sum of their slots. -/
lemma valueSize_eq (m : Model) : m.valueSize = valueSlots m.members := by
  have hsum := keySlots_add_valueSlots m.members
  have hkeys : m.schema.keySize = keySlots m.members := rfl
  have hsize : m.schema.size = Shape.sizeSum m.members := m.unpackedSize_eq
  unfold valueSize Schema.valueSize
  omega

/-- The counts are right exactly when each side has as many scalars as slots. -/
theorem checkCounts_eq_ok_iff {m : Model} {k v : Nat} :
    m.checkCounts k v = .ok () ↔ k = m.keySize ∧ v = m.valueSize := by
  have hsum := keySlots_add_valueSlots m.members
  rw [← m.keySize_eq, ← m.valueSize_eq, ← m.unpackedSize_eq] at hsum
  unfold checkCounts
  constructor
  · intro h
    split at h
    · cases h
    · split at h
      · cases h
      · split at h
        · cases h
        · omega
  · rintro ⟨rfl, rfl⟩
    rw [if_neg (by omega), if_neg (by omega), if_neg (by omega)]

end WordPacking.Model
