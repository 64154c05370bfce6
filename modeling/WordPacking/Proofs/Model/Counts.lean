/-
# The check of scalar counts

A record is only taken if it has a scalar for each slot.  The check looks at three numbers: all
scalars together, those of the key members, and the others.  The slots of a model are divided
between its key members and its other members, so once the first two numbers are right the third one
is right as well, and nothing is ever refused for it.

The slots of the other members are the difference of all slots and those of the key.  This file
follows the check in 64 bits (`checkCounts?`), where a sum or a difference that does not fit would
end it.  For a model of a resolved type that does not happen as long as the number of scalars fits
itself.
-/
import WordPacking.Proofs.Schema.SlotCounts

namespace WordPacking.Model

/-- The check in 64 bits.  It comes to nothing if a sum or a product on the way is too large, or a
difference below zero. -/
def checkCounts? (m : Model) (keys values : Nat) : Option (Except ModelError Unit) := do
  let found ← Shape.bounded (keys + values)
  let all ← m.schema.root.count?
  if found ≠ all then return .error (.scalarCount .record all found)
  let key ← m.schema.keyCount?
  if keys ≠ key then return .error (.scalarCount .keys key keys)
  let value ← m.schema.valueCount?
  if values ≠ value then return .error (.scalarCount .values value values)
  return .ok ()

variable {m : Model} {k v : Nat}

lemma keySize_add_valueSize (m : Model) : m.keySize + m.valueSize = m.unpackedSize :=
  Nat.add_sub_cancel' m.schema.keySize_le_size

/-- The counts are refused for their sum, or else for the keys. -/
theorem checkCounts_eq_error_iff {e : ModelError} : m.checkCounts k v = .error e ↔
    k + v ≠ m.unpackedSize ∧ e = .scalarCount .record m.unpackedSize (k + v) ∨
    k + v = m.unpackedSize ∧ k ≠ m.keySize ∧ e = .scalarCount .keys m.keySize k := by
  have hsizes := m.keySize_add_valueSize
  unfold checkCounts
  by_cases hall : k + v = m.unpackedSize
  · rw [if_neg (not_not_intro hall)]
    by_cases hkeys : k = m.keySize
    · -- the two numbers that are right leave only one number for the values
      have hvalues : v = m.valueSize := by omega
      rw [if_neg (not_not_intro hkeys), if_neg (not_not_intro hvalues)]
      simp [hall, ← hkeys]
    · rw [if_pos hkeys]
      simp [hall, hkeys, eq_comm]
  · rw [if_pos hall]
    simp [hall, eq_comm]

lemma checkCounts?_eq (hm : m.schema.root.Addressable) (hcounts : k + v < 2 ^ 64) :
    m.checkCounts? k v = some (m.checkCounts k v) := by
  have hfound : Shape.bounded (k + v) = some (k + v) := if_pos hcounts
  have hall : m.schema.root.count? = some m.unpackedSize :=
    Shape.count?_eq_some_iff.mpr ⟨rfl, hm⟩
  have hkey : m.schema.keyCount? = some m.keySize := Schema.keyCount?_eq hm
  have hvalue : m.schema.valueCount? = some m.valueSize := Schema.valueCount?_eq hm
  simp only [checkCounts?, hfound, hall, hkey, hvalue, Option.bind_eq_bind, Option.bind_some,
    checkCounts]
  split
  · rfl
  · split
    · rfl
    · split <;> rfl

/-- **The check of the counts is exact, and never about the values.**  The slots of the key members
and those of the other members make up all slots, of which the layout has as many.  The counts are
right exactly when both of them are.  They are refused for their sum exactly when that is wrong, and
for the keys exactly when the sum is right and the keys are not; there is no other error, so none is
about the values.  For a model of a resolved type, the check does not leave 64 bits at any step if
the sum of the two counts does not. -/
theorem counts_checked_exactly (m : Model) :
    m.keySize + m.valueSize = m.unpackedSize ∧ m.unpackedSize = m.layout.widths.length ∧
    m.valueSize = total (m.schema.valueMembers.map (·.body.size)) ∧
    ∀ k v,
      (m.checkCounts k v = .ok () ↔ k = m.keySize ∧ v = m.valueSize) ∧
      (m.checkCounts k v = .error (.scalarCount .record m.unpackedSize (k + v)) ↔
        k + v ≠ m.unpackedSize) ∧
      (m.checkCounts k v = .error (.scalarCount .keys m.keySize k) ↔
        k + v = m.unpackedSize ∧ k ≠ m.keySize) ∧
      (∀ e, m.checkCounts k v = .error e →
        e = .scalarCount .record m.unpackedSize (k + v) ∨ e = .scalarCount .keys m.keySize k) ∧
      (∀ expected found, m.checkCounts k v ≠ .error (.scalarCount .values expected found)) ∧
      ∀ s d, ofDecl s d = .ok m → k + v < 2 ^ 64 →
        m.checkCounts? k v = some (m.checkCounts k v) := by
  refine ⟨m.keySize_add_valueSize, m.schema.size_layout.symm, m.valueSize_eq,
    fun k v => ⟨checkCounts_eq_ok_iff, ?_, ?_, fun e he => ?_, fun expected found he => ?_,
      fun s d hm hcounts => ?_⟩⟩
  · simp [checkCounts_eq_error_iff]
  · simp [checkCounts_eq_error_iff]
  · rcases checkCounts_eq_error_iff.mp he with ⟨-, rfl⟩ | ⟨-, -, rfl⟩
    · exact .inl rfl
    · exact .inr rfl
  · rcases checkCounts_eq_error_iff.mp he with ⟨-, h⟩ | ⟨-, -, h⟩
    · cases h
    · cases h
  · exact checkCounts?_eq (Scope.addressable_of_resolve (ofDecl_eq_ok_iff.mp hm)) hcounts

/-- A key of two slots between members of one slot each.  Two keys and one value are refused as a
whole, and one key and three values for the keys. -/
theorem counts_of_moves_checked :
    let s : Scope := ⟨.standardFor 64, .empty, 64⟩
    let moves : Decl := .struct "Moves" .empty [
      ⟨"last", Decl.primitive "u8", .empty⟩,
      ⟨"players", .array 2 (Decl.primitive "u16"), .key⟩,
      ⟨"left", Decl.primitive "u8", .empty⟩]
    ∃ m, ofDecl s moves = .ok m ∧ m.checkCounts? 2 2 = some (.ok ()) ∧
      m.checkCounts? 2 1 = some (.error (.scalarCount .record 4 3)) ∧
      m.checkCounts? 1 3 = some (.error (.scalarCount .keys 2 1)) := by
  intro s moves
  let m : Model := ⟨"Moves", .empty, [
    ⟨"last", .leaf ⟨"u8", 8⟩, .empty⟩,
    ⟨"players", .array 2 (.leaf ⟨"u16", 16⟩), .key⟩,
    ⟨"left", .leaf ⟨"u8", 8⟩, .empty⟩], 64, rfl⟩
  have hm : ofDecl s moves = .ok m := by
    simp only [moves, Decl.primitive, ofDecl, Scope.resolve, Scope.expand, Scope.expandMembers]
    rfl
  obtain ⟨-, -, -, hcheck⟩ := counts_checked_exactly m
  obtain ⟨hright, -, -, -, -, hright?⟩ := hcheck 2 2
  obtain ⟨-, hrecord, -, -, -, hrecord?⟩ := hcheck 2 1
  obtain ⟨-, -, hkeys, -, -, hkeys?⟩ := hcheck 1 3
  refine ⟨m, hm, ?_, ?_, ?_⟩
  · rw [hright? s moves hm (by decide), hright.mpr ⟨rfl, rfl⟩]
  · rw [hrecord? s moves hm (by decide)]
    exact congrArg some (hrecord.mpr (by decide))
  · rw [hkeys? s moves hm (by decide)]
    exact congrArg some (hkeys.mpr ⟨rfl, by decide⟩)

end WordPacking.Model
