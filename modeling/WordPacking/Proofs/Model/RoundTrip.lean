/-
# Records survive packing

Packing a record checks the counts of its two sides, interleaves them and hands the scalars to
the codec; unpacking goes the same way back.  Each of the steps is invertible where the others
succeed.  That is enough for one direction and for the other: what the codec unpacks has as many
scalars as the layout has slots, and these are as many as the two sides have together.
-/
import WordPacking.Proofs.Codec.RoundTrip
import WordPacking.Proofs.Model.Interleave
import WordPacking.Proofs.Schema.Widths

namespace WordPacking.Model

variable {m : Model} {keys values words : List Nat}

/-! ## When packing and unpacking succeed -/

lemma pack_eq_ok_iff :
    m.pack keys values = .ok words ↔
      (keys.length = m.keySize ∧ values.length = m.valueSize) ∧
        m.layout.pack (interleave m.members keys values) = .ok words := by
  rw [← checkCounts_eq_ok_iff, pack]
  cases hcounts : m.checkCounts keys.length values.length with
  | error mismatch => simp
  | ok u => cases m.layout.pack (interleave m.members keys values) <;> simp [Except.mapError]

lemma unpack_eq_ok_iff :
    m.unpack words = .ok (keys, values) ↔
      ∃ scalars, m.layout.unpack words = .ok scalars ∧
        split m.members scalars = (keys, values) := by
  rw [unpack]
  cases m.layout.unpack words <;> simp

/-- The codec unpacks as many scalars as the members have slots. -/
lemma length_of_unpack_eq_ok {scalars : List Nat} (h : m.layout.unpack words = .ok scalars) :
    scalars.length = Shape.sizeSum m.members := by
  rw [← Layout.pack_eq_ok_iff_unpack_eq_ok, Layout.pack_eq_ok_iff] at h
  have hsize : m.layout.size = m.unpackedSize := m.schema.size_layout
  rw [h.1.length_eq, ← m.unpackedSize_eq, ← hsize, Layout.size]

/-- A record is packed into words exactly when the words are unpacked into the record. -/
lemma pack_eq_ok_iff_unpack_eq_ok :
    m.pack keys values = .ok words ↔ m.unpack words = .ok (keys, values) := by
  rw [pack_eq_ok_iff, unpack_eq_ok_iff]
  constructor
  · rintro ⟨⟨hkeys, hvalues⟩, hpack⟩
    rw [m.valueSize_eq] at hvalues
    have hsupplied := supplied_of_length hkeys hvalues
    exact ⟨_, Layout.pack_eq_ok_iff_unpack_eq_ok.mp hpack, hsupplied.split_interleave⟩
  · rintro ⟨scalars, hunpack, hsplit⟩
    -- no count is checked on the way back, so the lengths come from the layout
    have hlength : scalars.length = Shape.sizeSum m.members := length_of_unpack_eq_ok hunpack
    obtain ⟨hkeys, hvalues⟩ := length_split hlength
    have hinterleave := interleave_split hlength
    rw [hsplit] at hkeys hvalues hinterleave
    rw [← m.valueSize_eq] at hvalues
    refine ⟨⟨hkeys, hvalues⟩, ?_⟩
    rw [hinterleave]
    exact Layout.pack_eq_ok_iff_unpack_eq_ok.mpr hunpack

/-- **A record survives packing.**  For a model of a resolved schema, keys and values that are
packed make as many words as the model takes, and are unpacked from these words; and words that
are unpacked into keys and values are packed from them. -/
theorem pack_unpack_round_trip {s : Scope} {d : Decl} {schema : Schema} {m : Model}
    (hschema : s.resolve d = .ok schema) (hm : ofSchema schema = .ok m) :
    (∀ keys values words, m.pack keys values = .ok words →
      words.length = m.packedSize ∧ m.unpack words = .ok (keys, values)) ∧
    ∀ keys values words, m.unpack words = .ok (keys, values) →
      m.pack keys values = .ok words := by
  have hvalid : m.layout.Valid := by
    have hlayout : schema.layout.Valid := Scope.valid_layout_of_resolve hschema
    rwa [ofSchema_eq_ok_iff.mp hm] at hlayout
  constructor
  · intro keys values words h
    obtain ⟨-, hpack⟩ := pack_eq_ok_iff.mp h
    exact ⟨Layout.length_of_pack_eq_ok hvalid hpack, pack_eq_ok_iff_unpack_eq_ok.mp h⟩
  · intro keys values words h
    exact pack_eq_ok_iff_unpack_eq_ok.mpr h

/-- A record in two words.  Keys and other members alternate, one member of each side has no
slot, and the last member has two. -/
theorem pack_unpack_moves :
    let s : Scope := ⟨.standardFor 64, .empty, 64⟩
    let d : Decl := .struct "Moves" .empty [
      ⟨"last", .array 2 (Decl.primitive "u16"), .empty⟩,
      ⟨"player", Decl.primitive "u8", .key⟩,
      ⟨"marker", Decl.unit, .empty⟩,
      ⟨"unused", .array 0 (Decl.primitive "u8"), .key⟩,
      ⟨"facing", .enum "Facing" [⟨"Away", Decl.unit⟩, ⟨"To", Decl.primitive "u64"⟩], .key⟩]
    let words := [300 + 2 <<< 16 + 9 <<< 32 + 1 <<< 40, 5]
    ∃ schema m, s.resolve d = .ok schema ∧ ofSchema schema = .ok m ∧
      m.pack [9, 1, 5] [300, 2] = .ok words ∧ words.length = m.packedSize ∧
      m.unpack words = .ok ([9, 1, 5], [300, 2]) := by
  intro s d words
  have hschema : s.resolve d = .ok ⟨.struct "Moves" .empty [
      ⟨"last", .array 2 (.leaf ⟨"u16", 16⟩), .empty⟩,
      ⟨"player", .leaf ⟨"u8", 8⟩, .key⟩,
      ⟨"marker", .struct "()" .empty [], .empty⟩,
      ⟨"unused", .array 0 (.leaf ⟨"u8", 8⟩), .key⟩,
      ⟨"facing", .enum "Facing" [⟨"Away", .struct "()" .empty []⟩, ⟨"To", .leaf ⟨"u64", 64⟩⟩],
        .key⟩], 64⟩ := by
    simp only [s, d, Decl.primitive, Decl.unit, Scope.resolve, Scope.expand, Scope.expandMembers,
      Scope.expandVariants]
    rfl
  exact ⟨_, _, hschema, rfl, rfl, (pack_unpack_round_trip hschema rfl).1 _ _ _ rfl⟩

end WordPacking.Model
