/-
# The words of a packed record

The number of words of a packed record shows in four places: it is counted from the layout, the plan
has as many groups, packing returns as many words, and unpacking asks for as many.  A model takes
it from its layout each time.  In this file all of these are proved to be one number.
-/
import WordPacking.Proofs.Codec.Refusal
import WordPacking.Proofs.Model.RoundTrip
import WordPacking.Proofs.Plan.Count

namespace WordPacking

namespace Codec

/-- Zeros fit all slots. -/
lemma fits_replicate_zero (widths : List Nat) : Fits widths (List.replicate widths.length 0) := by
  induction widths with
  | nil => trivial
  | cons width widths ih => exact ⟨Nat.two_pow_pos width, ih⟩

end Codec

namespace Layout

variable {l : Layout} {words : List Nat} {expected found : Nat}

/-- Unpacking refuses words for their number exactly when there are not as many as the plan has,
whatever they are. -/
lemma unpack_eq_error_wordCount_iff :
    l.unpack words = .error (.wordCount expected found) ↔
      expected = l.plan.wordCount ∧ found = words.length ∧ found ≠ expected := by
  by_cases hlength : words.length = l.plan.wordCount
  · -- if the number is right, a word is refused for its bits
    constructor
    · intro h
      obtain ⟨k, used, word, -, hstray⟩ := (unpack_eq_error_iff hlength).mp h
      cases hstray
    · rintro ⟨rfl, rfl, hne⟩
      exact absurd hlength hne
  · rw [unpack, if_pos hlength]
    constructor
    · rintro ⟨⟩
      exact ⟨rfl, rfl, hlength⟩
    · rintro ⟨rfl, rfl, -⟩
      rfl

/-- Some words can be unpacked, those that are zero for one. -/
lemma unpack_replicate_zero (l : Layout) :
    ∃ values, l.unpack (List.replicate l.plan.wordCount 0) = .ok values := by
  have hfits := Codec.fits_replicate_zero (l.plan.words.map total)
  rw [List.length_map] at hfits
  exact ⟨_, unpack_eq_ok_iff.mpr ⟨hfits, rfl⟩⟩

end Layout

namespace Model

variable {m : Model} {words : List Nat} {expected found : Nat}

lemma unpack_eq_error_wordCount_iff :
    m.unpack words = .error (.codec (.wordCount expected found)) ↔
      expected = m.layout.plan.wordCount ∧ found = words.length ∧ found ≠ expected := by
  rw [← Layout.unpack_eq_error_wordCount_iff, unpack]
  cases m.layout.unpack words <;> simp

lemma unpack_replicate_zero (m : Model) :
    ∃ keys values, m.unpack (List.replicate m.layout.plan.wordCount 0) = .ok (keys, values) := by
  obtain ⟨scalars, hscalars⟩ := m.layout.unpack_replicate_zero
  exact ⟨_, _, unpack_eq_ok_iff.mpr ⟨scalars, hscalars, rfl⟩⟩

end Model

namespace Layout

/-- **All counts of words agree.**  For a layout that is made of widths, or comes from a resolved
type, the loop that counts the words ends without a failed subtraction; it counts the groups of the
plan.  What packing returns has this number of words and no other, and unpacking refuses words
for their number exactly when there are more or fewer.  The same goes for every model that has the
layout. -/
theorem word_counts_agree {l : Layout}
    (hl : (∃ widths wordBits, ofWidths widths wordBits = .ok l) ∨
      ∃ (s : Scope) (d : Decl) (schema : Schema), s.resolve d = .ok schema ∧ schema.layout = l) :
    l.packedSize = l.plan.wordCount ∧
    (∃ room, Plan.count? l.wordBits l.widths = some ⟨l.packedSize, room⟩) ∧
    (∀ n, (∃ values words, l.pack values = .ok words ∧ words.length = n) ↔ n = l.packedSize) ∧
    (∀ words expected found, l.unpack words = .error (.wordCount expected found) ↔
      expected = l.packedSize ∧ found = words.length ∧ found ≠ expected) ∧
    ∀ m : Model, m.layout = l →
      m.packedSize = l.packedSize ∧
      (∀ n, (∃ keys values words, m.pack keys values = .ok words ∧ words.length = n) ↔
        n = l.packedSize) ∧
      ∀ words expected found, m.unpack words = .error (.codec (.wordCount expected found)) ↔
        expected = l.packedSize ∧ found = words.length ∧ found ≠ expected := by
  have hvalid : l.Valid := by
    rcases hl with ⟨widths, wordBits, hl⟩ | ⟨s, d, schema, hschema, rfl⟩
    · exact (ofWidths_eq_ok_iff.mp hl).2
    · exact Scope.valid_layout_of_resolve hschema
  have hcount : l.packedSize = l.plan.wordCount := packedSize_eq_wordCount hvalid
  refine ⟨hcount, ⟨_, Plan.count?_eq hvalid⟩, fun n => ?_, fun words expected found => ?_, ?_⟩
  · constructor
    · rintro ⟨values, words, hpack, rfl⟩
      exact length_of_pack_eq_ok hvalid hpack
    · rintro rfl
      obtain ⟨values, hvalues⟩ := l.unpack_replicate_zero
      exact ⟨values, _, pack_eq_ok_iff_unpack_eq_ok.mpr hvalues,
        by rw [List.length_replicate, hcount]⟩
  · rw [hcount]
    exact unpack_eq_error_wordCount_iff
  · rintro m rfl
    refine ⟨rfl, fun n => ?_, fun words expected found => ?_⟩
    · constructor
      · rintro ⟨keys, values, words, hpack, rfl⟩
        exact length_of_pack_eq_ok hvalid (Model.pack_eq_ok_iff.mp hpack).2
      · rintro rfl
        obtain ⟨keys, values, hrecord⟩ := m.unpack_replicate_zero
        exact ⟨keys, values, _, Model.pack_eq_ok_iff_unpack_eq_ok.mpr hrecord,
          by rw [List.length_replicate, hcount]⟩
    · rw [hcount]
      exact Model.unpack_eq_error_wordCount_iff

/-- A record in three words.  Two slots fill the first word to its last bit, and the three levels
leave the second one without room for the last slot. -/
theorem three_words_of_reading :
    let s : Scope := ⟨.standardFor 64, .empty, 64⟩
    let d : Decl := .struct "Reading" .empty [
      ⟨"sensor", Decl.primitive "u32", .key⟩,
      ⟨"time", Decl.primitive "u32", .key⟩,
      ⟨"levels", .array 3 (Decl.primitive "u16"), .empty⟩,
      ⟨"sum", Decl.primitive "u32", .empty⟩]
    ∃ schema, s.resolve d = .ok schema ∧ schema.layout = ⟨[32, 32, 16, 16, 16, 32], 64⟩ ∧
      3 = schema.layout.plan.wordCount ∧
      (∃ room, Plan.count? 64 [32, 32, 16, 16, 16, 32] = some ⟨3, room⟩) ∧
      ∃ m : Model, Model.ofSchema schema = .ok m ∧ m.packedSize = 3 ∧
        ∀ words expected found, m.unpack words = .error (.codec (.wordCount expected found)) ↔
          expected = 3 ∧ found = words.length ∧ found ≠ expected := by
  intro s d
  have hschema : s.resolve d = .ok ⟨.struct "Reading" .empty [
      ⟨"sensor", .leaf ⟨"u32", 32⟩, .key⟩,
      ⟨"time", .leaf ⟨"u32", 32⟩, .key⟩,
      ⟨"levels", .array 3 (.leaf ⟨"u16", 16⟩), .empty⟩,
      ⟨"sum", .leaf ⟨"u32", 32⟩, .empty⟩], 64⟩ := by
    simp only [s, d, Decl.primitive, Scope.resolve, Scope.expand, Scope.expandMembers]
    rfl
  obtain ⟨hcount, hloop, -, -, hmodel⟩ := word_counts_agree (Or.inr ⟨s, d, _, hschema, rfl⟩)
  obtain ⟨hsize, -, hunpack⟩ := hmodel ⟨"Reading", .empty, [
      ⟨"sensor", .leaf ⟨"u32", 32⟩, .key⟩,
      ⟨"time", .leaf ⟨"u32", 32⟩, .key⟩,
      ⟨"levels", .array 3 (.leaf ⟨"u16", 16⟩), .empty⟩,
      ⟨"sum", .leaf ⟨"u32", 32⟩, .empty⟩], 64, rfl⟩ rfl
  exact ⟨_, hschema, rfl, hcount, hloop, _, rfl, hsize, hunpack⟩

end Layout

end WordPacking
