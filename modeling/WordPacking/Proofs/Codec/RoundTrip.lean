/-
# The codec is a bijection

Joining and splitting words are inverse to each other: joining on the values that fit their
slots, splitting on the words that have no bit outside their slots.  Packing refuses all other
values and unpacking all other words, so the two are inverse to each other wherever one of them
succeeds.

Nothing of this depends on where the words are cut, only on that the slots of the words, one
word after the other, are the slots of the layout.
-/
import WordPacking.Proofs.Codec.Rows

namespace WordPacking.Layout

open Codec

variable {l : Layout} {values words : List Nat}

/-- Values are packed into words exactly when the words are unpacked into the values. -/
lemma pack_eq_ok_iff_unpack_eq_ok : l.pack values = .ok words ↔ l.unpack words = .ok values := by
  rw [pack_eq_ok_iff, unpack_eq_ok_iff]
  constructor
  · rintro ⟨hfits, rfl⟩
    rw [← l.flatten_words_plan] at hfits
    exact ⟨fits_joinWords hfits, (splitWords_joinWords hfits).symm⟩
  · rintro ⟨hfits, rfl⟩
    have hlength : words.length = l.plan.words.length := by simpa using hfits.length_eq
    have hvalues : Fits l.plan.words.flatten (splitWords l.plan.words words) :=
      fits_splitWords hlength
    rw [l.flatten_words_plan] at hvalues
    exact ⟨hvalues, (joinWords_splitWords hfits).symm⟩

lemma length_eq_wordCount (h : l.pack values = .ok words) : words.length = l.plan.wordCount := by
  obtain ⟨-, rfl⟩ := pack_eq_ok_iff.mp h
  exact length_joinWords _ _

lemma length_of_pack_eq_ok (hl : l.Valid) (h : l.pack values = .ok words) :
    words.length = l.packedSize := by
  rw [length_eq_wordCount h, packedSize_eq_wordCount hl]

/-- **Packing and unpacking are inverse to each other.**  Values that are packed are unpacked
from their words, and words that are unpacked are packed from their values.  So different values
have different words, and the words that values are packed into are just those that can be
unpacked. -/
theorem pack_unpack_bijection (l : Layout) :
    (∀ values words, l.pack values = .ok words → l.unpack words = .ok values) ∧
    (∀ values words, l.unpack words = .ok values → l.pack values = .ok words) ∧
    (∀ values values' words, l.pack values = .ok words → l.pack values' = .ok words →
      values = values') ∧
    ∀ words, (∃ values, l.pack values = .ok words) ↔ ∃ values, l.unpack words = .ok values := by
  refine ⟨?_, ?_, ?_, ?_⟩
  · intro values words h
    exact pack_eq_ok_iff_unpack_eq_ok.mp h
  · intro values words h
    exact pack_eq_ok_iff_unpack_eq_ok.mpr h
  · intro values values' words h h'
    rw [pack_eq_ok_iff_unpack_eq_ok] at h h'
    rw [h, Except.ok.injEq] at h'
    exact h'
  · intro words
    exact exists_congr fun values => pack_eq_ok_iff_unpack_eq_ok

/-- Two slots share the first byte and the third one has the second byte for itself.  A word of nine
bits is not made of any values. -/
theorem three_slots_in_two_bytes :
    let l : Layout := ⟨[4, 4, 8], 8⟩
    l.pack [5, 10, 255] = .ok [165, 255] ∧ l.unpack [165, 255] = .ok [5, 10, 255] ∧
      l.unpack [80, 7] = .ok [0, 5, 7] ∧ l.pack [0, 5, 7] = .ok [80, 7] ∧
      (∀ values, l.pack values = .ok [165, 255] → values = [5, 10, 255]) ∧
      l.unpack [165, 256] = .error (.strayBits 1) ∧ ¬ ∃ values, l.pack values = .ok [165, 256] := by
  intro l
  obtain ⟨hunpack, hpack, hunique, himage⟩ := pack_unpack_bijection l
  have hpacked : l.pack [5, 10, 255] = .ok [165, 255] := by decide
  have hunpacked : l.unpack [80, 7] = .ok [0, 5, 7] := by decide
  have hwide : l.unpack [165, 256] = .error (.strayBits 1) := by decide
  refine ⟨hpacked, hunpack _ _ hpacked, hunpacked, hpack _ _ hunpacked,
    fun values h => hunique _ _ _ h hpacked, hwide, fun h => ?_⟩
  obtain ⟨values, hvalues⟩ := (himage [165, 256]).mp h
  rw [hwide] at hvalues
  cases hvalues

end WordPacking.Layout
