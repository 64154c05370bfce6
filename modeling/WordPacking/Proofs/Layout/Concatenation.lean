/-
# One layout behind another

The first slots of a layout that is packed behind another one may still find room in the word that
is open, and then its words begin at other slots than they would if it were packed by itself.  The
two ways to pack it need not meet again, so they cannot be compared word by word.  They are
compared by `Ahead`, twice.  The packing that finds some room is ahead of the one that finds none,
so it opens no more words.  And the packing that finds no room is ahead as soon as the word that
the other one finds open is counted for that one, so that room saves one word at most.

With this the words of a concatenation are those of its parts or one less, and those of an array
follow by induction over the elements, each packed in front of the others.
-/
import WordPacking.Proofs.Layout.FewestWords
import WordPacking.Proofs.Layout.WiderWords
import WordPacking.Proofs.Scope.Resolution

namespace WordPacking

namespace Layout

variable {wordBits room : Nat}

/-! ## Room at the start -/

/-- No more room is left than a word has. -/
lemma roomAfter_le (hroom : room ≤ wordBits) (widths : List Nat) :
    roomAfter wordBits room widths ≤ wordBits := by
  induction widths generalizing room with
  | nil => exact hroom
  | cons width widths ih =>
    rw [roomAfter]
    split
    · exact ih (by omega)
    · exact ih (Nat.sub_le _ _)

/-- Room at the start costs no word. -/
lemma wordsOpened_le_of_room (wordBits room : Nat) (widths : List Nat) :
    wordsOpened wordBits room widths ≤ wordsOpened wordBits 0 widths := by
  have hahead : Ahead 0 room 0 0 := Or.inr ⟨rfl, Nat.zero_le room⟩
  have hwords : 0 + wordsOpened wordBits room widths ≤ 0 + wordsOpened wordBits 0 widths :=
    add_wordsOpened_le_of_ahead (Nat.le_refl wordBits) (Nat.zero_le wordBits) hahead
  rwa [Nat.zero_add, Nat.zero_add] at hwords

/-- Room at the start saves one word at most, the one that it is in. -/
lemma wordsOpened_le_succ_of_room (hroom : room ≤ wordBits) (widths : List Nat) :
    wordsOpened wordBits 0 widths ≤ wordsOpened wordBits room widths + 1 := by
  have hahead : Ahead 0 0 1 room := Or.inl Nat.zero_lt_one
  have hwords : 0 + wordsOpened wordBits 0 widths ≤ 1 + wordsOpened wordBits room widths :=
    add_wordsOpened_le_of_ahead (Nat.le_refl wordBits) hroom hahead
  omega

/-! ## Two layouts, and many copies of one -/

/-- The second part is packed with the room that the first one leaves. -/
lemma packedSize_append (a b : List Nat) (wordBits : Nat) :
    (⟨a ++ b, wordBits⟩ : Layout).packedSize =
      (⟨a, wordBits⟩ : Layout).packedSize + wordsOpened wordBits (roomAfter wordBits 0 a) b :=
  wordsOpened_append a b

lemma packedSize_append_le (a b : List Nat) (wordBits : Nat) :
    (⟨a ++ b, wordBits⟩ : Layout).packedSize ≤
      (⟨a, wordBits⟩ : Layout).packedSize + (⟨b, wordBits⟩ : Layout).packedSize := by
  rw [packedSize_append]
  exact Nat.add_le_add_left (wordsOpened_le_of_room wordBits _ b) _

lemma packedSize_add_le_succ (a b : List Nat) (wordBits : Nat) :
    (⟨a, wordBits⟩ : Layout).packedSize + (⟨b, wordBits⟩ : Layout).packedSize ≤
      (⟨a ++ b, wordBits⟩ : Layout).packedSize + 1 := by
  have hroom : roomAfter wordBits 0 a ≤ wordBits := roomAfter_le (Nat.zero_le wordBits) a
  rw [packedSize_append, Nat.add_assoc]
  exact Nat.add_le_add_left (wordsOpened_le_succ_of_room hroom b) _

lemma packedSize_replicate_le (widths : List Nat) (wordBits n : Nat) :
    (⟨(List.replicate n widths).flatten, wordBits⟩ : Layout).packedSize ≤
      n * (⟨widths, wordBits⟩ : Layout).packedSize := by
  induction n with
  | zero => exact Nat.zero_le _
  | succ n ih =>
    rw [List.replicate_succ, List.flatten_cons, Nat.succ_mul, Nat.add_comm]
    exact (packedSize_append_le _ _ _).trans (Nat.add_le_add_left ih _)

/-- Each copy but one saves a word at most. -/
lemma mul_packedSize_le_add (widths : List Nat) (wordBits n : Nat) :
    (n + 1) * (⟨widths, wordBits⟩ : Layout).packedSize ≤
      (⟨(List.replicate (n + 1) widths).flatten, wordBits⟩ : Layout).packedSize + n := by
  induction n with
  | zero => simp
  | succ n ih =>
    have hfirst := packedSize_add_le_succ widths (List.replicate (n + 1) widths).flatten wordBits
    rw [List.replicate_succ, List.flatten_cons, Nat.succ_mul]
    omega

end Layout

namespace Scope

variable {s : Scope} {capacity : UInt32}

/-- What is admitted as an array is admitted by itself. -/
lemma Admits.element {t : Shape String} (h : s.Admits (.array capacity t)) : s.Admits t where
  widths name hname := h.widths name (.element hname)
  enums name variants hpart := h.enums name variants (.element hpart)
  nesting := by
    have := h.nesting
    rw [Shape.nesting] at this
    omega
  slots p hp := h.slots p (.element hp)

/-- The element of an array is resolved with it. -/
lemma exists_resolve_element {element : Decl} {array : Schema}
    (h : s.resolve (.array capacity element) = .ok array) :
    ∃ schema, s.resolve element = .ok schema ∧
      array = ⟨.array capacity schema.root, schema.wordBits⟩ := by
  obtain ⟨t, ht, hadmits, rfl⟩ := resolve_eq_ok_iff.mp h
  obtain ⟨u, hu, rfl⟩ := Definitions.expands_array_iff.mp ht
  exact ⟨_, resolve_eq_ok_iff.mpr ⟨u, hu, hadmits.element, rfl⟩, rfl⟩

end Scope

namespace Layout

/-- **Packing one layout behind another saves one word at most.**  The words of a concatenation are
as many as those of its two parts together, or one less.  So an array, if it can be resolved, takes
as many words as its elements take one by one, or less, but no more than one less for every element
after the first. -/
theorem concatenation_saves_one_word :
    (∀ (a b : List Nat) (wordBits : Nat) (first second : Layout),
      ofWidths a wordBits = .ok first → ofWidths b wordBits = .ok second →
        ∃ both, ofWidths (a ++ b) wordBits = .ok both ∧
          (both.packedSize = first.packedSize + second.packedSize ∨
            both.packedSize + 1 = first.packedSize + second.packedSize)) ∧
    ∀ (s : Scope) (element : Decl) (capacity : UInt32) (array : Schema),
      s.resolve (.array capacity element) = .ok array →
        ∃ schema, s.resolve element = .ok schema ∧
          capacity.toNat * schema.layout.packedSize - (capacity.toNat - 1) ≤
            array.layout.packedSize ∧
          array.layout.packedSize ≤ capacity.toNat * schema.layout.packedSize := by
  constructor
  · intro a b wordBits first second hfirst hsecond
    obtain ⟨rfl, ha⟩ := ofWidths_eq_ok_iff.mp hfirst
    obtain ⟨rfl, hb⟩ := ofWidths_eq_ok_iff.mp hsecond
    have hboth : Valid ⟨a ++ b, wordBits⟩ := by
      intro w hw
      exact (List.mem_append.mp hw).elim (ha w) (hb w)
    have hle := packedSize_append_le a b wordBits
    have hge := packedSize_add_le_succ a b wordBits
    refine ⟨_, ofWidths_eq_ok_iff.mpr ⟨rfl, hboth⟩, ?_⟩
    omega
  · intro s element capacity array harray
    obtain ⟨schema, hschema, rfl⟩ := Scope.exists_resolve_element harray
    have hlayout : Schema.layout ⟨.array capacity schema.root, schema.wordBits⟩ =
        ⟨(List.replicate capacity.toNat schema.layout.widths).flatten, schema.wordBits⟩ := by
      rw [Schema.layout, Shape.widths_array]
      rfl
    rw [hlayout]
    refine ⟨schema, hschema, ?_, packedSize_replicate_le _ _ _⟩
    cases capacity.toNat with
    | zero => simp
    | succ n =>
      have hcopies := mul_packedSize_le_add schema.layout.widths schema.wordBits n
      rw [Nat.succ_sub_one, Nat.sub_le_iff_le_add]
      exact hcopies

/-- Records that fill half of their second word, three in five words.  The second record goes on in
the second word of the first, the third record begins a word of its own. -/
theorem three_records_in_five_words :
    let s : Scope := ⟨.standardFor 64, .empty, 64⟩
    let d : Decl := .struct "Reading" .empty [
      ⟨"sensor", Decl.primitive "u32", .key⟩,
      ⟨"time", Decl.primitive "u32", .key⟩,
      ⟨"level", Decl.primitive "u32", .empty⟩]
    ∃ schema array, s.resolve d = .ok schema ∧ s.resolve (.array 3 d) = .ok array ∧
      schema.layout.packedSize = 2 ∧ array.layout.packedSize = 5 ∧
      3 * schema.layout.packedSize - (3 - 1) ≤ array.layout.packedSize ∧
      array.layout.packedSize ≤ 3 * schema.layout.packedSize := by
  intro s d
  have hschema : s.resolve d = .ok ⟨.struct "Reading" .empty [
      ⟨"sensor", .leaf ⟨"u32", 32⟩, .key⟩,
      ⟨"time", .leaf ⟨"u32", 32⟩, .key⟩,
      ⟨"level", .leaf ⟨"u32", 32⟩, .empty⟩], 64⟩ := by
    simp only [s, d, Decl.primitive, Scope.resolve, Scope.expand, Scope.expandMembers]
    rfl
  have harray : s.resolve (.array 3 d) = .ok ⟨.array 3 (.struct "Reading" .empty [
      ⟨"sensor", .leaf ⟨"u32", 32⟩, .key⟩,
      ⟨"time", .leaf ⟨"u32", 32⟩, .key⟩,
      ⟨"level", .leaf ⟨"u32", 32⟩, .empty⟩]), 64⟩ := by
    simp only [s, d, Decl.primitive, Scope.resolve, Scope.expand, Scope.expandMembers]
    rfl
  obtain ⟨schema, hschema', hge, hle⟩ := concatenation_saves_one_word.2 s d 3 _ harray
  obtain rfl := Except.ok.inj (hschema.symm.trans hschema')
  exact ⟨_, _, hschema, harray, rfl, rfl, hge, hle⟩

end Layout

end WordPacking
