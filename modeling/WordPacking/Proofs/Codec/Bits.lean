/-
# The bits of packed words

Packing puts one value after the other into words that are zero at first, and each time adds bits
to one word and removes none (`testBit_foldl_orInto`).  So a bit of a packed word is set exactly
when a slot of the plan covers it and the value of this slot has the bit that falls there
(`testBit_pack_iff`); as the value fits, none of its bits falls outside the slot.  Another value for
one slot therefore changes no bit but those of that slot (`exists_pack_set_covers`).

As numbers, the values of a word are the digits of the word at the offsets of their slots, and the
word is the sum of the digits times their weights (`getElem?_joinWords_eq_total`).
-/
import WordPacking.Proofs.Codec.Refusal
import WordPacking.Proofs.Codec.Slots
import WordPacking.Proofs.Plan.Greedy

namespace WordPacking

namespace Codec

/-! ## A word as a sum -/

lemma joinWord_mul_eq_total {widths values : List Nat} (h : Fits widths values)
    (word offset : Nat) :
    joinWord widths values * 2 ^ offset =
      total (((Plan.slotsInWord word offset widths).zip values).map fun e =>
        e.2 * 2 ^ e.1.offset) := by
  induction widths generalizing values offset with
  | nil => simp [joinWord, Plan.slotsInWord]
  | cons width widths ih =>
    cases values with
    | nil => exact h.elim
    | cons value values =>
      obtain ⟨hvalue, hrest⟩ := h
      rw [joinWord_cons widths values hvalue, Plan.slotsInWord, List.zip_cons_cons, List.map_cons,
        total_cons, ← ih hrest, Nat.add_mul, Nat.mul_assoc, ← Nat.pow_add, Nat.add_comm width]

/-- A packed word is the sum of the values of its slots, each times the weight of its slot. -/
theorem getElem?_joinWords_eq_total {groups : List (List Nat)} {values : List Nat}
    (h : Fits groups.flatten values) (word : Nat) {k w : Nat}
    (hw : (joinWords groups values)[k]? = some w) :
    w = total ((((Plan.slotsInWords word groups).zip values).filter fun e =>
      e.1.word = word + k).map fun e => e.2 * 2 ^ e.1.offset) := by
  induction groups generalizing values word k with
  | nil => cases hw
  | cons group groups ih =>
    have hlength : group.length ≤ values.length := by
      rw [h.length_eq, List.flatten_cons, List.length_append]
      omega
    obtain ⟨hgroup, hrest⟩ := fits_append.mp h
    rw [joinWords] at hw
    rw [Plan.zip_slotsInWords_cons hlength, List.filter_append,
      Plan.filter_word_eq_ite fun e he => Plan.word_of_mem_slotsInWord (List.of_mem_zip he).1]
    cases k with
    | zero =>
      obtain rfl := Option.some.inj hw
      have hlater : ∀ e ∈ (Plan.slotsInWords (word + 1) groups).zip (values.drop group.length),
          word + 1 ≤ e.1.word :=
        fun e he => Plan.le_word_of_mem_slotsInWords (List.of_mem_zip he).1
      rw [Nat.add_zero, if_pos rfl, Plan.filter_word_eq_nil hlater (Nat.lt_succ_self word),
        List.append_nil, ← joinWord_mul_eq_total hgroup, Nat.pow_zero, Nat.mul_one]
    | succ k =>
      have hword : word + (k + 1) = word + 1 + k := by omega
      rw [if_neg (by omega), List.nil_append, hword]
      exact ih hrest (word + 1) hw

/-! ## The bits that the loop sets -/

/-- One turn of the loop adds the bits of the value to the word of its slot. -/
lemma testBit_orInto {words : List Nat} {entry : Slot × Nat} (h : entry.1.word < words.length)
    (k bit : Nat) :
    ((orInto words entry).getD k 0).testBit bit = true ↔
      (words.getD k 0).testBit bit = true ∨
        entry.1.word = k ∧ (entry.2 <<< entry.1.offset).testBit bit = true := by
  rw [List.getD_eq_getElem?_getD, List.getD_eq_getElem?_getD, orInto, List.getElem?_modify]
  by_cases hk : entry.1.word = k
  · subst hk
    simp [List.getElem?_eq_getElem h, Nat.testBit_or]
  · simp [hk]

lemma testBit_foldl_orInto {entries : List (Slot × Nat)} {words : List Nat}
    (h : ∀ e ∈ entries, e.1.word < words.length) (k bit : Nat) :
    ((entries.foldl orInto words).getD k 0).testBit bit = true ↔
      (words.getD k 0).testBit bit = true ∨
        ∃ e ∈ entries, e.1.word = k ∧ (e.2 <<< e.1.offset).testBit bit = true := by
  induction entries generalizing words with
  | nil => simp
  | cons entry entries ih =>
    obtain ⟨hentry, hentries⟩ := List.forall_mem_cons.mp h
    have hlength : (orInto words entry).length = words.length := by simp [orInto]
    rw [List.foldl_cons, ih (by rwa [hlength]), testBit_orInto hentry, List.exists_mem_cons_iff,
      or_assoc]

/-- The bits of a value that fits come to lie inside its slot. -/
lemma testBit_shiftLeft_offset {s : Slot} {value : Nat} (h : value < 2 ^ s.width) (bit : Nat) :
    (value <<< s.offset).testBit bit = true ↔
      s.Covers s.word bit ∧ value.testBit (bit - s.offset) = true := by
  rw [Nat.testBit_shiftLeft, Bool.and_eq_true, decide_eq_true_eq, Slot.Covers]
  refine and_congr_left fun hbit => ?_
  have hlt : bit - s.offset < s.width := by
    by_contra hge
    have hle : value < 2 ^ (bit - s.offset) :=
      Nat.lt_of_lt_of_le h (Nat.pow_le_pow_right Nat.two_pos (Nat.le_of_not_lt hge))
    rw [Nat.testBit_lt_two_pow hle] at hbit
    cases hbit
  omega

end Codec

namespace Layout

open Codec

variable {l : Layout} {values words : List Nat} {i value : Nat} {s : Slot}

/-! ## Slots, values and words -/

lemma width_of_getElem?_slots (hs : l.plan.slots[i]? = some s) : l.widths[i]? = some s.width := by
  rw [← (Plan.greedy_slots l).widths, List.getElem?_map, hs]
  rfl

lemma lt_of_getElem?_slots (hfits : Fits l.widths values) (hs : l.plan.slots[i]? = some s)
    (hvalue : values[i]? = some value) : value < 2 ^ s.width := by
  obtain ⟨width, hwidth, hlt⟩ := (fits_iff.mp hfits).2 i value hvalue
  obtain rfl := Option.some.inj ((width_of_getElem?_slots hs).symm.trans hwidth)
  exact hlt

/-- A bit of a packed word is set when a slot covers it and the value of the slot has it. -/
theorem testBit_pack_iff (hpack : l.pack values = .ok words) (k bit : Nat) :
    (words.getD k 0).testBit bit = true ↔
      ∃ (i : Nat) (s : Slot) (value : Nat), l.plan.slots[i]? = some s ∧ values[i]? = some value ∧
        s.Covers k bit ∧ value.testBit (bit - s.offset) = true := by
  obtain ⟨hfits, rfl⟩ := pack_eq_ok_iff_orWords.mp hpack
  have hwords : ∀ e ∈ l.plan.slots.zip values,
      e.1.word < (List.replicate l.plan.wordCount 0).length := by
    rintro ⟨s, value⟩ he
    rw [List.length_replicate]
    exact Plan.word_lt_of_mem_slots (List.of_mem_zip he).1
  have hzero : ((List.replicate l.plan.wordCount 0).getD k 0).testBit bit = false := by
    rw [List.getD_eq_getElem?_getD, List.getElem?_replicate]
    split <;> simp
  rw [orWords, testBit_foldl_orInto hwords, hzero]
  simp only [Bool.false_eq_true, false_or, List.mem_iff_getElem?, List.getElem?_zip_eq_some]
  constructor
  · rintro ⟨⟨s, value⟩, ⟨i, hs, hvalue⟩, rfl, hbit⟩
    have hlt := lt_of_getElem?_slots hfits hs hvalue
    obtain ⟨hcovers, hbit⟩ := (testBit_shiftLeft_offset hlt bit).mp hbit
    exact ⟨i, s, value, hs, hvalue, hcovers, hbit⟩
  · rintro ⟨i, s, value, hs, hvalue, hcovers, hbit⟩
    have hlt := lt_of_getElem?_slots hfits hs hvalue
    obtain rfl := hcovers.1
    exact ⟨(s, value), ⟨i, hs, hvalue⟩, rfl,
      (testBit_shiftLeft_offset hlt bit).mpr ⟨hcovers, hbit⟩⟩

/-! ## Another value for one slot -/

/-- Values with another one for one slot, which fits it, can be packed as well, and no bit outside
the slot changes. -/
lemma exists_pack_set_covers (hpack : l.pack values = .ok words)
    (hs : l.plan.slots[i]? = some s) (hvalue : value < 2 ^ s.width) :
    ∃ words', l.pack (values.set i value) = .ok words' ∧
      ∀ k bit, ¬ s.Covers k bit →
        (words'.getD k 0).testBit bit = (words.getD k 0).testBit bit := by
  obtain ⟨hlength, hfits⟩ := exists_pack_eq_ok_iff.mp ⟨words, hpack⟩
  have hset : (values.set i value).length = l.size ∧
      EachFits (l.widths[·]?) ((values.set i value)[·]?) := by
    refine ⟨by rw [List.length_set, hlength], fun j v hv => ?_⟩
    simp only [List.getElem?_set] at hv
    split at hv
    · next hj =>
      subst hj
      split at hv
      · cases hv
        exact ⟨s.width, width_of_getElem?_slots hs, hvalue⟩
      · cases hv
    · exact hfits j v hv
  obtain ⟨words', hpack'⟩ := exists_pack_eq_ok_iff.mpr hset
  refine ⟨words', hpack', fun k bit hcovers => ?_⟩
  rw [Bool.eq_iff_iff, testBit_pack_iff hpack, testBit_pack_iff hpack']
  refine exists_congr fun j => exists_congr fun t => exists_congr fun v => ?_
  refine and_congr_right fun ht => ?_
  -- the slot of the new value does not cover the bit, and the other slots keep their values
  by_cases hj : i = j
  · subst hj
    obtain rfl := Option.some.inj (hs.symm.trans ht)
    simp [hcovers]
  · rw [List.getElem?_set_ne hj]

lemma getElem?_eq_of_testBit {words words' : List Nat} (hlength : words'.length = words.length)
    {k : Nat}
    (hbits : ∀ bit, (words'.getD k 0).testBit bit = (words.getD k 0).testBit bit) :
    words'[k]? = words[k]? := by
  have heq : words'.getD k 0 = words.getD k 0 := Nat.eq_of_testBit_eq hbits
  by_cases hk : k < words.length
  · have hk' : k < words'.length := by omega
    simpa [List.getD_eq_getElem?_getD, List.getElem?_eq_getElem hk, List.getElem?_eq_getElem hk']
      using heq
  · rw [List.getElem?_eq_none (by omega), List.getElem?_eq_none (by omega)]

lemma word_lt_length (hpack : l.pack values = .ok words) (hs : l.plan.slots[i]? = some s) :
    s.word < words.length := by
  rw [length_eq_wordCount hpack]
  exact Plan.word_lt_of_mem_slots (List.mem_of_getElem? hs)

/-- Another value for one slot makes another word of the word of the slot, and keeps the bits of
the word outside the slot. -/
lemma exists_pack_set (hpack : l.pack values = .ok words) (hs : l.plan.slots[i]? = some s)
    (hvalue : value < 2 ^ s.width) :
    ∃ words' word word', l.pack (values.set i value) = .ok words' ∧
      words[s.word]? = some word ∧ words' = words.set s.word word' ∧
      ∀ bit, bit < s.offset ∨ s.offset + s.width ≤ bit →
        word'.testBit bit = word.testBit bit := by
  obtain ⟨words', hpack', hbits⟩ := exists_pack_set_covers hpack hs hvalue
  have hlength : words'.length = words.length := by
    rw [length_eq_wordCount hpack, length_eq_wordCount hpack']
  have hk : s.word < words.length := word_lt_length hpack hs
  have hk' : s.word < words'.length := word_lt_length hpack' hs
  refine ⟨words', words[s.word], words'[s.word], hpack', List.getElem?_eq_getElem hk, ?_, ?_⟩
  · refine List.ext_getElem? fun k => ?_
    by_cases hks : s.word = k
    · subst hks
      rw [List.getElem?_set_self hk, List.getElem?_eq_getElem hk']
    · rw [List.getElem?_set_ne hks]
      exact getElem?_eq_of_testBit hlength fun bit => hbits k bit fun h => hks h.1
  · intro bit hbit
    have hcovers : ¬ s.Covers s.word bit := by
      rintro ⟨-, hge, hlt⟩
      omega
    simpa [List.getD_eq_getElem?_getD, List.getElem?_eq_getElem hk,
      List.getElem?_eq_getElem hk'] using hbits s.word bit hcovers

/-- **The bits of packed words are where the plan says, and nowhere else.**  The value of each slot
is read in its word from its offset on, over its width.  Each word is the sum of the values of its
slots times their weights; it has no bit from the last slot on, and so none outside the word.
With another value for one slot, if it fits, only the word of this slot is another one, and its
bits outside the slot are the same. -/
theorem packed_bits_follow_plan {l : Layout} {values words : List Nat} (hl : l.Valid)
    (hpack : l.pack values = .ok words) :
    (∀ (i : Nat) (s : Slot), l.plan.slots[i]? = some s → ∃ word, words[s.word]? = some word ∧
      values[i]? = some ((word >>> s.offset) % 2 ^ s.width)) ∧
    (∀ (k word : Nat), words[k]? = some word →
      word = total (((l.plan.slots.zip values).filter fun e => e.1.word = k).map fun e =>
        e.2 * 2 ^ e.1.offset) ∧
      ∃ used, l.plan.usedBits k = some used ∧ word < 2 ^ used ∧ word < 2 ^ l.wordBits) ∧
    ∀ (i : Nat) (s : Slot) (value : Nat), l.plan.slots[i]? = some s → value < 2 ^ s.width →
      ∃ words' word word', l.pack (values.set i value) = .ok words' ∧
        words[s.word]? = some word ∧ words' = words.set s.word word' ∧
        ∀ bit, bit < s.offset ∨ s.offset + s.width ≤ bit →
          word'.testBit bit = word.testBit bit := by
  have hunpack : l.unpack words = .ok values := pack_eq_ok_iff_unpack_eq_ok.mp hpack
  have hread : values = l.plan.slots.map (readSlot words) :=
    (unpack_eq_ok_iff_readSlot.mp hunpack).2
  refine ⟨fun i s hs => ?_, fun k word hk => ⟨?_, ?_⟩,
    fun i s value hs hvalue => exists_pack_set hpack hs hvalue⟩
  · obtain ⟨word, hword⟩ : ∃ word, words[s.word]? = some word :=
      ⟨_, List.getElem?_eq_getElem (word_lt_length hpack hs)⟩
    refine ⟨word, hword, ?_⟩
    rw [hread, List.getElem?_map, hs, Option.map_some, readSlot, and_lowMask,
      List.getD_eq_getElem?_getD, hword, Option.getD_some]
  · obtain ⟨hvalues, rfl⟩ := pack_eq_ok_iff.mp hpack
    rw [← l.flatten_words_plan] at hvalues
    simpa [Plan.slots] using getElem?_joinWords_eq_total hvalues 0 hk
  · obtain ⟨-, hfits⟩ := exists_unpack_eq_ok_iff.mp ⟨values, hunpack⟩
    obtain ⟨used, hused, hlt⟩ := hfits k word hk
    obtain ⟨group, hgroup, rfl⟩ := Option.map_eq_some_iff.mp hused
    have hle := (Plan.total_le_of_mem_words hl (List.mem_of_getElem? hgroup)).2
    exact ⟨_, hused, hlt, Nat.lt_of_lt_of_le hlt (Nat.pow_le_pow_right Nat.two_pos hle)⟩

/-- Four slots in two words.  The second slot gets the value with all bits set, and the first slot
and the second word stay as they are. -/
theorem second_slot_of_first_word_changed :
    let l : Layout := ⟨[40, 16, 40, 8], 64⟩
    let words := [5 + 3 * 2 ^ 40, 7 + 255 * 2 ^ 40]
    l.Valid ∧ l.pack [5, 3, 7, 255] = .ok words ∧ l.plan.slots[1]? = some ⟨0, 40, 16⟩ ∧
      65535 < 2 ^ 16 ∧ (words[0] >>> 40) % 2 ^ 16 = 3 ∧
      ∃ word', l.pack [5, 65535, 7, 255] = .ok [word', words[1]] ∧
        ∀ bit, bit < 40 ∨ 40 + 16 ≤ bit → word'.testBit bit = words[0].testBit bit := by
  intro l words
  have hl : l.Valid := by decide
  have hpack : l.pack [5, 3, 7, 255] = .ok words := by decide
  have hslot : l.plan.slots[1]? = some ⟨0, 40, 16⟩ := rfl
  have hvalue : 65535 < 2 ^ 16 := by decide
  obtain ⟨hread, -, hset⟩ := packed_bits_follow_plan hl hpack
  obtain ⟨word, hword, hthree⟩ := hread 1 _ hslot
  obtain ⟨_, word₀, word', hpack', hword₀, rfl, hbits⟩ := hset 1 _ _ hslot hvalue
  cases hword
  cases hword₀
  exact ⟨hl, hpack, hslot, hvalue, (Option.some.inj hthree).symm, word', hpack', hbits⟩

end Layout

end WordPacking
