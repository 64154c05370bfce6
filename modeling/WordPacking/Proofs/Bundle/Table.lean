/-
# The width table of a bundle

The primitives of a document are laid over the standard ones, and the table is for words of the size
of the bundle.  Where a name stands decides its width; whether the width can be used depends on the
size of the words alone.

The size of the words is read from the document, or is that of a field element, and nothing else of
the bundle depends on it.  So putting another size in its place comes to the same bundle as the
document that declares this size (`ofText_declaring`).
-/
import Mathlib.Algebra.Ring.Nat
import WordPacking.Proofs.WidthTable.Entries
import WordPacking.Report

namespace WordPacking

namespace WidthTable

/-- The standard entries are the same for words of any size. -/
lemma get?_standardFor (wordBits : Nat) (name : String) :
    (standardFor wordBits).get? name = standard.get? name := by
  simp only [standard, standardFor, get?_insertAll, get?_empty]

/-- Laying a listed table over a table without entries gives the same entries again. -/
lemma insertAll_entries_standard (wordBits : Nat) :
    (empty wordBits).insertAll standard.entries = standardFor wordBits := by
  refine ext_get? (by simp [standardFor, empty]) fun name => ?_
  rw [get?_insertAll_listed _ (fun _ _ => mem_entries_iff) name, get?_empty, Option.or_none,
    get?_standardFor]

end WidthTable

/-! ## Documents that declare the size of a word -/

namespace Document

/-- The same document, but it declares that a word has so many bits. -/
def declaring (wordBits : Nat) : Json → Json
  | .object fields =>
    .object (("word_bits", .ofNat wordBits) :: fields.filter fun field => field.1 ≠ "word_bits")
  | .array values => .array (.ofNat wordBits :: values.drop 1)
  | j => j

variable {j : Json} {d : Document} {n : Nat} {fields : List (String × Json)}

lemma valuesNamed_filter_ne {name other : String} (h : name ≠ other) :
    Json.valuesNamed name (fields.filter fun field => field.1 ≠ other) =
      Json.valuesNamed name fields := by
  unfold Json.valuesNamed
  rw [List.filter_filter]
  congr 1
  refine List.filter_congr fun field _ => ?_
  by_cases hfield : field.1 = name
  · simp [hfield, h]
  · simp [hfield]

lemma ofValues?_declaring {wordBits primitives types models : Option Json} (hn : n < widthBound)
    (h : ofValues? wordBits primitives types models = some d) :
    ofValues? (some (.ofNat n)) primitives types models = some { d with wordBits := some n } := by
  have hread : readOr none wordBitsOfJson? (some (.ofNat n)) = some (some n) := by
    have hnat : (Json.ofNat n).natBelow? widthBound = some n := by
      simp [Json.natBelow?, Json.nat?_ofNat, Option.filter, hn]
    change ((Json.ofNat n).natBelow? widthBound).map some = _
    rw [hnat, Option.map_some]
  simp only [ofValues?, Option.bind_eq_bind, Option.bind_eq_some_iff, Option.pure_def,
    Option.some.injEq] at h ⊢
  obtain ⟨_, -, ps, hps, ts, hts, ms, hms, rfl⟩ := h
  exact ⟨some n, hread, ps, hps, ts, hts, ms, hms, rfl⟩

/-- The fields of the document that declares a size: those before, but for the size. -/
lemma valuesNamed_declaring (name : String) :
    Json.valuesNamed name
        (("word_bits", .ofNat n) :: fields.filter fun field => field.1 ≠ "word_bits") =
      if name = "word_bits" then [.ofNat n] else Json.valuesNamed name fields := by
  by_cases hname : name = "word_bits"
  · subst hname
    simp [Json.valuesNamed, List.filter_filter]
  · rw [if_neg hname, Json.valuesNamed_cons_of_ne (Ne.symm hname), valuesNamed_filter_ne hname]

/-- A document that declares another size says the same otherwise. -/
theorem ofJson?_declaring (hn : n < widthBound) (h : ofJson? j = some d) :
    ofJson? (declaring n j) = some { d with wordBits := some n } := by
  cases j with
  | object fields =>
    simp only [ofJson?] at h
    split at h
    · next hfields =>
      rw [Bool.and_eq_true, List.all_eq_true, List.all_eq_true] at hfields
      obtain ⟨hknown, hsole⟩ := hfields
      rw [declaring, ofJson?, if_pos]
      · simp only [valuesNamed_declaring]
        exact ofValues?_declaring hn h
      · rw [Bool.and_eq_true, List.all_eq_true, List.all_eq_true]
        refine ⟨List.forall_mem_cons.mpr ⟨rfl, fun field hfield =>
          hknown field (List.mem_filter.mp hfield).1⟩, fun name hname => ?_⟩
        rw [Json.isRepeated, valuesNamed_declaring]
        split
        · rfl
        · exact hsole name hname
    · cases h
  | array values =>
    simp only [ofJson?] at h
    split at h
    · next hlength =>
      have hlength' : (Json.ofNat n :: values.drop 1).length ≤ fieldNames.length := by
        have hnames : fieldNames.length = 4 := rfl
        rw [List.length_cons, List.length_drop]
        omega
      rw [declaring, ofJson?, if_pos hlength']
      have hlater : ∀ i, (Json.ofNat n :: values.drop 1)[i + 1]? = values[i + 1]? := by
        intro i
        rw [List.getElem?_cons_succ, List.getElem?_drop, Nat.add_comm]
      rw [hlater 0, hlater 1, hlater 2]
      exact ofValues?_declaring hn h
    · cases h
  | _ => cases h

end Document

namespace Bundle

variable {b : Bundle} {d : Document} {n : Nat} {text text' : String} {j : Json}

/-! ## The table -/

/-- The primitives of a document are laid over the standard ones. -/
lemma get?_table (b : Bundle) (name : String) :
    b.table.get? name = (b.primitives[name]?).or (WidthTable.standard.get? name) := by
  rw [table, WidthTable.get?_insertAll_toList, WidthTable.get?_standardFor]

lemma table_eq_insertAll (b : Bundle) :
    b.table = ((WidthTable.empty b.wordBits).insertAll WidthTable.standard.entries).insertAll
      b.primitives.toList := by
  rw [table, WidthTable.insertAll_entries_standard]

/-- The width of a name is found in the document, or else among the standard ones, and is held
against the words of the bundle. -/
lemma widthOf_table (b : Bundle) (name : String) :
    b.table.widthOf name =
      ((b.primitives[name]?).or (WidthTable.standard.get? name)).elim (.error (.unknown name))
        fun width =>
          if width = 0 then .error (.zero name)
          else if b.wordBits < width then .error (.oversized name width b.wordBits)
          else .ok width := by
  have hbits : b.table.wordBits = b.wordBits := WidthTable.wordBits_insertAll _ _
  unfold WidthTable.widthOf
  rw [get?_table, hbits]
  cases (b.primitives[name]?).or (WidthTable.standard.get? name) with
  | none => rfl
  | some width => rfl

/-! ## The size of a word -/

/-- A size in place of that of the document is as good as one that the document declares. -/
lemma ofDocument_eq_map (d : Document) (n : Nat) :
    ofDocument { d with wordBits := some n } = (ofDocument d).map (·.withWordBits n) := by
  unfold ofDocument
  cases Definitions.empty.registerAll d.types <;> rfl

lemma ofText_declaring (hn : n < 2 ^ 16) (htext : Json.ofText? text = some j)
    (htext' : Json.ofText? text' = some (Document.declaring n j)) (h : ofText text = .ok b) :
    ofText text' = .ok (b.withWordBits n) := by
  unfold ofText Document.ofText? at h ⊢
  rw [htext, Option.bind_some] at h
  rw [htext', Option.bind_some]
  cases hd : Document.ofJson? j with
  | none =>
    rw [hd] at h
    cases h
  | some d =>
    rw [hd] at h
    rw [Document.ofJson?_declaring hn hd]
    simp only [ofDocument_eq_map] at h ⊢
    cases hb : ofDocument d with
    | error cause =>
      rw [hb] at h
      cases h
    | ok b₀ =>
      rw [hb] at h
      cases h
      rfl

/-- **The last width of a name stands, first in the document and then among the standard ones.**  A
table that is made by adding entries one after the other lists its names in the order of their
bytes, each with the last of its widths, and there are as many entries as names.  Sorting brings
them into this order from every other one.  Entries of one name apart, the order in which they are
added does not matter.  The table of a bundle is the
standard one with the primitives of the document over it, and what is found under a name is held
against the words of the bundle and no other.  A document that declares another size comes to the
bundle with this size in place of the first one, and with it to the same table, the same models and
the same reports. -/
theorem widths_by_last_entry :
    (∀ (wordBits : Nat) (added : List (String × Nat)),
      let t := (WidthTable.empty wordBits).insertAll added
      (t.entries.Pairwise fun e e' => Text.bytes e.1 < Text.bytes e'.1) ∧
      (∀ name width, (name, width) ∈ t.entries ↔
        (added.filter fun e => e.1 = name).getLast? = some (name, width)) ∧
      (∀ listed : List (String × Nat), (listed.map (·.1)).Nodup →
        (∀ name width, (name, width) ∈ listed ↔ t.get? name = some width) →
          WidthTable.sortByName listed = t.entries) ∧
      t.size = (added.map (·.1)).dedup.length ∧
      ∀ added' : List (String × Nat),
        (∀ name, (added'.filter fun e => e.1 = name) = added.filter fun e => e.1 = name) →
          (WidthTable.empty wordBits).insertAll added' = t) ∧
    (∀ b : Bundle,
      b.table = ((WidthTable.empty b.wordBits).insertAll WidthTable.standard.entries).insertAll
        b.primitives.toList ∧
      ∀ name, b.table.widthOf name =
        ((b.primitives[name]?).or (WidthTable.standard.get? name)).elim (.error (.unknown name))
          fun width =>
            if width = 0 then .error (.zero name)
            else if b.wordBits < width then .error (.oversized name width b.wordBits)
            else .ok width) ∧
    ∀ (text text' : String) (j : Json) (n : Nat), n < 2 ^ 16 → Json.ofText? text = some j →
      Json.ofText? text' = some (Document.declaring n j) → ∀ b, ofText text = .ok b →
        ofText text' = .ok (b.withWordBits n) ∧
        ∀ b', ofText text' = .ok b' →
          b'.table = (b.withWordBits n).table ∧ b'.models = (b.withWordBits n).models ∧
          Report.layouts b' = Report.layouts (b.withWordBits n) ∧
          ∀ name, Report.layoutOf b' name = Report.layoutOf (b.withWordBits n) name ∧
            Report.planOf b' name = Report.planOf (b.withWordBits n) name := by
  refine ⟨fun wordBits added => ⟨WidthTable.pairwise_entries _, fun name width =>
    WidthTable.mem_entries_insertAll_empty_iff,
    fun listed hnames hlisted => WidthTable.sortByName_eq_entries hnames hlisted,
    WidthTable.size_insertAll_empty wordBits added, fun added' h => WidthTable.insertAll_congr h⟩,
    fun b => ⟨b.table_eq_insertAll, b.widthOf_table⟩, ?_⟩
  intro text text' j n hn htext htext' b hb
  have hb' := ofText_declaring hn htext htext' hb
  refine ⟨hb', fun b' h => ?_⟩
  obtain rfl : b' = b.withWordBits n := Except.ok.inj (h.symm.trans hb')
  exact ⟨rfl, rfl, rfl, fun name => ⟨rfl, rfl⟩⟩

/-- A document with words of 251 bits where `u8` has nine bits: they are not too many until it
declares words of eight bits.  Of two widths for `u8` the last one stands, wherever `u16` is
added, which comes first in the list. -/
theorem nine_bits_in_eight :
    let text := "[251,\x7b\"u8\":9\x7d]"
    let text' := "[8,\x7b\"u8\":9\x7d]"
    (∃ b, ofText text = .ok b ∧ b.table.widthOf "u8" = .ok 9 ∧ b.table.widthOf "u16" = .ok 16 ∧
      ofText text' = .ok (b.withWordBits 8) ∧
      (b.withWordBits 8).table.widthOf "u8" = .error (.oversized "u8" 9 8)) ∧
    (WidthTable.empty 64).insertAll [("u16", 3), ("u8", 9), ("u8", 8)] =
      (WidthTable.empty 64).insertAll [("u8", 9), ("u16", 3), ("u8", 8)] ∧
    ((WidthTable.empty 64).insertAll [("u8", 9), ("u16", 3), ("u8", 8)]).entries =
      [("u16", 3), ("u8", 8)] := by
  have htext : Json.ofText? "[251,\x7b\"u8\":9\x7d]" =
      some (.array [.number "251", .object [("u8", .number "9")]]) := by rfl
  have htext' : Json.ofText? "[8,\x7b\"u8\":9\x7d]" =
      some (Document.declaring 8 (.array [.number "251", .object [("u8", .number "9")]])) := by rfl
  obtain ⟨b, hb, hbits, hu8, hu16⟩ : ∃ b, ofText "[251,\x7b\"u8\":9\x7d]" = .ok b ∧
      b.wordBits = 251 ∧ b.primitives["u8"]? = some 9 ∧ b.primitives["u16"]? = none := by
    refine ⟨_, rfl, rfl, ?_, ?_⟩
    · decide +kernel
    · decide +kernel
  have hstandard : WidthTable.standard.get? "u16" = some 16 := by decide +kernel
  obtain ⟨htables, hbundle, hdeclaring⟩ := widths_by_last_entry
  obtain ⟨hdeclared, -⟩ := hdeclaring _ _ _ 8 (by decide) htext htext' b hb
  obtain ⟨-, hmem, hsorted, -, hcongr⟩ := htables 64 [("u8", 9), ("u16", 3), ("u8", 8)]
  refine ⟨⟨b, hb, ?_, ?_, hdeclared, ?_⟩, ?_, ?_⟩
  · rw [(hbundle b).2, hu8, hbits]
    rfl
  · rw [(hbundle b).2, hu16, hstandard, hbits]
    rfl
  · rw [(hbundle (b.withWordBits 8)).2, withWordBits, hu8]
    rfl
  · refine hcongr _ fun name => ?_
    by_cases hname : "u16" = name
    · subst hname
      rfl
    · simp [List.filter_cons, hname]
  · have hlisted : WidthTable.sortByName [("u8", 8), ("u16", 3)] = [("u16", 3), ("u8", 8)] := by
      simp [WidthTable.sortByName, List.mergeSort]
    refine (hsorted [("u8", 8), ("u16", 3)] (by decide) fun name width => ?_).symm.trans hlisted
    rw [← WidthTable.mem_entries_iff, hmem]
    by_cases hu16 : "u16" = name
    · subst hu16
      simp [eq_comm]
    · by_cases hu8 : "u8" = name
      · subst hu8
        simp [eq_comm]
      · simp [hu16, hu8, Ne.symm hu16, Ne.symm hu8]

end Bundle

end WordPacking
