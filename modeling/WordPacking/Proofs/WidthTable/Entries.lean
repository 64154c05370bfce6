/-
# The entries of a width table

A table is made by adding entries one after the other.  Of the entries that are added under one name
the last one stands, so nothing else about their order matters (`insertAll_congr`), and there are as
many entries in the end as names.  They are sorted in the order of the bytes of their names, so it
does not matter in which order the table has them (`sortByName_eq_entries`).

Adding the entries of one table to another one, in whatever order they are listed, lays the first
table over the second (`get?_insertAll_toList`).
-/
import Mathlib.Data.List.Dedup
import WordPacking.Proofs.Catalogue.Listing
import WordPacking.Proofs.Text.Bytes
import WordPacking.WidthTable

namespace WordPacking.WidthTable

variable {t t' : WidthTable} {added added' : List (String × Nat)} {name : String} {width : Nat}

/-- A table is determined by its words and what is found in it. -/
lemma ext_get? (hbits : t.wordBits = t'.wordBits) (h : ∀ name, t.get? name = t'.get? name) :
    t = t' := by
  rcases t with ⟨bits, m⟩
  rcases t' with ⟨bits', m'⟩
  rw [mk.injEq]
  exact ⟨hbits, Std.ExtTreeMap.ext_getElem? h⟩

/-! ## The list of entries -/

lemma sortByName_perm (listed : List (String × Nat)) : (sortByName listed).Perm listed :=
  List.mergeSort_perm listed _

/-- Entries of distinct names are sorted in the order of the bytes of their names. -/
lemma pairwise_sortByName {listed : List (String × Nat)} (hnames : (listed.map (·.1)).Nodup) :
    (sortByName listed).Pairwise fun e e' => Text.bytes e.1 < Text.bytes e'.1 := by
  have hsorted : (sortByName listed).Pairwise fun e e' => decide (e.1 ≤ e'.1) = true := by
    refine List.pairwise_mergeSort (fun a b c hab hbc => ?_) (fun a b => ?_) listed
    · rw [decide_eq_true_eq] at hab hbc ⊢
      exact String.le_trans hab hbc
    · simpa only [Bool.or_eq_true, decide_eq_true_eq] using String.le_total a.1 b.1
  have hnodup : ((sortByName listed).map (·.1)).Nodup :=
    ((sortByName_perm listed).map _).nodup_iff.mpr hnames
  have hdistinct : (sortByName listed).Pairwise fun e e' => e.1 ≠ e'.1 :=
    List.pairwise_map.mp hnodup
  refine (hsorted.and hdistinct).imp fun {e e'} h => ?_
  rw [decide_eq_true_eq] at h
  rw [← Text.lt_iff_bytes_lt]
  exact Std.lt_of_le_of_ne h.1 h.2

lemma mem_entries_iff : (name, width) ∈ t.entries ↔ t.get? name = some width :=
  (sortByName_perm _).mem_iff.trans Std.ExtTreeMap.mem_toList_iff_getElem?_eq_some

lemma nodup_names_toList (t : WidthTable) : (t.widths.toList.map (·.1)).Nodup := by
  rw [Std.ExtTreeMap.map_fst_toList_eq_keys]
  exact Std.ExtTreeMap.nodup_keys

/-- The entries are in the order of the bytes of their names. -/
lemma pairwise_entries (t : WidthTable) :
    t.entries.Pairwise fun e e' => Text.bytes e.1 < Text.bytes e'.1 :=
  pairwise_sortByName t.nodup_names_toList

/-- In whatever order the table is listed, the same comes out once it is sorted. -/
lemma sortByName_eq_entries {listed : List (String × Nat)} (hnames : (listed.map (·.1)).Nodup)
    (hlisted : ∀ name width, (name, width) ∈ listed ↔ t.get? name = some width) :
    sortByName listed = t.entries := by
  have hsame : listed.Perm t.widths.toList := by
    refine (List.perm_ext_iff_of_nodup hnames.of_map t.nodup_names_toList.of_map).mpr ?_
    rintro ⟨name, width⟩
    rw [hlisted, Std.ExtTreeMap.mem_toList_iff_getElem?_eq_some, get?]
  have hperm : (sortByName listed).Perm t.entries :=
    (sortByName_perm listed).trans (hsame.trans (sortByName_perm _).symm)
  refine hperm.eq_of_pairwise (fun e e' _ _ hlt hgt => ?_) (pairwise_sortByName hnames)
    t.pairwise_entries
  exact absurd hgt (List.lt_asymm hlt)

/-! ## Adding entries -/

/-- What is found under a name is the last of the entries that are added under it. -/
lemma get?_insertAll_getLast? (t : WidthTable) (added : List (String × Nat)) (name : String) :
    (t.insertAll added).get? name =
      ((added.filter fun e => e.1 = name).getLast?.map (·.2)).or (t.get? name) := by
  rw [get?_insertAll, List.getLast?_filter]

/-- The order of entries of different names does not matter. -/
lemma insertAll_congr
    (h : ∀ name, (added.filter fun e => e.1 = name) = added'.filter fun e => e.1 = name) :
    t.insertAll added = t.insertAll added' := by
  refine ext_get? (by simp) fun name => ?_
  rw [get?_insertAll_getLast?, get?_insertAll_getLast?, h]

/-- Into an empty table, each name comes with the last of its entries. -/
lemma mem_entries_insertAll_empty_iff {wordBits : Nat} :
    (name, width) ∈ ((empty wordBits).insertAll added).entries ↔
      (added.filter fun e => e.1 = name).getLast? = some (name, width) := by
  rw [mem_entries_iff, get?_insertAll_getLast?, get?_empty, Option.or_none]
  constructor
  · intro h
    obtain ⟨⟨name', width'⟩, hlast, rfl⟩ := Option.map_eq_some_iff.mp h
    obtain rfl : name' = name := by
      simpa using (List.mem_filter.mp (List.mem_of_getLast? hlast)).2
    exact hlast
  · intro h
    rw [h, Option.map_some]

/-- There are as many entries as names. -/
lemma size_insertAll_empty (wordBits : Nat) (added : List (String × Nat)) :
    ((empty wordBits).insertAll added).size = (added.map (·.1)).dedup.length := by
  have hnodup : (((empty wordBits).insertAll added).widths.keys).Nodup :=
    Std.ExtTreeMap.nodup_keys
  have hmem : ∀ name, name ∈ ((empty wordBits).insertAll added).widths.keys ↔
      name ∈ (added.map (·.1)).dedup := by
    intro name
    rw [Std.ExtTreeMap.mem_keys, Std.ExtTreeMap.mem_iff_isSome_getElem?]
    change (((empty wordBits).insertAll added).get? name).isSome = true ↔ _
    rw [get?_insertAll, get?_empty, Option.or_none, Option.isSome_map, List.find?_isSome,
      List.mem_dedup, List.mem_map]
    simp
  have hperm := (List.perm_ext_iff_of_nodup hnodup (List.nodup_dedup _)).mpr hmem
  rw [← hperm.length_eq]
  exact Std.ExtTreeMap.length_keys.symm

/-- Adding what is listed of a map lays the map over the table. -/
lemma get?_insertAll_listed (t : WidthTable) {listed : List (String × Nat)}
    {found : String → Option Nat}
    (hlisted : ∀ name width, (name, width) ∈ listed ↔ found name = some width) (name : String) :
    (t.insertAll listed).get? name = (found name).or (t.get? name) := by
  have hlast : (listed.reverse.find? fun e => e.1 = name).map (·.2) = found name := by
    cases hfind : listed.reverse.find? fun e => e.1 = name with
    | none =>
      rw [Option.map_none, eq_comm, Option.eq_none_iff_forall_ne_some]
      intro width hwidth
      have hmem := (hlisted name width).mpr hwidth
      rw [List.find?_eq_none] at hfind
      exact hfind _ (List.mem_reverse.mpr hmem) (decide_eq_true rfl)
    | some e =>
      obtain rfl : e.1 = name := by simpa using List.find?_some hfind
      have hmem := List.mem_reverse.mp (List.mem_of_find?_eq_some hfind)
      exact ((hlisted _ _).mp hmem).symm
  rw [get?_insertAll, hlast]

lemma get?_insertAll_toList (t : WidthTable) (m : Std.ExtTreeMap String Nat) (name : String) :
    (t.insertAll m.toList).get? name = (m[name]?).or (t.get? name) :=
  t.get?_insertAll_listed (fun _ _ => Std.ExtTreeMap.mem_toList_iff_getElem?_eq_some) name

end WordPacking.WidthTable
