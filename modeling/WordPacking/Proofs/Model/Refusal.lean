/-
# Which records are refused, and why

A record comes as two lists of scalars, while the slots of its layout go by the members, keys and
others as they are declared.  So there are two ways to say which scalar is meant for which slot.  On
the side of the lists, the keys go to the slots of the key members one after the other, and the
other scalars to the slots of the other members.  On the side of the layout, a slot gets the scalar
of its list that has as many scalars before it as that list has slots before this one
(`scalarAt?`).

Interleaving goes from the first way to the second one: each slot gets its scalar
(`getElem?_interleave`), and the interleaved scalars fit the slots exactly when the two lists fit
the slots of their members (`fits_interleave`).  Both are proved member by member.  What the codec
refuses is known, so the model refuses the same; that there are as many scalars as slots is checked
before, and the codec finds nothing more to say about their number.
-/
import WordPacking.Proofs.Codec.Refusal
import WordPacking.Proofs.Model.RoundTrip

namespace WordPacking

namespace Model

open Codec

/-- For each slot of some members, whether its member is part of the key. -/
def sides (members : List (Member Tree)) : List Bool :=
  members.flatMap fun m => List.replicate m.body.size m.attrs.isKey

/-- The widths of the slots of the key members, one member after the other. -/
def keyWidths (members : List (Member Tree)) : List Nat :=
  (members.filter (·.attrs.isKey)).flatMap (·.body.widths)

/-- The widths of the slots of the other members, one member after the other. -/
def valueWidths (members : List (Member Tree)) : List Nat :=
  (members.filter (!·.attrs.isKey)).flatMap (·.body.widths)

/-- The scalar that is meant for a slot: that of its list with as many scalars before it as its side
has slots before the slot. -/
def scalarAt? (m : Model) (keys values : List Nat) (i : Nat) : Option Nat :=
  (sides m.members)[i]?.bind fun isKey =>
    (if isKey then keys else values)[((sides m.members).take i).count isKey]?

section Members

variable {m : Member Tree} {members : List (Member Tree)} {keys values : List Nat}

/-! ## The slots of members -/

lemma sides_cons (m : Member Tree) (members : List (Member Tree)) :
    sides (m :: members) = List.replicate m.body.size m.attrs.isKey ++ sides members :=
  List.flatMap_cons

/-- A slot of the first member: those before it are on the same side. -/
lemma sides_cons_of_lt (members : List (Member Tree)) {i : Nat} (h : i < m.body.size) :
    (sides (m :: members))[i]? = some m.attrs.isKey ∧
      ((sides (m :: members)).take i).count m.attrs.isKey = i := by
  have hlength : i < (List.replicate m.body.size m.attrs.isKey).length := by
    rwa [List.length_replicate]
  rw [sides_cons, List.getElem?_append_left hlength, List.getElem?_replicate_of_lt h,
    List.take_append_of_le_length hlength.le, List.take_replicate, List.count_replicate_self]
  exact ⟨rfl, Nat.min_eq_left h.le⟩

/-- The slots of the other members come after those of the first one. -/
lemma getElem?_sides_add (i : Nat) :
    (sides (m :: members))[m.body.size + i]? = (sides members)[i]? := by
  have hlength : (List.replicate m.body.size m.attrs.isKey).length = m.body.size :=
    List.length_replicate
  rw [sides_cons, List.getElem?_append_right (by omega), hlength, Nat.add_sub_cancel_left]

/-- Before a slot of the other members are all those of the first one, on its side. -/
lemma count_take_sides_add (i : Nat) (isKey : Bool) :
    ((sides (m :: members)).take (m.body.size + i)).count isKey =
      (if m.attrs.isKey = isKey then m.body.size else 0) +
        ((sides members).take i).count isKey := by
  have hlength : (List.replicate m.body.size m.attrs.isKey).length = m.body.size :=
    List.length_replicate
  rw [sides_cons, List.take_append, List.take_of_length_le (by omega), hlength,
    Nat.add_sub_cancel_left, List.count_append, List.count_replicate]
  simp only [beq_iff_eq]

lemma keyWidths_cons_of_key (h : m.attrs.isKey = true) :
    keyWidths (m :: members) = m.body.widths ++ keyWidths members := by
  simp [keyWidths, h]

lemma keyWidths_cons_of_not_key (h : ¬ m.attrs.isKey = true) :
    keyWidths (m :: members) = keyWidths members := by
  simp [keyWidths, h]

lemma valueWidths_cons_of_key (h : m.attrs.isKey = true) :
    valueWidths (m :: members) = valueWidths members := by
  simp [valueWidths, h]

lemma valueWidths_cons_of_not_key (h : ¬ m.attrs.isKey = true) :
    valueWidths (m :: members) = m.body.widths ++ valueWidths members := by
  simp [valueWidths, h]

/-! ## Interleaving, slot by slot -/

/-- One more member in front, with a part of the scalars of its side: its slots get this part, and
the other slots get what they got without it. -/
lemma getElem?_append_of_sides {part rest : List Nat} {list list' : Bool → List Nat}
    (hpart : part.length = m.body.size)
    (hlist : ∀ isKey, list' isKey = if m.attrs.isKey = isKey then part ++ list isKey
      else list isKey)
    (hrest : ∀ i, rest[i]? = (sides members)[i]?.bind fun isKey =>
      (list isKey)[((sides members).take i).count isKey]?)
    (i : Nat) :
    (part ++ rest)[i]? = (sides (m :: members))[i]?.bind fun isKey =>
      (list' isKey)[((sides (m :: members)).take i).count isKey]? := by
  rcases Nat.lt_or_ge i m.body.size with hi | hi
  · obtain ⟨hside, hbefore⟩ := sides_cons_of_lt members hi
    rw [List.getElem?_append_left (by omega), hside, Option.bind_some, hbefore, hlist, if_pos rfl,
      List.getElem?_append_left (by omega)]
  · obtain ⟨j, rfl⟩ := Nat.exists_eq_add_of_le hi
    rw [List.getElem?_append_right (by omega), hpart, Nat.add_sub_cancel_left, hrest,
      getElem?_sides_add]
    refine Option.bind_congr fun isKey _ => ?_
    rw [count_take_sides_add, hlist]
    by_cases hside : m.attrs.isKey = isKey
    · rw [if_pos hside, if_pos hside, List.getElem?_append_right (by omega), hpart,
        Nat.add_sub_cancel_left]
    · rw [if_neg hside, if_neg hside, Nat.zero_add]

/-- Interleaving takes to each slot the scalar that is meant for it. -/
theorem Supplied.getElem?_interleave (h : Supplied members keys values) (i : Nat) :
    (interleave members keys values)[i]? = (sides members)[i]?.bind fun isKey =>
      (if isKey then keys else values)[((sides members).take i).count isKey]? := by
  induction h generalizing i with
  | nil => rfl
  | key hkey hpart _ ih =>
    rw [interleave_append_of_key hkey hpart]
    refine getElem?_append_of_sides hpart (fun isKey => ?_) ih i
    cases isKey <;> simp [hkey]
  | value hkey hpart _ ih =>
    rw [interleave_append_of_not_key hkey hpart]
    refine getElem?_append_of_sides hpart (fun isKey => ?_) ih i
    cases isKey <;> simp [hkey]

/-! ## Interleaving, side by side -/

/-- The interleaved scalars fit the slots when those of each side fit the slots of the side. -/
theorem Supplied.fits_interleave (h : Supplied members keys values) :
    Fits (members.flatMap (·.body.widths)) (interleave members keys values) ↔
      Fits (keyWidths members) keys ∧ Fits (valueWidths members) values := by
  induction h with
  | nil => simp [interleave, keyWidths, valueWidths, Fits]
  | key hkey hpart _ ih =>
    have hlength := hpart.trans (Shape.length_widths _).symm
    rw [interleave_append_of_key hkey hpart, List.flatMap_cons, fits_append,
      List.take_left' hlength, List.drop_left' hlength, ih, keyWidths_cons_of_key hkey,
      valueWidths_cons_of_key hkey, fits_append, List.take_left' hlength,
      List.drop_left' hlength, and_assoc]
  | value hkey hpart _ ih =>
    have hlength := hpart.trans (Shape.length_widths _).symm
    rw [interleave_append_of_not_key hkey hpart, List.flatMap_cons, fits_append,
      List.take_left' hlength, List.drop_left' hlength, ih, keyWidths_cons_of_not_key hkey,
      valueWidths_cons_of_not_key hkey, fits_append, List.take_left' hlength,
      List.drop_left' hlength, and_left_comm]

/-- There are as many widths as slots. -/
lemma length_flatMap_widths (members : List (Member Tree)) :
    (members.flatMap (·.body.widths)).length = total (members.map (·.body.size)) := by
  induction members with
  | nil => rfl
  | cons m members ih =>
    rw [List.flatMap_cons, List.length_append, ih, Shape.length_widths, List.map_cons, total_cons]

end Members

/-! ## What a model returns -/

section Packing

variable {m : Model} {keys values : List Nat}

lemma supplied_of_checkCounts (h : m.checkCounts keys.length values.length = .ok ()) :
    Supplied m.members keys values := by
  obtain ⟨hkeys, hvalues⟩ := checkCounts_eq_ok_iff.mp h
  exact supplied_of_length hkeys (hvalues.trans m.valueSize_eq)

lemma widths_layout (m : Model) : m.layout.widths = m.members.flatMap (·.body.widths) :=
  Shape.widths_struct m.name m.attrs m.members

lemma exists_pack_eq_ok_iff (h : m.checkCounts keys.length values.length = .ok ()) :
    (∃ words, m.pack keys values = .ok words) ↔
      EachFits ((keyWidths m.members)[·]?) (keys[·]?) ∧
        EachFits ((valueWidths m.members)[·]?) (values[·]?) := by
  obtain ⟨hkeys, hvalues⟩ := checkCounts_eq_ok_iff.mp h
  have hkeyWidths : keys.length = (keyWidths m.members).length := by
    rw [keyWidths, length_flatMap_widths, hkeys, m.keySize_eq, keySlots]
  have hvalueWidths : values.length = (valueWidths m.members).length := by
    rw [valueWidths, length_flatMap_widths, hvalues, m.valueSize_eq, valueSlots]
  simp only [pack_eq_ok_iff, hkeys, hvalues, and_self, true_and, Layout.pack_eq_ok_iff,
    exists_and_left, exists_eq, and_true]
  rw [m.widths_layout, (supplied_of_checkCounts h).fits_interleave, fits_iff, fits_iff]
  simp only [hkeyWidths, hvalueWidths, true_and]

lemma pack_eq_error_iff (h : m.checkCounts keys.length values.length = .ok ()) {e : ModelError} :
    m.pack keys values = .error e ↔
      ∃ i width value bits,
        FirstMisfit (m.layout.widths[·]?) (m.scalarAt? keys values) i width value ∧
          IsLeast {k | value < 2 ^ k} bits ∧ e = .codec (.valueOverflow i bits width) := by
  have hsupplied := supplied_of_checkCounts h
  have hlength : (interleave m.members keys values).length = m.layout.size := by
    rw [hsupplied.length_interleave, ← m.unpackedSize_eq]
    exact m.schema.size_layout.symm
  have hscalars : ((interleave m.members keys values)[·]?) = m.scalarAt? keys values :=
    funext hsupplied.getElem?_interleave
  have hpack : m.pack keys values = .error e ↔
      ∃ cause, m.layout.pack (interleave m.members keys values) = .error cause ∧
        e = .codec cause := by
    rw [pack, h]
    cases m.layout.pack (interleave m.members keys values) <;> simp [Except.mapError, eq_comm]
  rw [hpack]
  simp only [Layout.pack_eq_error_iff hlength, hscalars]
  constructor
  · rintro ⟨cause, ⟨i, width, value, bits, hmisfit, hbits, rfl⟩, rfl⟩
    exact ⟨i, width, value, bits, hmisfit, hbits, rfl⟩
  · rintro ⟨i, width, value, bits, hmisfit, hbits, rfl⟩
    exact ⟨_, ⟨i, width, value, bits, hmisfit, hbits, rfl⟩, rfl⟩

/-- The slots of a model of a declared type are a layout. -/
lemma valid_layout_of_ofDecl {s : Scope} {d : Decl} (h : ofDecl s d = .ok m) : m.layout.Valid :=
  Scope.valid_layout_of_resolve (ofDecl_eq_ok_iff.mp h)

end Packing

/-- **A model packs just the records whose scalars fit their members.**  If the number of scalars is
wrong, that is the error, of the model and of a record.  Else a record is packed exactly when the
keys fit the slots of the key members, and the other scalars those of the other members, one after
the other.  If they do not, the error is about the first slot of the layout whose scalar does not
fit.  There is no other error; and the slots of a model of a declared type are a layout. -/
theorem refuses_exactly (m : Model) (keys values : List Nat) :
    (∀ e, m.checkCounts keys.length values.length = .error e →
      m.pack keys values = .error e ∧
        (⟨m, keys, values⟩ : Record).checkCounts = .error e ∧
        (⟨m, keys, values⟩ : Record).pack = .error e) ∧
    (m.checkCounts keys.length values.length = .ok () →
      ((∃ words, m.pack keys values = .ok words) ↔
        EachFits ((keyWidths m.members)[·]?) (keys[·]?) ∧
          EachFits ((valueWidths m.members)[·]?) (values[·]?)) ∧
      ∀ e, m.pack keys values = .error e ↔
        ∃ i width value bits,
          FirstMisfit (m.layout.widths[·]?) (m.scalarAt? keys values) i width value ∧
            IsLeast {k | value < 2 ^ k} bits ∧ e = .codec (.valueOverflow i bits width)) ∧
    ∀ s d, ofDecl s d = .ok m →
      Layout.ofWidths m.layout.widths m.layout.wordBits = .ok m.layout := by
  refine ⟨fun e he => ?_, fun hcounts => ⟨exists_pack_eq_ok_iff hcounts, fun e =>
    pack_eq_error_iff hcounts⟩, fun s d h => Layout.ofWidths_eq_ok_iff.mpr
      ⟨rfl, valid_layout_of_ofDecl h⟩⟩
  have hpack : m.pack keys values = .error e := by rw [pack, he]
  refine ⟨hpack, he, ?_⟩
  rw [Record.pack, hpack]
  rfl

/-- The keys of a record come first where it is handed over, but its second member is the key.  Of
the two scalars that are too large, that of the first member is reported. -/
theorem value_refused_before_key :
    ∃ m : Model, m.layout = ⟨[16, 16, 8], 64⟩ ∧ m.checkCounts 1 2 = .ok () ∧
      m.pack [300] [7, 70000] = .error (.codec (.valueOverflow 1 17 16)) := by
  let m : Model := ⟨"Moves", .empty, [
    ⟨"last", .array 2 (.leaf ⟨"u16", 16⟩), .empty⟩,
    ⟨"player", .leaf ⟨"u8", 8⟩, .key⟩], 64, rfl⟩
  have hcounts : m.checkCounts 1 2 = .ok () := rfl
  obtain ⟨-, hpack, -⟩ := refuses_exactly m [300] [7, 70000]
  refine ⟨m, rfl, hcounts, ((hpack hcounts).2 _).mpr ⟨1, 16, 70000, 17, ⟨rfl, rfl, by decide, ?_⟩,
    isLeast_bitLength 70000, rfl⟩⟩
  intro j hj width value hwidth hvalue
  obtain rfl : j = 0 := by omega
  cases hwidth
  cases hvalue
  decide

end Model

end WordPacking
