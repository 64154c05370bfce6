/-
# Layouts as flattened types

The slots of a type are computed by looking up the largest number of slots among the variants of
each enum first.  This file compares them with two other accounts of the same list.

* `Shape.Flattens` says what the slots of a type are, one rule for each form.  For an enum with
  variants it asks for a variant that is larger than all before it and no smaller than any after
  it; such a variant is met only once.
* `Shape.write` appends the slots of a type to a buffer.  It chooses a variant in one pass, and it
  writes the elements of an array by copying the slice of the first one.

Both give the slots that the layout has (`flattens_iff`, `toList_write`).
-/
import Mathlib.Data.List.Induction
import WordPacking.Proofs.Schema.Widths

namespace WordPacking

namespace Shape

/-! ## The widest variant in one pass -/

/-- The choice after one more variant: it replaces the one so far only if it has more slots. -/
def wider (best : Option (Variant Tree × Nat)) (v : Variant Tree) : Option (Variant Tree × Nat) :=
  match best with
  | some (u, n) => if v.body.size ≤ n then some (u, n) else some (v, v.body.size)
  | none => some (v, v.body.size)

/-- A variant that is larger than all before it and no smaller than any after it is the one that
an enum reserves space for. -/
lemma widest?_append_cons {before after : List (Variant Tree)} {v : Variant Tree}
    (hbefore : ∀ u ∈ before, u.body.size < v.body.size)
    (hafter : ∀ u ∈ after, u.body.size ≤ v.body.size) :
    widest? (before ++ v :: after) = some (v, v.body.size) := by
  have hmax : sizeMax (before ++ v :: after) = v.body.size := by
    apply Nat.le_antisymm
    · have hne : before ++ v :: after ≠ [] := by simp
      obtain ⟨u, hu, hsize⟩ := exists_size_eq_sizeMax hne
      rw [← hsize]
      rcases List.mem_append.mp hu with hu | hu
      · exact Nat.le_of_lt (hbefore u hu)
      · rcases List.mem_cons.mp hu with rfl | hu
        · exact le_rfl
        · exact hafter u hu
    · exact size_le_sizeMax (by simp)
  have hnone : before.find? (fun u => u.body.size == v.body.size) = none := by
    rw [List.find?_eq_none]
    intro u hu
    have hlt := hbefore u hu
    simp only [beq_iff_eq]
    omega
  rw [widest?, hmax, List.find?_append, hnone]
  simp

/-- The first of the largest variants parts the list of variants. -/
lemma exists_append_cons_of_widest? {variants : List (Variant Tree)} {v : Variant Tree} {n : Nat}
    (h : widest? variants = some (v, n)) :
    n = v.body.size ∧ ∃ before after, variants = before ++ v :: after ∧
      (∀ u ∈ before, u.body.size < v.body.size) ∧ ∀ u ∈ after, u.body.size ≤ v.body.size := by
  obtain ⟨u, hfind, huv⟩ := Option.map_eq_some_iff.mp h
  obtain ⟨rfl, rfl⟩ := Prod.mk.inj huv
  obtain ⟨hsize, before, after, rfl, hbefore⟩ := List.find?_eq_some_iff_append.mp hfind
  rw [beq_iff_eq] at hsize
  refine ⟨rfl, before, after, rfl, fun w hw => ?_, fun w hw => ?_⟩
  · have hle : w.body.size ≤ sizeMax (before ++ u :: after) :=
      size_le_sizeMax (List.mem_append_left _ hw)
    have hne := hbefore w hw
    simp only [Bool.not_eq_true', beq_eq_false_iff_ne, ne_eq] at hne
    omega
  · have hle : w.body.size ≤ sizeMax (before ++ u :: after) :=
      size_le_sizeMax (List.mem_append_right _ (List.mem_cons_of_mem _ hw))
    omega

lemma widest?_eq_none_iff {variants : List (Variant Tree)} :
    widest? variants = none ↔ variants = [] := by
  constructor
  · intro h
    by_contra hne
    obtain ⟨v, hv, hsize⟩ := exists_size_eq_sizeMax hne
    rw [widest?, Option.map_eq_none_iff, List.find?_eq_none] at h
    exact h v hv (by simpa using hsize)
  · rintro rfl
    rfl

/-- The choice among the variants so far is that among all of them.  The induction goes from the
last variant back, as the pass only ever compares the next variant with the choice so far. -/
lemma foldl_wider (variants : List (Variant Tree)) :
    variants.foldl wider none = widest? variants := by
  induction variants using List.reverseRecOn with
  | nil => rfl
  | append_singleton variants v ih =>
    rw [List.foldl_concat, ih]
    cases hwidest : widest? variants with
    | none =>
      rw [widest?_eq_none_iff.mp hwidest]
      have hsole : widest? ([] ++ [v]) = some (v, v.body.size) :=
        widest?_append_cons (by simp) (by simp)
      exact hsole.symm
    | some best =>
      obtain ⟨u, n⟩ := best
      obtain ⟨rfl, before, after, rfl, hbefore, hafter⟩ := exists_append_cons_of_widest? hwidest
      rw [wider]
      split
      · next hle =>
        have hafter' : ∀ w ∈ after ++ [v], w.body.size ≤ u.body.size := by
          simp only [List.mem_append, List.mem_singleton]
          rintro w (hw | rfl)
          · exact hafter w hw
          · exact hle
        rw [List.append_assoc, List.cons_append, widest?_append_cons hbefore hafter']
      · next hlt =>
        have hall : ∀ w ∈ before ++ u :: after, w.body.size < v.body.size := by
          simp only [List.mem_append, List.mem_cons]
          rintro w (hw | rfl | hw)
          · have := hbefore w hw
            omega
          · omega
          · have := hafter w hw
            omega
        rw [widest?_append_cons hall (by simp)]

/-! ## What the slots of a type are -/

mutual

/-- `slots` are the widths of the slots of a type, in order. -/
inductive Flattens : Tree → List Nat → Prop
  | leaf (p : Primitive) : Flattens (.leaf p) [p.width]
  | array {capacity : UInt32} {element : Tree} {slots : List Nat} :
    Flattens element slots →
      Flattens (.array capacity element) (List.replicate capacity.toNat slots).flatten
  | struct {name : String} {attrs : Attrs} {members : List (Member Tree)} {slots : List Nat} :
    FlattensMembers members slots → Flattens (.struct name attrs members) slots
  | noVariant (name : String) : Flattens (.enum name []) [8]
  | enum {name : String} {before after : List (Variant Tree)} {v : Variant Tree}
      {slots : List Nat} :
    (∀ u ∈ before, u.body.size < v.body.size) → (∀ u ∈ after, u.body.size ≤ v.body.size) →
      Flattens v.body slots → Flattens (.enum name (before ++ v :: after)) (8 :: slots)

/-- `slots` are the widths of the slots of all members, one member after the other. -/
inductive FlattensMembers : List (Member Tree) → List Nat → Prop
  | nil : FlattensMembers [] []
  | cons {m : Member Tree} {members : List (Member Tree)} {slots rest : List Nat} :
    Flattens m.body slots → FlattensMembers members rest →
      FlattensMembers (m :: members) (slots ++ rest)

end

lemma flattensMembers_widths {members : List (Member Tree)}
    (h : ∀ m ∈ members, Flattens m.body m.body.widths) :
    FlattensMembers members (members.flatMap fun m => m.body.widths) := by
  induction members with
  | nil => exact .nil
  | cons m members ih =>
    obtain ⟨hm, hrest⟩ := List.forall_mem_cons.mp h
    exact .cons hm (ih hrest)

/-- The computed widths are widths of the slots. -/
lemma flattens_widths (t : Tree) : Flattens t t.widths := by
  induction t using shape_induction with
  | leaf p => exact .leaf p
  | array capacity element ih =>
    rw [widths_array]
    exact .array ih
  | struct name attrs members ih =>
    rw [widths_struct]
    exact .struct (flattensMembers_widths ih)
  | enum name variants ih =>
    rw [widths_enum]
    cases hwidest : widest? variants with
    | none =>
      rw [widest?_eq_none_iff.mp hwidest]
      exact .noVariant name
    | some best =>
      obtain ⟨v, n⟩ := best
      obtain ⟨-, before, after, rfl, hbefore, hafter⟩ := exists_append_cons_of_widest? hwidest
      exact .enum hbefore hafter (ih v (by simp))

mutual

/-- The widths of the slots are the computed ones. -/
theorem Flattens.eq_widths {t : Tree} {slots : List Nat} : Flattens t slots → slots = t.widths
  | .leaf p => rfl
  | .array h => by rw [widths_array, ← h.eq_widths]
  | .struct h => by rw [widths_struct, h.eq_flatMap]
  | .noVariant name => rfl
  | .enum hbefore hafter h => by
    rw [widths_enum, widest?_append_cons hbefore hafter, h.eq_widths]
    rfl

theorem FlattensMembers.eq_flatMap {members : List (Member Tree)} {slots : List Nat} :
    FlattensMembers members slots → slots = members.flatMap fun m => m.body.widths
  | .nil => rfl
  | .cons h hs => by rw [h.eq_widths, hs.eq_flatMap, List.flatMap_cons]

end

/-- The rules fix the slots of each type: there is exactly one list, and it is computed. -/
theorem flattens_iff {t : Tree} {slots : List Nat} : Flattens t slots ↔ t.widths = slots := by
  constructor
  · intro h
    exact h.eq_widths.symm
  · rintro rfl
    exact flattens_widths t

/-! ## Writing the slots into one buffer -/

/-- Appends a slice to a buffer a number of times. -/
def appendCopies (slice : Array Nat) : Nat → Array Nat → Array Nat
  | 0, out => out
  | copies + 1, out => appendCopies slice copies (out ++ slice)

lemma toList_appendCopies (slice : Array Nat) (copies : Nat) (out : Array Nat) :
    (appendCopies slice copies out).toList =
      out.toList ++ (List.replicate copies slice.toList).flatten := by
  induction copies generalizing out with
  | zero => simp [appendCopies]
  | succ copies ih => simp [appendCopies, ih, List.replicate_succ]

lemma sizeOf_body_lt_of_foldl_wider {variants : List (Variant Tree)} {v : Variant Tree} {n : Nat}
    (h : variants.foldl wider none = some (v, n)) : sizeOf v.body < sizeOf variants := by
  rw [foldl_wider] at h
  obtain ⟨-, before, after, rfl, -, -⟩ := exists_append_cons_of_widest? h
  exact sizeOf_body_lt_of_mem_variants (by simp)

mutual

/-- Appends the slots of a type to a buffer.  The elements of an array after the first one are
copies of the slice that the first one has written. -/
def write (out : Array Nat) : Tree → Array Nat
  | .leaf p => out.push p.width
  | .array capacity element =>
    if capacity = 0 then out
    else
      let first := write out element
      appendCopies (first.extract out.size first.size) (capacity.toNat - 1) first
  | .struct _ _ members => writeMembers out members
  | .enum _ variants =>
    match _ : variants.foldl wider none with
    | none => out.push discriminantBits
    | some (v, _) => write (out.push discriminantBits) v.body
termination_by t => sizeOf t
decreasing_by
  · rw [Shape.array.sizeOf_spec]
    omega
  · rw [Shape.struct.sizeOf_spec]
    omega
  · have hbody := sizeOf_body_lt_of_foldl_wider ‹_›
    rw [Shape.enum.sizeOf_spec]
    omega

/-- Appends the slots of all members, one member after the other. -/
def writeMembers (out : Array Nat) : List (Member Tree) → Array Nat
  | [] => out
  | ⟨_, body, _⟩ :: members => writeMembers (write out body) members
termination_by members => sizeOf members
decreasing_by
  · rw [List.cons.sizeOf_spec, Member.mk.sizeOf_spec]
    omega
  · rw [List.cons.sizeOf_spec]
    omega

end

lemma toList_writeMembers {members : List (Member Tree)} {out : Array Nat}
    (h : ∀ m ∈ members, ∀ out, (write out m.body).toList = out.toList ++ m.body.widths) :
    (writeMembers out members).toList =
      out.toList ++ members.flatMap fun m => m.body.widths := by
  induction members generalizing out with
  | nil => simp [writeMembers]
  | cons m members ih =>
    obtain ⟨hm, hrest⟩ := List.forall_mem_cons.mp h
    rw [writeMembers, ih hrest, hm, List.append_assoc, List.flatMap_cons]

/-- What is in the buffer stays, and the slots of the type come behind it. -/
theorem toList_write (t : Tree) (out : Array Nat) :
    (write out t).toList = out.toList ++ t.widths := by
  induction t using shape_induction generalizing out with
  | leaf p => simp [write]
  | array capacity element ih =>
    rw [write, widths_array]
    split
    · next h => simp [h]
    · next h =>
      have hpos : capacity.toNat ≠ 0 := by
        intro hzero
        exact h (UInt32.toNat_inj.mp hzero)
      obtain ⟨copies, hcopies⟩ := Nat.exists_eq_succ_of_ne_zero hpos
      -- the slice between the two ends of the buffer is what the element has written
      have hslice : ((write out element).extract out.size (write out element).size).toList =
          element.widths := by
        have hsize : (write out element).size = out.size + element.widths.length := by
          rw [← Array.length_toList, ih, List.length_append, Array.length_toList]
        rw [Array.toList_extract, ih, hsize]
        simp
      dsimp only
      rw [toList_appendCopies, hslice, ih, hcopies, Nat.succ_sub_one, List.replicate_succ,
        List.flatten_cons, List.append_assoc]
  | struct name attrs members ih =>
    rw [write, widths_struct, toList_writeMembers ih]
  | enum name variants ih =>
    rw [write, widths_enum]
    split
    · next h =>
      rw [foldl_wider] at h
      simp [h]
    · next v n h =>
      rw [foldl_wider] at h
      obtain ⟨-, before, after, rfl, -⟩ := exists_append_cons_of_widest? h
      rw [ih v (by simp), h]
      simp

end Shape

namespace Scope

/-- **A layout is the flattened type.**  The slots in the layout of a resolved type are those that
the rules of flattening give to it and to no other list, and they are what is written when the
type is appended to an empty buffer.  There are as many as the size of the type says; the words
are those of the width table; and as each slot is at least one bit and at most a word wide, the
widths make up this very layout again when they are checked one by one. -/
theorem layout_eq_flattening {s : Scope} {d : Decl} {schema : Schema}
    (h : s.resolve d = .ok schema) :
    (∀ slots, Shape.Flattens schema.root slots ↔ schema.layout.widths = slots) ∧
    (Shape.write #[] schema.root).toList = schema.layout.widths ∧
    schema.layout.size = schema.size ∧
    schema.layout.wordBits = s.table.wordBits ∧
    (∀ w ∈ schema.layout.widths, 1 ≤ w ∧ w ≤ s.table.wordBits) ∧
    Layout.ofWidths schema.layout.widths schema.layout.wordBits = .ok schema.layout := by
  have hvalid : schema.layout.Valid := valid_layout_of_resolve h
  have hbits : schema.layout.wordBits = s.table.wordBits := by
    obtain ⟨t, -, -, rfl⟩ := resolve_eq_ok_iff.mp h
    rfl
  refine ⟨fun slots => Shape.flattens_iff, ?_, schema.size_layout, hbits, ?_, ?_⟩
  · rw [Shape.toList_write]
    rfl
  · rw [← hbits]
    exact hvalid
  · exact Layout.ofWidths_eq_ok_iff.mpr ⟨rfl, hvalid⟩

/-- Of two variants with one slot each the enum reserves the slots of the first, although the
second has more bits.  The gap in each cell takes no slot. -/
theorem layout_eq_flattening_frame :
    let s : Scope := ⟨.standardFor 64, .empty, 64⟩
    let d : Decl := .struct "Frame" .empty [
      ⟨"grid", .array 2 (.array 2 (.struct "Cell" .empty [
        ⟨"on", Decl.primitive "bool", .empty⟩,
        ⟨"gap", .array 0 (Decl.primitive "u64"), .empty⟩])), .empty⟩,
      ⟨"event", .enum "Event" [⟨"Idle", Decl.unit⟩, ⟨"Key", Decl.primitive "u8"⟩,
        ⟨"Glyph", Decl.primitive "u32"⟩], .key⟩]
    ∃ schema, s.resolve d = .ok schema ∧ schema.size = 6 ∧
      schema.layout = ⟨[1, 1, 1, 1, 8, 8], 64⟩ ∧
      Shape.Flattens schema.root [1, 1, 1, 1, 8, 8] ∧
      (Shape.write #[] schema.root).toList = [1, 1, 1, 1, 8, 8] := by
  intro s d
  have hschema : s.resolve d = .ok ⟨.struct "Frame" .empty [
      ⟨"grid", .array 2 (.array 2 (.struct "Cell" .empty [
        ⟨"on", .leaf ⟨"bool", 1⟩, .empty⟩,
        ⟨"gap", .array 0 (.leaf ⟨"u64", 64⟩), .empty⟩])), .empty⟩,
      ⟨"event", .enum "Event" [⟨"Idle", .struct "()" .empty []⟩, ⟨"Key", .leaf ⟨"u8", 8⟩⟩,
        ⟨"Glyph", .leaf ⟨"u32", 32⟩⟩], .key⟩], 64⟩ := by
    simp only [s, d, Decl.primitive, Decl.unit, Scope.resolve, Scope.expand, Scope.expandMembers,
      Scope.expandVariants]
    rfl
  obtain ⟨hflattens, hwrite, -⟩ := layout_eq_flattening hschema
  exact ⟨_, hschema, rfl, rfl, (hflattens _).mpr rfl, hwrite⟩

end Scope

end WordPacking
