/-
# Slot counts in 64 bits

The slots of a resolved type are counted once more whenever a layout or a size is asked for, now
with plain sums and products.  This file follows such a count operation by operation, as one that
fails where an intermediate result does not fit into 64 bits (`Shape.count?`).  It is there exactly
when the checked count of resolving is, although it adds from the left and chooses the widest
variant of an enum in one pass: sums and maxima of counts only grow on the way, and a product with
a capacity of zero is covered as the element is counted first.

So what resolving checks once at the root protects every later count on any part of the schema.
-/
import WordPacking.Proofs.Model.Interleave
import WordPacking.Proofs.Schema.Flattening
import WordPacking.Proofs.Scope.Visits

namespace WordPacking

namespace Shape

/-! ## The count -/

/-- The choice after one more variant with its count: it replaces the one so far only if it has more
slots. -/
def choose (best : Option (Variant Tree × Nat)) (v : Variant Tree) (n : Nat) :
    Option (Variant Tree × Nat) :=
  match best with
  | some (u, m) => if n ≤ m then some (u, m) else some (v, n)
  | none => some (v, n)

mutual

/-- The number of slots of a type, if no sum and no product on the way leaves 64 bits. -/
def count? : Tree → Option Nat
  | leaf _ => some 1
  | array capacity element => element.count?.bind fun n => bounded (capacity.toNat * n)
  | struct _ _ members => countFrom? 0 members
  | enum _ variants =>
    (chooseFrom? none variants).bind fun best => bounded (1 + (best.map (·.2)).getD 0)

/-- Adds the slots of the members to a sum, one member after the other. -/
def countFrom? (sum : Nat) : List (Member Tree) → Option Nat
  | [] => some sum
  | ⟨_, body, _⟩ :: members =>
    body.count?.bind fun n => (bounded (sum + n)).bind fun sum => countFrom? sum members

/-- Counts the variants one after the other and keeps the first of those with the most slots. -/
def chooseFrom? (best : Option (Variant Tree × Nat)) :
    List (Variant Tree) → Option (Option (Variant Tree × Nat))
  | [] => some best
  | ⟨name, body⟩ :: variants =>
    body.count?.bind fun n => chooseFrom? (choose best ⟨name, body⟩ n) variants

end

/-- The slots next to the largest variant are the largest number of slots. -/
lemma widest?_map_snd (variants : List (Variant Tree)) :
    ((widest? variants).map (·.2)).getD 0 = sizeMax variants := by
  cases h : widest? variants with
  | none =>
    rw [widest?_eq_none_iff.mp h]
    rfl
  | some best =>
    obtain ⟨v, hfind, rfl⟩ := Option.map_eq_some_iff.mp h
    have hsize := List.find?_some hfind
    rw [beq_iff_eq] at hsize
    exact hsize

mutual

/-- The count is the number of slots, and it is there exactly when every part of the type can be
addressed. -/
theorem count?_eq_some_iff : ∀ {t : Tree} {n : Nat},
    t.count? = some n ↔ n = t.size ∧ t.Addressable
  | leaf a, n => by
    simp [count?, size, Addressable, everyPart_leaf, slotBound, UInt64.size, eq_comm]
  | array capacity element, n => by
    simp only [count?, Option.bind_eq_some_iff, bounded_eq_some_iff, size, count?_eq_some_iff,
      Addressable, everyPart_array]
    constructor
    · rintro ⟨m, ⟨rfl, helement⟩, rfl, hbound⟩
      exact ⟨rfl, hbound, helement⟩
    · rintro ⟨rfl, hbound, helement⟩
      exact ⟨_, ⟨rfl, helement⟩, rfl, hbound⟩
  | struct _ _ members, n => by
    rw [count?, countFrom?_eq_some_iff (by decide), Addressable, everyPart_struct, size,
      Nat.zero_add]
    rfl
  | enum _ variants, n => by
    simp only [count?, Option.bind_eq_some_iff, bounded_eq_some_iff, size,
      chooseFrom?_eq_some_iff, foldl_wider, Addressable, everyPart_enum]
    constructor
    · rintro ⟨_, ⟨rfl, hvariants⟩, rfl, hbound⟩
      rw [widest?_map_snd] at hbound ⊢
      exact ⟨rfl, hbound, hvariants⟩
    · rintro ⟨rfl, hbound, hvariants⟩
      refine ⟨_, ⟨rfl, hvariants⟩, ?_⟩
      rw [widest?_map_snd]
      exact ⟨rfl, hbound⟩

theorem countFrom?_eq_some_iff : ∀ {members : List (Member Tree)} {sum n : Nat},
    sum < slotBound → (countFrom? sum members = some n ↔
      n = sum + sizeSum members ∧ sum + sizeSum members < slotBound ∧
        ∀ m ∈ members, m.body.Addressable)
  | [], sum, n, hsum => by
    simp [countFrom?, sizeSum, hsum, eq_comm]
  | ⟨_, body, _⟩ :: members, sum, n, hsum => by
    simp only [countFrom?, Option.bind_eq_some_iff, bounded_eq_some_iff, sizeSum,
      count?_eq_some_iff, List.mem_cons, forall_eq_or_imp, ← Nat.add_assoc]
    constructor
    · rintro ⟨k, ⟨rfl, hbody⟩, _, ⟨rfl, hnext⟩, hrest⟩
      obtain ⟨rfl, hbound, hmembers⟩ := (countFrom?_eq_some_iff hnext).mp hrest
      exact ⟨rfl, hbound, hbody, hmembers⟩
    · rintro ⟨rfl, hbound, hbody, hmembers⟩
      have hnext : sum + body.size < slotBound := by omega
      exact ⟨_, ⟨rfl, hbody⟩, _, ⟨rfl, hnext⟩,
        (countFrom?_eq_some_iff hnext).mpr ⟨rfl, hbound, hmembers⟩⟩

theorem chooseFrom?_eq_some_iff : ∀ {variants : List (Variant Tree)}
    {best choice : Option (Variant Tree × Nat)}, chooseFrom? best variants = some choice ↔
      choice = variants.foldl wider best ∧ ∀ v ∈ variants, v.body.Addressable
  | [], best, choice => by
    simp [chooseFrom?, eq_comm]
  | ⟨name, body⟩ :: variants, best, choice => by
    have hwider : wider best ⟨name, body⟩ = choose best ⟨name, body⟩ body.size := rfl
    simp only [chooseFrom?, Option.bind_eq_some_iff, count?_eq_some_iff, chooseFrom?_eq_some_iff,
      List.foldl_cons, List.mem_cons, forall_eq_or_imp, hwider]
    constructor
    · rintro ⟨_, ⟨rfl, hbody⟩, rfl, hvariants⟩
      exact ⟨rfl, hbody, hvariants⟩
    · rintro ⟨rfl, hbody, hvariants⟩
      exact ⟨_, ⟨rfl, hbody⟩, rfl, hvariants⟩

end

lemma sizeSum_eq_total {α : Type} (members : List (Member (Shape α))) :
    sizeSum members = total (members.map (·.body.size)) := by
  induction members with
  | nil => rfl
  | cons m members ih => rw [sizeSum, List.map_cons, total_cons, ih]

end Shape

/-! ## Keys and values -/

namespace Schema

/-- The slots of the key members, counted like those of a struct. -/
def keyCount? (s : Schema) : Option Nat := Shape.countFrom? 0 s.keyMembers

/-- The slots of everything else, by a subtraction that fails below zero. -/
def valueCount? (s : Schema) : Option Nat := do
  let all ← s.root.count?
  let key ← s.keyCount?
  if key ≤ all then some (all - key) else none

variable {s : Schema}

/-- The key members and the other members make up the slots of a struct. -/
lemma keySize_add_total_valueMembers {name : String} {attrs : Attrs} {members : List (Member Tree)}
    (hroot : s.root = .struct name attrs members) :
    s.keySize + total (s.valueMembers.map (·.body.size)) = s.size := by
  have hmembers : s.members = members := by rw [Schema.members, hroot]
  rw [keySize, keyMembers, valueMembers, hmembers, Schema.size, hroot, Shape.size]
  exact Model.keySlots_add_valueSlots members

lemma keySize_le_size (s : Schema) : s.keySize ≤ s.size := by
  cases hroot : s.root with
  | struct name attrs members =>
    have hadd := keySize_add_total_valueMembers hroot
    omega
  | _ => simp [keySize, keyMembers, members, hroot]

lemma partOf_of_mem_keyMembers {m : Member Tree} (hm : m ∈ s.keyMembers) :
    m.body.PartOf s.root := by
  have hmembers : m ∈ s.members := List.mem_of_mem_filter hm
  unfold members at hmembers
  split at hmembers
  · next name attrs members hroot =>
    rw [hroot]
    exact .member hmembers .self
  · simp at hmembers

lemma keyCount?_eq (h : s.root.Addressable) : s.keyCount? = some s.keySize := by
  have hsum : Shape.sizeSum s.keyMembers = s.keySize := Shape.sizeSum_eq_total s.keyMembers
  have hle := s.keySize_le_size
  have hsize : s.size < Shape.slotBound := h s.root .self
  rw [keyCount?, Shape.countFrom?_eq_some_iff (by decide), hsum]
  exact ⟨(Nat.zero_add _).symm, by omega, fun m hm => h.part (partOf_of_mem_keyMembers hm)⟩

lemma valueCount?_eq (h : s.root.Addressable) : s.valueCount? = some s.valueSize := by
  have hall : s.root.count? = some s.size := Shape.count?_eq_some_iff.mpr ⟨rfl, h⟩
  simp [valueCount?, hall, keyCount?_eq h, s.keySize_le_size, valueSize]

end Schema

/-! ## Resolving -/

namespace Scope

variable {s : Scope}

/-- A type that is too large is one with which everything else is in order. -/
theorem resolve_eq_tooLarge_iff {d : Decl} {name : Option String} :
    s.resolve d = .error (.tooLarge name) ↔ ∃ t : Shape String,
      s.definitions.Expands d t ∧ t.EveryPart s.Usable ∧ t.nesting ≤ s.maxDepth ∧
      ¬ t.Addressable ∧ name = t.name? id := by
  have hexpand : ∀ root, s.expand [] 0 d = .ok root ↔ s.Yields [] 0 d root := fun root =>
    expand_eq_ok_iff (Nat.zero_le _)
  have hchecked : ∀ t : Shape String,
      (t.map s.table.primitive).checkedSize = none ↔ ¬ t.Addressable := by
    intro t
    rw [Shape.checkedSize_eq_none_iff, Shape.addressable_map_iff]
  constructor
  · intro h
    cases hroot : s.expand [] 0 d with
    | error e =>
      rw [resolve_of_expand_eq_error hroot, Except.error.injEq] at h
      obtain ⟨v, -, hdefect⟩ := exists_defect_of_expand (h ▸ hroot)
      cases hdefect
    | ok root =>
      obtain ⟨-, t, ht, ⟨husable, hnesting⟩, rfl⟩ := (hexpand root).mp hroot
      rw [resolve_of_expand_eq_ok hroot] at h
      cases hsize : (t.map s.table.primitive).checkedSize with
      | some n =>
        rw [hsize] at h
        cases h
      | none =>
        rw [hsize, Except.error.injEq, ResolveError.tooLarge.injEq] at h
        refine ⟨t, ht, husable, by simpa using hnesting, (hchecked t).mp hsize, ?_⟩
        rw [← h, Tree.name?, Shape.name?_map]
        rfl
  · rintro ⟨t, ht, husable, hnesting, hlarge, rfl⟩
    have hroot := (hexpand (t.map s.table.primitive)).mpr
      ⟨by simp, t, ht, ⟨husable, by simpa using hnesting⟩, rfl⟩
    rw [resolve_of_expand_eq_ok hroot, (hchecked t).mpr hlarge, Tree.name?, Shape.name?_map]
    rfl

/-- A schema that resolving gives can be addressed. -/
lemma addressable_of_resolve {d : Decl} {schema : Schema} (h : s.resolve d = .ok schema) :
    schema.root.Addressable := by
  obtain ⟨t, -, hadmits, rfl⟩ := resolve_eq_ok_iff.mp h
  exact Shape.addressable_map_iff.mpr (admits_iff.mp hadmits).2.2

/-- **Slots are counted exactly, and no count of a schema overflows.**  The checked count of a tree
is there exactly when all its parts, elements of empty arrays and variants included, have fewer than
`2 ^ 64` slots, and the count without checks fits into 64 bits at each step exactly when it is
there.  So in a schema that resolving gives every part is counted as it is, every enum has the
first of its largest variants chosen, and the sizes of key and values, the latter a difference, are
the true ones.  A type is refused as too large exactly when nothing else is wrong with it and some
part of it has `2 ^ 64` slots or more. -/
theorem slot_counts_exact (s : Scope) (d : Decl) :
    (∀ (t : Tree) (n : Nat), t.checkedSize = some n ↔
      n = t.size ∧ ∀ p : Tree, p.PartOf t → p.size < 2 ^ 64) ∧
    (∀ t : Tree, t.count? = t.checkedSize) ∧
    (∀ schema, s.resolve d = .ok schema →
      (∀ p : Tree, p.PartOf schema.root → p.count? = some p.size) ∧
      (∀ name variants, (Shape.enum name variants).PartOf schema.root →
        ∃ choice, Shape.chooseFrom? none variants = some choice ∧
          (choice = none ↔ variants = []) ∧
          ∀ v n, choice = some (v, n) → n = v.body.size ∧
            ∃ before after, variants = before ++ v :: after ∧
              (∀ u ∈ before, u.body.size < v.body.size) ∧
              ∀ u ∈ after, u.body.size ≤ v.body.size) ∧
      schema.keyCount? = some schema.keySize ∧ schema.valueCount? = some schema.valueSize ∧
      schema.keySize + schema.valueSize = schema.size ∧
      ∀ name attrs members, schema.root = .struct name attrs members →
        schema.valueSize = total (schema.valueMembers.map (·.body.size))) ∧
    ∀ name, s.resolve d = .error (.tooLarge name) ↔ ∃ t : Shape String,
      s.definitions.Expands d t ∧ t.EveryPart s.Usable ∧ t.nesting ≤ s.maxDepth ∧
      (∃ p : Shape String, p.PartOf t ∧ 2 ^ 64 ≤ p.size) ∧ name = t.name? id := by
  refine ⟨fun t n => Shape.checkedSize_eq_some_iff, fun t => ?_, fun schema h => ?_, fun name => ?_⟩
  · refine Option.ext fun n => ?_
    rw [Shape.count?_eq_some_iff, Shape.checkedSize_eq_some_iff]
  · have haddressable := addressable_of_resolve h
    have hle := schema.keySize_le_size
    refine ⟨fun p hp => ?_, fun name variants hpart => ?_, Schema.keyCount?_eq haddressable,
      Schema.valueCount?_eq haddressable, Nat.add_sub_cancel' hle,
      fun name attrs members hroot => ?_⟩
    · exact Shape.count?_eq_some_iff.mpr ⟨rfl, haddressable.part hp⟩
    · have hvariants : ∀ v ∈ variants, v.body.Addressable := fun v hv =>
        haddressable.part (Shape.PartOf.trans (.variant hv .self) hpart)
      refine ⟨Shape.widest? variants, ?_, Shape.widest?_eq_none_iff,
        fun v n hchoice => Shape.exists_append_cons_of_widest? hchoice⟩
      rw [Shape.chooseFrom?_eq_some_iff, Shape.foldl_wider]
      exact ⟨rfl, hvariants⟩
    · have hadd := Schema.keySize_add_total_valueMembers hroot
      rw [Schema.valueSize]
      omega
  · rw [resolve_eq_tooLarge_iff]
    simp only [Shape.not_addressable_iff]
    rfl

/-- Three cells and a gap next to a key of two slots, one of them for the larger variant.  The rows
of the empty table would take no slot either, but one of them has more than can be addressed. -/
theorem slot_counts_exact_frame :
    let s : Scope := ⟨.standardFor 64, .empty, 64⟩
    let rows : Decl := .array 4294967295 (.array 4294967295 (.array 2 (Decl.primitive "u8")))
    let frame : Decl := .struct "Frame" .empty [
      ⟨"cells", .array 3 (Decl.primitive "u8"), .empty⟩,
      ⟨"gap", .array 0 (.array 4294967295 (Decl.primitive "u8")), .empty⟩,
      ⟨"event", .enum "Event" [⟨"Idle", Decl.unit⟩, ⟨"Key", Decl.primitive "u8"⟩], .key⟩]
    let table : Decl := .struct "Table" .empty [⟨"rows", .array 0 rows, .empty⟩]
    ∃ schema, s.resolve frame = .ok schema ∧ schema.root.count? = some 5 ∧
      schema.keyCount? = some 2 ∧ schema.valueCount? = some 3 ∧
      s.resolve table = .error (.tooLarge (some "Table")) := by
  intro s rows frame table
  let root : Tree := .struct "Frame" .empty [
    ⟨"cells", .array 3 (.leaf ⟨"u8", 8⟩), .empty⟩,
    ⟨"gap", .array 0 (.array 4294967295 (.leaf ⟨"u8", 8⟩)), .empty⟩,
    ⟨"event", .enum "Event" [⟨"Idle", .struct "()" .empty []⟩, ⟨"Key", .leaf ⟨"u8", 8⟩⟩], .key⟩]
  have hframe : s.resolve frame = .ok ⟨root, 64⟩ := by
    simp only [frame, Decl.primitive, Decl.unit, Scope.resolve, Scope.expand, Scope.expandMembers,
      Scope.expandVariants]
    rfl
  obtain ⟨-, -, hcounts, -⟩ := slot_counts_exact s frame
  obtain ⟨hparts, -, hkey, hvalue, -⟩ := hcounts _ hframe
  have htable : s.resolve table = .error (.tooLarge (some "Table")) := by
    simp only [table, rows, Decl.primitive, Scope.resolve, Scope.expand, Scope.expandMembers]
    rfl
  exact ⟨_, hframe, hparts root .self, hkey, hvalue, htable⟩

end Scope

end WordPacking
