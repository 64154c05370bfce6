/-
# The parts of a shape

Conditions on a record type are conditions on all of its parts, also on the elements of an
array that has no element and on the variants that are never the widest one.  This file sets up
the parts of a shape and the nesting of its structs, arrays and enums, and it reads the checked
slot count as such a condition: `checkedSize_eq_some_iff` says that the count is there exactly
when every part has fewer slots than can be addressed, and that it is then the slot count.
-/
import Mathlib.Tactic.Common
import WordPacking.Shape.Size

namespace WordPacking.Shape

variable {α β : Type}

/-! ## Induction -/

lemma sizeOf_body_lt_of_mem_members [SizeOf α] {m : Member (Shape α)}
    {members : List (Member (Shape α))} (hm : m ∈ members) : sizeOf m.body < sizeOf members := by
  have hlist := List.sizeOf_lt_of_mem hm
  have hmember : sizeOf m.body < sizeOf m := by
    obtain ⟨name, body, attrs⟩ := m
    show sizeOf body < _
    rw [Member.mk.sizeOf_spec]
    omega
  omega

lemma sizeOf_body_lt_of_mem_variants [SizeOf α] {v : Variant (Shape α)}
    {variants : List (Variant (Shape α))} (hv : v ∈ variants) :
    sizeOf v.body < sizeOf variants := by
  have hlist := List.sizeOf_lt_of_mem hv
  have hvariant : sizeOf v.body < sizeOf v := by
    obtain ⟨name, body⟩ := v
    show sizeOf body < _
    rw [Variant.mk.sizeOf_spec]
    omega
  omega

lemma sizeOf_element_lt [SizeOf α] (capacity : UInt32) (element : Shape α) :
    sizeOf element < sizeOf (array capacity element) := by
  rw [Shape.array.sizeOf_spec]
  omega

lemma sizeOf_member_lt [SizeOf α] {m : Member (Shape α)} {members : List (Member (Shape α))}
    (hm : m ∈ members) (name : String) (attrs : Attrs) :
    sizeOf m.body < sizeOf (struct name attrs members) := by
  have hbody := sizeOf_body_lt_of_mem_members hm
  rw [Shape.struct.sizeOf_spec]
  omega

lemma sizeOf_variant_lt [SizeOf α] {v : Variant (Shape α)} {variants : List (Variant (Shape α))}
    (hv : v ∈ variants) (name : String) : sizeOf v.body < sizeOf (enum name variants) := by
  have hbody := sizeOf_body_lt_of_mem_variants hv
  rw [Shape.enum.sizeOf_spec]
  omega

/-- Induction on a shape, with the hypothesis for all members and for all variants at once. -/
@[elab_as_elim]
theorem shape_induction {motive : Shape α → Prop} (leaf : ∀ a, motive (leaf a))
    (array : ∀ capacity element, motive element → motive (array capacity element))
    (struct : ∀ name attrs members, (∀ m ∈ members, motive m.body) →
      motive (struct name attrs members))
    (enum : ∀ name variants, (∀ v ∈ variants, motive v.body) → motive (enum name variants))
    (t : Shape α) : motive t := by
  match t with
  | .leaf a => exact leaf a
  | .array capacity element =>
    exact array capacity element (shape_induction leaf array struct enum element)
  | .struct name attrs members =>
    exact struct name attrs members fun m _ => shape_induction leaf array struct enum m.body
  | .enum name variants =>
    exact enum name variants fun v _ => shape_induction leaf array struct enum v.body
termination_by sizeOf t
decreasing_by
  · exact sizeOf_element_lt capacity element
  · exact sizeOf_member_lt ‹_› name attrs
  · exact sizeOf_variant_lt ‹_› name

/-! ## Parts -/

/-- `p` is a part of a shape: the shape itself, or a part of an element, a member or a variant
of it. -/
inductive PartOf (p : Shape α) : Shape α → Prop
  | self : PartOf p p
  | element {capacity : UInt32} {element : Shape α} :
    PartOf p element → PartOf p (array capacity element)
  | member {name : String} {attrs : Attrs} {members : List (Member (Shape α))}
      {m : Member (Shape α)} :
    m ∈ members → PartOf p m.body → PartOf p (struct name attrs members)
  | variant {name : String} {variants : List (Variant (Shape α))} {v : Variant (Shape α)} :
    v ∈ variants → PartOf p v.body → PartOf p (enum name variants)

@[simp] lemma partOf_leaf {p : Shape α} {a : α} : p.PartOf (leaf a) ↔ p = leaf a := by
  constructor
  · intro h
    cases h with
    | self => rfl
  · rintro rfl
    exact .self

@[simp] lemma partOf_array {p : Shape α} {capacity : UInt32} {element : Shape α} :
    p.PartOf (array capacity element) ↔ p = array capacity element ∨ p.PartOf element := by
  constructor
  · intro h
    cases h with
    | self => exact Or.inl rfl
    | element h => exact Or.inr h
  · rintro (rfl | h)
    · exact .self
    · exact .element h

@[simp] lemma partOf_struct {p : Shape α} {name : String} {attrs : Attrs}
    {members : List (Member (Shape α))} :
    p.PartOf (struct name attrs members) ↔
      p = struct name attrs members ∨ ∃ m ∈ members, p.PartOf m.body := by
  constructor
  · intro h
    cases h with
    | self => exact Or.inl rfl
    | member hm h => exact Or.inr ⟨_, hm, h⟩
  · rintro (rfl | ⟨m, hm, h⟩)
    · exact .self
    · exact .member hm h

@[simp] lemma partOf_enum {p : Shape α} {name : String} {variants : List (Variant (Shape α))} :
    p.PartOf (enum name variants) ↔
      p = enum name variants ∨ ∃ v ∈ variants, p.PartOf v.body := by
  constructor
  · intro h
    cases h with
    | self => exact Or.inl rfl
    | variant hv h => exact Or.inr ⟨_, hv, h⟩
  · rintro (rfl | ⟨v, hv, h⟩)
    · exact .self
    · exact .variant hv h

/-- A part of a part is a part. -/
lemma PartOf.trans {p q t : Shape α} (hp : p.PartOf q) (hq : q.PartOf t) : p.PartOf t := by
  induction hq with
  | self => exact hp
  | element _ ih => exact .element ih
  | member hm _ ih => exact .member hm ih
  | variant hv _ ih => exact .variant hv ih

/-- Every part of a shape has a property. -/
def EveryPart (P : Shape α → Prop) (t : Shape α) : Prop := ∀ p : Shape α, p.PartOf t → P p

variable {P : Shape α → Prop}

lemma everyPart_leaf {a : α} : (leaf a).EveryPart P ↔ P (leaf a) := by
  simp [EveryPart]

lemma everyPart_array {capacity : UInt32} {element : Shape α} :
    (array capacity element).EveryPart P ↔ P (array capacity element) ∧ element.EveryPart P := by
  simp [EveryPart]

lemma everyPart_struct {name : String} {attrs : Attrs} {members : List (Member (Shape α))} :
    (struct name attrs members).EveryPart P ↔
      P (struct name attrs members) ∧ ∀ m ∈ members, m.body.EveryPart P := by
  simp only [EveryPart, partOf_struct, forall_eq_or_imp]
  constructor
  · rintro ⟨hself, h⟩
    exact ⟨hself, fun m hm p hp => h p ⟨m, hm, hp⟩⟩
  · rintro ⟨hself, h⟩
    refine ⟨hself, ?_⟩
    rintro p ⟨m, hm, hp⟩
    exact h m hm p hp

lemma everyPart_enum {name : String} {variants : List (Variant (Shape α))} :
    (enum name variants).EveryPart P ↔
      P (enum name variants) ∧ ∀ v ∈ variants, v.body.EveryPart P := by
  simp only [EveryPart, partOf_enum, forall_eq_or_imp]
  constructor
  · rintro ⟨hself, h⟩
    exact ⟨hself, fun v hv p hp => h p ⟨v, hv, hp⟩⟩
  · rintro ⟨hself, h⟩
    refine ⟨hself, ?_⟩
    rintro p ⟨v, hv, hp⟩
    exact h v hv p hp

/-! ## Nesting -/

mutual

/-- The number of structs, arrays and enums that stand inside one another.  A leaf is no level;
a struct without members is one. -/
def nesting : Shape α → Nat
  | leaf _ => 0
  | array _ element => element.nesting + 1
  | struct _ _ members => nestingMembers members + 1
  | enum _ variants => nestingVariants variants + 1

/-- The nesting of the member that is nested most deeply. -/
def nestingMembers : List (Member (Shape α)) → Nat
  | [] => 0
  | ⟨_, body, _⟩ :: members => max body.nesting (nestingMembers members)

/-- The nesting of the variant that is nested most deeply. -/
def nestingVariants : List (Variant (Shape α)) → Nat
  | [] => 0
  | ⟨_, body⟩ :: variants => max body.nesting (nestingVariants variants)

end

/-- A struct below `depth` levels needs one level more, and so does each of its members. -/
lemma add_nesting_struct_le_iff {depth limit : Nat} {name : String} {attrs : Attrs}
    {members : List (Member (Shape α))} :
    depth + (struct name attrs members).nesting ≤ limit ↔
      depth < limit ∧ ∀ m ∈ members, depth + 1 + m.body.nesting ≤ limit := by
  simp only [nesting]
  induction members with
  | nil =>
    have hnone : ∀ m ∈ ([] : List (Member (Shape α))), depth + 1 + m.body.nesting ≤ limit := by
      simp
    rw [nestingMembers, and_iff_left hnone]
    omega
  | cons m members ih =>
    rw [List.forall_mem_cons, and_left_comm, ← ih, nestingMembers]
    omega

lemma add_nesting_enum_le_iff {depth limit : Nat} {name : String}
    {variants : List (Variant (Shape α))} :
    depth + (enum name variants).nesting ≤ limit ↔
      depth < limit ∧ ∀ v ∈ variants, depth + 1 + v.body.nesting ≤ limit := by
  simp only [nesting]
  induction variants with
  | nil =>
    have hnone : ∀ v ∈ ([] : List (Variant (Shape α))), depth + 1 + v.body.nesting ≤ limit := by
      simp
    rw [nestingVariants, and_iff_left hnone]
    omega
  | cons v variants ih =>
    rw [List.forall_mem_cons, and_left_comm, ← ih, nestingVariants]
    omega

/-- A member is nested less deeply than the struct. -/
lemma nesting_member_lt {m : Member (Shape α)} {members : List (Member (Shape α))}
    (hm : m ∈ members) (name : String) (attrs : Attrs) :
    m.body.nesting < (struct name attrs members).nesting := by
  have hself : 0 + (struct name attrs members).nesting ≤ (struct name attrs members).nesting := by
    omega
  have hmember := (add_nesting_struct_le_iff.mp hself).2 m hm
  omega

lemma nesting_variant_lt {v : Variant (Shape α)} {variants : List (Variant (Shape α))}
    (hv : v ∈ variants) (name : String) : v.body.nesting < (enum name variants).nesting := by
  have hself : 0 + (enum name variants).nesting ≤ (enum name variants).nesting := by omega
  have hvariant := (add_nesting_enum_le_iff.mp hself).2 v hv
  omega

/-! ## The checked slot count -/

lemma bounded_eq_some_iff {m n : Nat} : bounded m = some n ↔ n = m ∧ m < slotBound := by
  unfold bounded
  split
  · next h => simp [h, eq_comm]
  · next h => simp [h]

/-- Every part of a shape has fewer slots than can be addressed. -/
def Addressable (t : Shape α) : Prop := t.EveryPart fun p => p.size < slotBound

mutual

/-- The checked count is the slot count, and it is there exactly when every part of the type can
be addressed. -/
theorem checkedSize_eq_some_iff : ∀ {t : Shape α} {n : Nat},
    t.checkedSize = some n ↔ n = t.size ∧ t.Addressable
  | leaf a, n => by
    simp [checkedSize, size, Addressable, everyPart_leaf, slotBound, UInt64.size, eq_comm]
  | array capacity element, n => by
    simp only [checkedSize, Option.bind_eq_some_iff, bounded_eq_some_iff, size,
      checkedSize_eq_some_iff, Addressable, everyPart_array]
    constructor
    · rintro ⟨m, ⟨rfl, helement⟩, rfl, hbound⟩
      exact ⟨rfl, hbound, helement⟩
    · rintro ⟨rfl, hbound, helement⟩
      exact ⟨_, ⟨rfl, helement⟩, rfl, hbound⟩
  | struct _ _ members, n => by
    rw [checkedSize, checkedSum_eq_some_iff, Addressable, everyPart_struct, size]
    rfl
  | enum _ variants, n => by
    simp only [checkedSize, Option.bind_eq_some_iff, bounded_eq_some_iff, size,
      checkedMax_eq_some_iff, Addressable, everyPart_enum]
    constructor
    · rintro ⟨m, ⟨rfl, hvariants⟩, rfl, hbound⟩
      exact ⟨Nat.add_comm _ _, by omega, hvariants⟩
    · rintro ⟨rfl, hbound, hvariants⟩
      exact ⟨_, ⟨rfl, hvariants⟩, Nat.add_comm _ _, by omega⟩

theorem checkedSum_eq_some_iff : ∀ {members : List (Member (Shape α))} {n : Nat},
    checkedSum members = some n ↔
      n = sizeSum members ∧ sizeSum members < slotBound ∧ ∀ m ∈ members, m.body.Addressable
  | [], n => by
    simp [checkedSum, sizeSum, slotBound, UInt64.size, eq_comm]
  | ⟨_, body, _⟩ :: members, n => by
    simp only [checkedSum, Option.bind_eq_some_iff, bounded_eq_some_iff, sizeSum,
      checkedSize_eq_some_iff, checkedSum_eq_some_iff, List.mem_cons, forall_eq_or_imp]
    constructor
    · rintro ⟨k, ⟨rfl, hbody⟩, m, ⟨rfl, -, hmembers⟩, rfl, hbound⟩
      exact ⟨rfl, hbound, hbody, hmembers⟩
    · rintro ⟨rfl, hbound, hbody, hmembers⟩
      exact ⟨_, ⟨rfl, hbody⟩, _, ⟨rfl, by omega, hmembers⟩, rfl, hbound⟩

theorem checkedMax_eq_some_iff : ∀ {variants : List (Variant (Shape α))} {n : Nat},
    checkedMax variants = some n ↔
      n = sizeMax variants ∧ ∀ v ∈ variants, v.body.Addressable
  | [], n => by
    simp [checkedMax, sizeMax, eq_comm]
  | ⟨_, body⟩ :: variants, n => by
    simp only [checkedMax, Option.bind_eq_some_iff, Option.map_eq_some_iff, sizeMax,
      checkedSize_eq_some_iff, checkedMax_eq_some_iff, List.mem_cons, forall_eq_or_imp]
    constructor
    · rintro ⟨k, ⟨rfl, hbody⟩, m, ⟨rfl, hvariants⟩, rfl⟩
      exact ⟨rfl, hbody, hvariants⟩
    · rintro ⟨rfl, hbody, hvariants⟩
      exact ⟨_, ⟨rfl, hbody⟩, _, ⟨rfl, hvariants⟩, rfl⟩

end

lemma checkedSize_eq_none_iff {t : Shape α} : t.checkedSize = none ↔ ¬ t.Addressable := by
  simp [Option.eq_none_iff_forall_ne_some, checkedSize_eq_some_iff]

lemma not_addressable_iff {t : Shape α} :
    ¬ t.Addressable ↔ ∃ p : Shape α, p.PartOf t ∧ slotBound ≤ p.size := by
  simp [Addressable, EveryPart]

/-- The parts of a type that can be addressed can be addressed. -/
lemma Addressable.part {p t : Shape α} (h : t.Addressable) (hp : p.PartOf t) : p.Addressable :=
  fun q hq => h q (hq.trans hp)

end WordPacking.Shape
