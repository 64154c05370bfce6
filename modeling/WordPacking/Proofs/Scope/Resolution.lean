/-
# Which types can be resolved, and into what

A declared type is accepted exactly when its references can be expanded and its expansion keeps
the conditions of the scope.  The conditions are said of the expansion alone (`Scope.Admits`):
they know no path, no depth and no order of the walk.  The schema is the expansion with a width
at every leaf.
-/
import Mathlib.Algebra.Ring.Nat
import WordPacking.Proofs.Scope.Yield

namespace WordPacking.Scope

open Definitions

variable {s : Scope}

/-- What a scope asks of a type without references. -/
structure Admits (s : Scope) (t : Shape String) : Prop where
  /-- Every primitive has an entry, of at least one bit and at most a word. -/
  widths : ∀ name, (Shape.leaf name).PartOf t →
    ∃ width, s.table.get? name = some width ∧ 1 ≤ width ∧ width ≤ s.table.wordBits
  /-- No enum has more variants than eight bits tell apart, and eight bits go into a word. -/
  enums : ∀ name variants, (Shape.enum name variants).PartOf t →
    variants.length ≤ 256 ∧ 8 ≤ s.table.wordBits
  /-- Structs, arrays and enums are not nested more deeply than the limit. -/
  nesting : t.nesting ≤ s.maxDepth
  /-- Every part of the type, also one that takes no slot in the end, has fewer slots than can
  be addressed. -/
  slots : ∀ p : Shape String, p.PartOf t → p.size < 2 ^ 64

lemma admits_iff {t : Shape String} : s.Admits t ↔
    t.EveryPart s.Usable ∧ t.nesting ≤ s.maxDepth ∧ t.Addressable := by
  constructor
  · intro h
    refine ⟨fun p hp => ?_, h.nesting, h.slots⟩
    cases p with
    | leaf name => exact h.widths name hp
    | enum name variants => exact h.enums name variants hp
    | array capacity element => trivial
    | struct name attrs members => trivial
  · rintro ⟨husable, hnesting, hslots⟩
    exact ⟨fun name hp => husable _ hp, fun name variants hp => husable _ hp, hnesting, hslots⟩

/-! ## Every expandable type has an expansion -/

lemma exists_expandsMembers {ds : Definitions} {members : List (Member Decl)}
    (h : ∀ m ∈ members, ∃ t, ds.Expands m.body t) : ∃ ts, ds.ExpandsMembers members ts := by
  induction members with
  | nil => exact ⟨[], .nil⟩
  | cons m members ih =>
    obtain ⟨⟨t, ht⟩, hrest⟩ := List.forall_mem_cons.mp h
    obtain ⟨ts, hts⟩ := ih hrest
    exact ⟨⟨m.name, t, m.attrs⟩ :: ts, .cons ht hts⟩

lemma exists_expandsVariants {ds : Definitions} {variants : List (Variant Decl)}
    (h : ∀ v ∈ variants, ∃ t, ds.Expands v.body t) : ∃ ts, ds.ExpandsVariants variants ts := by
  induction variants with
  | nil => exact ⟨[], .nil⟩
  | cons v variants ih =>
    obtain ⟨⟨t, ht⟩, hrest⟩ := List.forall_mem_cons.mp h
    obtain ⟨ts, hts⟩ := ih hrest
    exact ⟨⟨v.name, t⟩ :: ts, .cons ht hts⟩

/-- The expansion of a type exists when its references are registered and no cycle is reached.
The induction is that of the walk; that no name on the path is reached keeps it away from names
that are being expanded. -/
lemma exists_expands {path : List String} {d : Decl}
    (hpath : ∀ n ∈ path, ¬ s.definitions.Reaches d n) (h : s.definitions.Expandable d) :
    ∃ t, s.definitions.Expands d t := by
  induction path, d using s.walk_induction with
  | primitive path name => exact ⟨.leaf name, .primitive name⟩
  | repeated path name hname =>
    exact absurd (reaches_named_iff.mpr (Or.inl rfl)) (hpath name hname)
  | unknown path name hname hd =>
    obtain ⟨definition, hd'⟩ := h.registered name (reaches_named_iff.mpr (Or.inl rfl))
    rw [hd] at hd'
    cases hd'
  | named path name definition hname hd ih =>
    obtain ⟨hcycle, definition', hd', hdef⟩ := expandable_named_iff.mp h
    rw [hd, Option.some.injEq] at hd'
    subst hd'
    obtain ⟨t, ht⟩ := ih (not_reaches_of_named hd hcycle hpath) hdef
    exact ⟨t, .named hd ht⟩
  | array path capacity element ih =>
    obtain ⟨t, ht⟩ := ih (by simpa using hpath) (expandable_array_iff.mp h)
    exact ⟨.array capacity t, .array ht⟩
  | struct path name attrs members ih =>
    obtain ⟨ts, hts⟩ : ∃ ts, s.definitions.ExpandsMembers members ts :=
      exists_expandsMembers fun m hm => ih m hm
        (fun n hn hreach => hpath n hn (reaches_struct.mpr ⟨m, hm, hreach⟩))
        (expandable_struct_iff.mp h m hm)
    exact ⟨.struct name attrs ts, .struct hts⟩
  | enum path name variants ih =>
    obtain ⟨ts, hts⟩ : ∃ ts, s.definitions.ExpandsVariants variants ts :=
      exists_expandsVariants fun v hv => ih v hv
        (fun n hn hreach => hpath n hn (reaches_enum.mpr ⟨v, hv, hreach⟩))
        (expandable_enum_iff.mp h v hv)
    exact ⟨.enum name ts, .enum hts⟩

/-! ## Resolving -/

/-- Resolving gives the expansion of the type with a width at every leaf, if the scope admits
that expansion. -/
theorem resolve_eq_ok_iff {d : Decl} {schema : Schema} :
    s.resolve d = .ok schema ↔ ∃ t, s.definitions.Expands d t ∧ s.Admits t ∧
      schema = ⟨t.map s.table.primitive, s.table.wordBits⟩ := by
  have hexpand : ∀ root, s.expand [] 0 d = .ok root ↔ s.Yields [] 0 d root := fun root =>
    expand_eq_ok_iff (Nat.zero_le _)
  constructor
  · intro h
    cases hroot : s.expand [] 0 d with
    | error e =>
      rw [resolve_of_expand_eq_error hroot] at h
      cases h
    | ok root =>
      obtain ⟨-, t, ht, ⟨husable, hnesting⟩, rfl⟩ := (hexpand root).mp hroot
      rw [resolve_of_expand_eq_ok hroot] at h
      cases hsize : (t.map s.table.primitive).checkedSize with
      | none =>
        rw [hsize] at h
        cases h
      | some n =>
        rw [hsize, Except.ok.injEq] at h
        rw [Shape.checkedSize_map, Shape.checkedSize_eq_some_iff] at hsize
        exact ⟨t, ht, admits_iff.mpr ⟨husable, by simpa using hnesting, hsize.2⟩, h.symm⟩
  · rintro ⟨t, ht, hadmits, rfl⟩
    obtain ⟨husable, hnesting, haddressable⟩ := admits_iff.mp hadmits
    have hroot := (hexpand (t.map s.table.primitive)).mpr
      ⟨by simp, t, ht, ⟨husable, by simpa using hnesting⟩, rfl⟩
    have hsize : (t.map s.table.primitive).checkedSize = some t.size := by
      rw [Shape.checkedSize_map, Shape.checkedSize_eq_some_iff]
      exact ⟨rfl, haddressable⟩
    rw [resolve_of_expand_eq_ok hroot, hsize]

/-- **Resolving accepts exactly the well-formed types and returns their expansion.**  A type is
accepted when every name that it reaches is registered and leads not back to itself, so that it
has exactly one expansion, and when the scope admits this expansion.  The schema without its
widths is the expansion, and the width at each leaf is the entry of its primitive. -/
theorem resolve_accepts_iff (s : Scope) (d : Decl) :
    ((∃ schema, s.resolve d = .ok schema) ↔
      s.definitions.Expandable d ∧ ∀ t, s.definitions.Expands d t → s.Admits t) ∧
    (s.definitions.Expandable d → ∃! t, s.definitions.Expands d t) ∧
    ∀ schema, s.resolve d = .ok schema →
      s.definitions.Expands d (schema.root.map Primitive.name) ∧
      (∀ p, (Shape.leaf p).PartOf schema.root → s.table.get? p.name = some p.width) ∧
      schema.wordBits = s.table.wordBits := by
  have hexists : s.definitions.Expandable d → ∃ t, s.definitions.Expands d t :=
    exists_expands fun n (hn : n ∈ []) => absurd hn List.not_mem_nil
  refine ⟨?_, ?_, ?_⟩
  · simp only [resolve_eq_ok_iff]
    constructor
    · rintro ⟨_, t, ht, hadmits, -⟩
      exact ⟨ht.expandable, fun u hu => hu.unique ht ▸ hadmits⟩
    · rintro ⟨hd, hadmits⟩
      obtain ⟨t, ht⟩ := hexists hd
      exact ⟨_, t, ht, hadmits t ht, rfl⟩
  · intro hd
    obtain ⟨t, ht⟩ := hexists hd
    exact ⟨t, ht, fun u hu => hu.unique ht⟩
  · intro schema h
    obtain ⟨t, ht, hadmits, rfl⟩ := resolve_eq_ok_iff.mp h
    refine ⟨?_, fun p hp => ?_, rfl⟩
    · rw [Shape.map_map]
      have hid : Primitive.name ∘ s.table.primitive = id := rfl
      rwa [hid, Shape.map_id]
    · obtain ⟨name, hname, rfl⟩ := Shape.exists_leaf_of_partOf_map hp
      obtain ⟨width, hget, -⟩ := hadmits.widths name hname
      simp [WidthTable.primitive, hget]

end WordPacking.Scope
