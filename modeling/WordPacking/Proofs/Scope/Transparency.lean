/-
# References stand for their definitions

A reference to a registered name can be replaced by the definition of the name, in any place of a
type, without changing what the type is resolved to.  The walk itself does not see this: below a
reference it has one name more on its path, so with the definition written out it meets a name
for the second time one round later, or reaches the nesting limit before.  What is resolved,
however, is a function of the expansion of the type alone, and the expansion has the definition
written out already.

The last form of a type without references is its expansion.  It is read back from a schema by
forgetting the widths (`Tree.toDecl`).
-/
import WordPacking.Proofs.Scope.Resolution

namespace WordPacking

namespace Definitions

variable {ds : Definitions}

/-- The second type is the first one with one reference replaced by the definition of its name. -/
inductive Inlines (ds : Definitions) : Decl → Decl → Prop
  | reference {name : String} {definition : Decl} :
    ds.get? name = some definition → Inlines ds (.leaf (.named name)) definition
  | element {capacity : UInt32} {element element' : Decl} :
    Inlines ds element element' → Inlines ds (.array capacity element) (.array capacity element')
  | member {name memberName : String} {attrs memberAttrs : Attrs}
      {before after : List (Member Decl)} {body body' : Decl} :
    Inlines ds body body' →
      Inlines ds (.struct name attrs (before ++ ⟨memberName, body, memberAttrs⟩ :: after))
        (.struct name attrs (before ++ ⟨memberName, body', memberAttrs⟩ :: after))
  | variant {name variantName : String} {before after : List (Variant Decl)}
      {body body' : Decl} :
    Inlines ds body body' →
      Inlines ds (.enum name (before ++ ⟨variantName, body⟩ :: after))
        (.enum name (before ++ ⟨variantName, body'⟩ :: after))

/-! ## Inlining keeps the expansion -/

lemma forall₂_append_cons_iff {α β : Type} {R : α → β → Prop} {before after : List α} {a a' : α}
    {bs : List β} (h : ∀ b, R a b ↔ R a' b) :
    List.Forall₂ R (before ++ a :: after) bs ↔ List.Forall₂ R (before ++ a' :: after) bs := by
  induction before generalizing bs with
  | nil => simp only [List.nil_append, List.forall₂_cons_left_iff, h]
  | cons x before ih => simp only [List.cons_append, List.forall₂_cons_left_iff, ih]

/-- One inlined reference does not show in the expansion.  Above the reference nothing has
changed, and the reference itself expands to what its definition expands to. -/
lemma Inlines.expands_iff {d d' : Decl} (h : ds.Inlines d d') (t : Shape String) :
    ds.Expands d t ↔ ds.Expands d' t := by
  induction h generalizing t with
  | reference hd => exact expands_named_iff hd
  | element _ ih => simp only [expands_array_iff, ih]
  | @member name memberName attrs memberAttrs before after body body' _ ih =>
    have hmembers : ∀ ts,
        ds.ExpandsMembers (before ++ ⟨memberName, body, memberAttrs⟩ :: after) ts ↔
          ds.ExpandsMembers (before ++ ⟨memberName, body', memberAttrs⟩ :: after) ts := by
      intro ts
      rw [expandsMembers_iff_forall₂, expandsMembers_iff_forall₂]
      exact forall₂_append_cons_iff fun t => by simp only [ih]
    simp only [expands_struct_iff, hmembers]
  | @variant name variantName before after body body' _ ih =>
    have hvariants : ∀ ts, ds.ExpandsVariants (before ++ ⟨variantName, body⟩ :: after) ts ↔
        ds.ExpandsVariants (before ++ ⟨variantName, body'⟩ :: after) ts := by
      intro ts
      rw [expandsVariants_iff_forall₂, expandsVariants_iff_forall₂]
      exact forall₂_append_cons_iff fun t => by simp only [ih]
    simp only [expands_enum_iff, hvariants]

lemma expands_iff_of_reflTransGen {d d' : Decl} (h : Relation.ReflTransGen ds.Inlines d d')
    (t : Shape String) : ds.Expands d t ↔ ds.Expands d' t := by
  induction h with
  | refl => rfl
  | tail _ hstep ih => rw [ih, hstep.expands_iff]

/-! ## A type that is written out -/

/-- A type whose leaves are primitives is its own expansion, whatever is registered. -/
lemma expands_map_primitive (ds : Definitions) (t : Shape String) :
    ds.Expands (t.map Ref.primitive) t := by
  induction t using Shape.shape_induction with
  | leaf name => exact .primitive name
  | array capacity element ih => exact .array ih
  | struct name attrs members ih =>
    rw [Shape.map, Shape.mapMembers_eq_map]
    refine .struct (expandsMembers_iff_forall₂.mpr ?_)
    rw [List.forall₂_map_left_iff, List.forall₂_same]
    exact fun m hm => ⟨rfl, rfl, ih m hm⟩
  | enum name variants ih =>
    rw [Shape.map, Shape.mapVariants_eq_map]
    refine .enum (expandsVariants_iff_forall₂.mpr ?_)
    rw [List.forall₂_map_left_iff, List.forall₂_same]
    exact fun v hv => ⟨rfl, ih v hv⟩

end Definitions

/-- The declared type that a resolved type is read back as: each leaf is the primitive of its
name. -/
def Tree.toDecl (t : Tree) : Decl := t.map fun p => .primitive p.name

namespace Scope

open Definitions

variable {s : Scope}

lemma resolve_iff_of_inlines {d d' : Decl}
    (h : Relation.ReflTransGen s.definitions.Inlines d d') (schema : Schema) :
    s.resolve d = .ok schema ↔ s.resolve d' = .ok schema := by
  simp only [resolve_eq_ok_iff, expands_iff_of_reflTransGen h]

/-- What a type is resolved to can be read back and resolved again, whatever is registered. -/
lemma resolve_toDecl {d : Decl} {schema : Schema} (h : s.resolve d = .ok schema)
    (definitions : Definitions) :
    { s with definitions }.resolve (Tree.toDecl schema.root) = .ok schema := by
  obtain ⟨t, -, hadmits, rfl⟩ := resolve_eq_ok_iff.mp h
  have hread : Tree.toDecl (t.map s.table.primitive) = t.map Ref.primitive := by
    rw [Tree.toDecl, Shape.map_map]
    rfl
  rw [hread]
  -- the conditions on the expansion ask for the table and the limit, not for the definitions
  have hadmits' : { s with definitions }.Admits t := { hadmits with }
  exact resolve_eq_ok_iff.mpr ⟨t, expands_map_primitive definitions t, hadmits', rfl⟩

/-- **References are transparent.**  Two types of which the second comes from the first by
replacing references by their definitions, one after the other and in any place, are resolved to
the same schema, or both are refused.  A resolved type that is read back needs no definitions at
all: it is resolved to the same schema again. -/
theorem resolve_transparent (s : Scope) (d : Decl) :
    (∀ d', Relation.ReflTransGen s.definitions.Inlines d d' →
      ∀ schema, s.resolve d = .ok schema ↔ s.resolve d' = .ok schema) ∧
    ∀ schema, s.resolve d = .ok schema →
      ∀ definitions, { s with definitions }.resolve (Tree.toDecl schema.root) = .ok schema := by
  constructor
  · intro d' h
    exact resolve_iff_of_inlines h
  · intro schema h
    exact resolve_toDecl h

/-- A reference in an array and its definition written out there are resolved to the same schema,
and from the schema the type is read back. -/
theorem half_written_out :
    let half : Decl := .struct "Half" .empty [⟨"x", Decl.primitive "u8", .key⟩]
    let s : Scope := ⟨.standard, ⟨(∅ : Std.ExtTreeMap String Decl).insert "Half" half⟩, 64⟩
    let schema : Schema :=
      ⟨.array 2 (.struct "Half" .empty [⟨"x", .leaf ⟨"u8", 8⟩, .key⟩]), 251⟩
    s.definitions.Inlines (.array 2 (Decl.named "Half")) (.array 2 half) ∧
      s.resolve (.array 2 (Decl.named "Half")) = .ok schema ∧
      s.resolve (.array 2 half) = .ok schema ∧
      { s with definitions := .empty }.resolve (Tree.toDecl schema.root) = .ok schema := by
  intro half s schema
  have hget : s.definitions.get? "Half" = some half := by simp [s, get?]
  have hinlines : s.definitions.Inlines (.array 2 (Decl.named "Half")) (.array 2 half) :=
    .element (.reference hget)
  have hroot : s.expand [] 0 (.array 2 (Decl.named "Half")) = .ok schema.root := by
    rw [expand_array, Decl.named, expand_named List.not_mem_nil hget]
    simp only [half, Decl.primitive, expand, expandMembers]
    rfl
  have hresolve : s.resolve (.array 2 (Decl.named "Half")) = .ok schema :=
    resolve_of_expand_eq_ok hroot
  obtain ⟨hsame, hread⟩ := resolve_transparent s (.array 2 (Decl.named "Half"))
  exact ⟨hinlines, hresolve, (hsame _ (.single hinlines) schema).mp hresolve,
    hread schema hresolve .empty⟩

/-- A type that refers to itself is refused as cyclic; written out once it is refused as well, but
by then it is nested too deeply. -/
example :
    let node (next : Decl) : Decl := .struct "Node" .empty [⟨"next", next, .empty⟩]
    let s : Scope := ⟨.standard, ⟨(∅ : Std.ExtTreeMap String Decl).insert "Node"
      (node (Decl.named "Node"))⟩, 2⟩
    s.resolve (node (Decl.named "Node")) = .error (.cyclic ["Node", "Node"]) ∧
      s.resolve (node (node (Decl.named "Node"))) = .error (.tooDeep 2) := by
  constructor <;> cbv

end Scope

end WordPacking
