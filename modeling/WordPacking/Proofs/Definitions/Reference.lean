/-
# The reference graph

Registered definitions refer to one another by name.  The names are the vertices of a graph, in
which `m` has an edge to `n` when the definition of `m` mentions `n` somewhere, no matter how
deeply or behind how many members, elements and variants.  Only references count as mentions: a
struct that is written out in place and has the name of a registered one is no edge.

A type reaches the names that it mentions and all names behind them in the graph.
-/
import Mathlib.Logic.Relation
import WordPacking.Definitions
import WordPacking.Proofs.Shape.Part

namespace WordPacking

namespace Decl

/-- A declared type has a reference to a name in it. -/
def Mentions (d : Decl) (name : String) : Prop := (named name).PartOf d

/-! ## What is mentioned, by the form of the type -/

@[simp] lemma mentions_primitive {name n : String} : ¬ Mentions (.leaf (.primitive name)) n := by
  simp [Mentions, named]

@[simp] lemma mentions_named {name n : String} :
    Mentions (.leaf (.named name)) n ↔ n = name := by
  simp [Mentions, named]

@[simp] lemma mentions_array {capacity : UInt32} {element : Decl} {n : String} :
    Mentions (.array capacity element) n ↔ Mentions element n := by
  simp [Mentions, named]

@[simp] lemma mentions_struct {name : String} {attrs : Attrs} {members : List (Member Decl)}
    {n : String} :
    Mentions (.struct name attrs members) n ↔ ∃ m ∈ members, Mentions m.body n := by
  simp [Mentions, named]

@[simp] lemma mentions_enum {name : String} {variants : List (Variant Decl)} {n : String} :
    Mentions (.enum name variants) n ↔ ∃ v ∈ variants, Mentions v.body n := by
  simp [Mentions, named]

end Decl

namespace Definitions

variable {ds : Definitions}

/-- The edges of the reference graph: the definition of `m` mentions `n`. -/
def Refers (ds : Definitions) (m n : String) : Prop :=
  ∃ definition, ds.get? m = some definition ∧ definition.Mentions n

/-- A type leads to a name through references. -/
def Reaches (ds : Definitions) (d : Decl) (n : String) : Prop :=
  ∃ m, d.Mentions m ∧ Relation.ReflTransGen ds.Refers m n

/-- A name leads back to itself. -/
def OnCycle (ds : Definitions) (n : String) : Prop := Relation.TransGen ds.Refers n n

/-! ## What is reached, by the form of the type -/

lemma Reaches.of_mentions {d : Decl} {n : String} (h : d.Mentions n) : ds.Reaches d n :=
  ⟨n, h, .refl⟩

lemma Reaches.tail {d : Decl} {m n : String} (h : ds.Reaches d m) (hn : ds.Refers m n) :
    ds.Reaches d n := by
  obtain ⟨x, hx, hm⟩ := h
  exact ⟨x, hx, hm.tail hn⟩

@[simp] lemma reaches_primitive {name n : String} :
    ¬ ds.Reaches (.leaf (.primitive name)) n := by
  simp [Reaches]

@[simp] lemma reaches_array {capacity : UInt32} {element : Decl} {n : String} :
    ds.Reaches (.array capacity element) n ↔ ds.Reaches element n := by
  simp [Reaches]

@[simp] lemma reaches_struct {name : String} {attrs : Attrs} {members : List (Member Decl)}
    {n : String} :
    ds.Reaches (.struct name attrs members) n ↔ ∃ m ∈ members, ds.Reaches m.body n := by
  simp only [Reaches, Decl.mentions_struct]
  constructor
  · rintro ⟨x, ⟨m, hm, hx⟩, h⟩
    exact ⟨m, hm, x, hx, h⟩
  · rintro ⟨m, hm, x, hx, h⟩
    exact ⟨x, ⟨m, hm, hx⟩, h⟩

@[simp] lemma reaches_enum {name : String} {variants : List (Variant Decl)} {n : String} :
    ds.Reaches (.enum name variants) n ↔ ∃ v ∈ variants, ds.Reaches v.body n := by
  simp only [Reaches, Decl.mentions_enum]
  constructor
  · rintro ⟨x, ⟨v, hv, hx⟩, h⟩
    exact ⟨v, hv, x, hx, h⟩
  · rintro ⟨v, hv, x, hx, h⟩
    exact ⟨x, ⟨v, hv, hx⟩, h⟩

/-- A reference reaches its own name and what its definition reaches. -/
lemma reaches_named_iff {name n : String} :
    ds.Reaches (.leaf (.named name)) n ↔
      n = name ∨ ∃ definition, ds.get? name = some definition ∧ ds.Reaches definition n := by
  unfold Reaches Refers
  simp only [Decl.mentions_named, exists_eq_left]
  rw [Relation.ReflTransGen.cases_head_iff]
  constructor
  · rintro (rfl | ⟨m, ⟨definition, hd, hm⟩, h⟩)
    · exact Or.inl rfl
    · exact Or.inr ⟨definition, hd, m, hm, h⟩
  · rintro (rfl | ⟨definition, hd, m, hm, h⟩)
    · exact Or.inl rfl
    · exact Or.inr ⟨m, ⟨definition, hd, hm⟩, h⟩

/-- A name is on a cycle exactly when its own definition leads back to it. -/
lemma onCycle_iff {n : String} :
    ds.OnCycle n ↔ ∃ definition, ds.get? n = some definition ∧ ds.Reaches definition n := by
  unfold OnCycle Reaches
  rw [Relation.TransGen.head'_iff]
  constructor
  · rintro ⟨m, ⟨definition, hd, hm⟩, h⟩
    exact ⟨definition, hd, m, hm, h⟩
  · rintro ⟨definition, hd, m, hm, h⟩
    exact ⟨m, ⟨definition, hd, hm⟩, h⟩

/-- A type that is expanded in place of a name that is on no cycle leads to that name no more, nor
to the names that the reference did not lead to. -/
lemma not_reaches_of_named {path : List String} {name : String} {definition : Decl}
    (hd : ds.get? name = some definition) (hcycle : ¬ ds.OnCycle name)
    (hpath : ∀ n ∈ path, ¬ ds.Reaches (.leaf (.named name)) n) :
    ∀ n ∈ path ++ [name], ¬ ds.Reaches definition n := by
  intro n hn hreach
  rcases List.mem_append.mp hn with hn | hn
  · exact hpath n hn (reaches_named_iff.mpr (Or.inr ⟨definition, hd, hreach⟩))
  · rw [List.mem_singleton.mp hn] at hreach
    exact hcycle (onCycle_iff.mpr ⟨definition, hd, hreach⟩)

end Definitions

end WordPacking
