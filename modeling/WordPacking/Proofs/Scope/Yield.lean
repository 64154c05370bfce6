/-
# What the walk yields

Resolving a declared type has its guards in one walk that keeps a path and a depth.  This file
says without the walk when it succeeds below a path and at a depth, and what it then yields
(`expand_eq_ok_iff`).  The path shows as the condition that the type reaches no name on it.  The
depth shows as the levels that are left to the expansion.  Whether references are unknown or
cyclic shows in the existence of the expansion alone.

What is yielded is taken apart by the form of the type (`yields_named_iff`, `yields_array_iff` and
so on), just as the walk is; the rest is the induction along the walk.
-/
import WordPacking.Proofs.Definitions.Expansion
import WordPacking.Proofs.Scope.Walk
import WordPacking.Proofs.Shape.Map

namespace WordPacking

/-- The primitive of a name, as wide as its entry says. -/
def WidthTable.primitive (table : WidthTable) (name : String) : Primitive :=
  ⟨name, (table.get? name).getD 0⟩

namespace Scope

open Definitions

variable {s : Scope}

/-- What the width table asks of one node of a type. -/
def Usable (s : Scope) : Shape String → Prop
  | .leaf name =>
    ∃ width, s.table.get? name = some width ∧ 1 ≤ width ∧ width ≤ s.table.wordBits
  | .enum _ variants => variants.length ≤ 256 ∧ 8 ≤ s.table.wordBits
  | .array _ _ => True
  | .struct _ _ _ => True

/-! ## The conditions at a depth -/

/-- What the walk asks of a type without references at a depth. -/
def Suits (s : Scope) (depth : Nat) (t : Shape String) : Prop :=
  t.EveryPart s.Usable ∧ depth + t.nesting ≤ s.maxDepth

lemma suits_leaf_iff {depth : Nat} {name : String} (hdepth : depth ≤ s.maxDepth) :
    s.Suits depth (.leaf name) ↔ s.Usable (.leaf name) := by
  rw [Suits, Shape.everyPart_leaf, Shape.nesting]
  exact and_iff_left hdepth

lemma suits_array_iff {depth : Nat} {capacity : UInt32} {t : Shape String} :
    s.Suits depth (.array capacity t) ↔ depth < s.maxDepth ∧ s.Suits (depth + 1) t := by
  rw [Suits, Suits, Shape.everyPart_array, Shape.nesting]
  constructor
  · rintro ⟨⟨-, husable⟩, hnesting⟩
    exact ⟨by omega, husable, by omega⟩
  · rintro ⟨-, husable, hnesting⟩
    exact ⟨⟨trivial, husable⟩, by omega⟩

lemma suits_struct_iff {depth : Nat} {name : String} {attrs : Attrs}
    {ts : List (Member (Shape String))} :
    s.Suits depth (.struct name attrs ts) ↔
      depth < s.maxDepth ∧ ∀ t ∈ ts, s.Suits (depth + 1) t.body := by
  rw [Suits, Shape.everyPart_struct, Shape.add_nesting_struct_le_iff]
  constructor
  · rintro ⟨⟨-, husable⟩, hlt, hnesting⟩
    exact ⟨hlt, fun t ht => ⟨husable t ht, hnesting t ht⟩⟩
  · rintro ⟨hlt, h⟩
    exact ⟨⟨trivial, fun t ht => (h t ht).1⟩, hlt, fun t ht => (h t ht).2⟩

lemma suits_enum_iff {depth : Nat} {name : String} {ts : List (Variant (Shape String))} :
    s.Suits depth (.enum name ts) ↔ (ts.length ≤ 256 ∧ 8 ≤ s.table.wordBits) ∧
      depth < s.maxDepth ∧ ∀ t ∈ ts, s.Suits (depth + 1) t.body := by
  rw [Suits, Shape.everyPart_enum, Shape.add_nesting_enum_le_iff]
  constructor
  · rintro ⟨⟨henum, husable⟩, hlt, hnesting⟩
    exact ⟨henum, hlt, fun t ht => ⟨husable t ht, hnesting t ht⟩⟩
  · rintro ⟨henum, hlt, h⟩
    exact ⟨⟨henum, fun t ht => (h t ht).1⟩, hlt, fun t ht => (h t ht).2⟩

/-! ## The walk below a path -/

/-- What the walk finds in a type below a path and at a depth, and what it makes of it: no name
on the path is reached, and the type has an expansion that suits the depth. -/
def Yields (s : Scope) (path : List String) (depth : Nat) (d : Decl) (root : Tree) : Prop :=
  (∀ n ∈ path, ¬ s.definitions.Reaches d n) ∧
    ∃ t, s.definitions.Expands d t ∧ s.Suits depth t ∧ root = t.map s.table.primitive

lemma expand_primitive_eq_ok_iff {path : List String} {depth : Nat} {name : String}
    {root : Tree} : s.expand path depth (.leaf (.primitive name)) = .ok root ↔
      s.Usable (.leaf name) ∧ root = .leaf (s.table.primitive name) := by
  rw [expand_primitive]
  constructor
  · intro h
    cases hw : s.table.widthOf name with
    | error cause => rw [hw] at h; cases h
    | ok width =>
      rw [hw] at h
      cases h
      obtain ⟨hget, hpos, hle⟩ := WidthTable.widthOf_eq_ok_iff.mp hw
      exact ⟨⟨width, hget, hpos, hle⟩, by simp [WidthTable.primitive, hget]⟩
  · rintro ⟨⟨width, hget, hpos, hle⟩, rfl⟩
    rw [WidthTable.widthOf_eq_ok_iff.mpr ⟨hget, hpos, hle⟩]
    simp [WidthTable.primitive, hget]

/-- Elements that each lead to a result through something between lead to the list of results
through a list of what is between. -/
lemma forall₂_iff_exists_forall₂ {α β γ : Type} {R : α → γ → Prop} {A : α → Prop}
    {E : α → β → Prop} {B : β → Prop} {f : β → γ} {l : List α} {rs : List γ}
    (h : ∀ a ∈ l, ∀ r, R a r ↔ A a ∧ ∃ b, E a b ∧ B b ∧ r = f b) :
    List.Forall₂ R l rs ↔
      (∀ a ∈ l, A a) ∧ ∃ bs, List.Forall₂ E l bs ∧ (∀ b ∈ bs, B b) ∧ rs = bs.map f := by
  induction l generalizing rs with
  | nil => simp
  | cons a l ih =>
    obtain ⟨ha, hl⟩ := List.forall_mem_cons.mp h
    rw [List.forall₂_cons_left_iff]
    constructor
    · rintro ⟨r, rs, hr, hrs, rfl⟩
      obtain ⟨hA, b, hab, hb, rfl⟩ := (ha r).mp hr
      obtain ⟨hAs, bs, hbs, hBs, rfl⟩ := (ih hl).mp hrs
      exact ⟨List.forall_mem_cons.mpr ⟨hA, hAs⟩, b :: bs, .cons hab hbs,
        List.forall_mem_cons.mpr ⟨hb, hBs⟩, rfl⟩
    · rintro ⟨hA, bs, hbs, hBs, rfl⟩
      obtain ⟨hA, hAs⟩ := List.forall_mem_cons.mp hA
      cases hbs with
      | cons hab hbs =>
        obtain ⟨hb, hBs⟩ := List.forall_mem_cons.mp hBs
        exact ⟨_, _, (ha _).mpr ⟨hA, _, hab, hb, rfl⟩, (ih hl).mpr ⟨hAs, _, hbs, hBs, rfl⟩, rfl⟩

/-! ## One step of what the walk finds -/

section Step

variable {path : List String} {depth : Nat} {name : String} {root : Tree}

lemma yields_primitive_iff (hdepth : depth ≤ s.maxDepth) :
    s.Yields path depth (.leaf (.primitive name)) root ↔
      s.Usable (.leaf name) ∧ root = .leaf (s.table.primitive name) := by
  rw [← suits_leaf_iff hdepth]
  constructor
  · rintro ⟨-, t, ht, hsuits, rfl⟩
    cases ht
    exact ⟨hsuits, rfl⟩
  · rintro ⟨hsuits, rfl⟩
    exact ⟨by simp, .leaf name, .primitive name, hsuits, rfl⟩

/-- A reference to a name on the path reaches this name. -/
lemma not_yields_of_mem (hname : name ∈ path) :
    ¬ s.Yields path depth (.leaf (.named name)) root :=
  fun h => h.1 name hname (reaches_named_iff.mpr (Or.inl rfl))

lemma not_yields_of_unknown (hd : s.definitions.get? name = none) :
    ¬ s.Yields path depth (.leaf (.named name)) root := by
  rintro ⟨-, t, ht, -⟩
  cases ht with
  | named hd' _ => rw [hd] at hd'; cases hd'

/-- A reference goes on in its definition, with its name on the path. -/
lemma yields_named_iff {definition : Decl} (hname : name ∉ path)
    (hd : s.definitions.get? name = some definition) :
    s.Yields path depth (.leaf (.named name)) root ↔
      s.Yields (path ++ [name]) depth definition root := by
  constructor
  · rintro ⟨hpath, t, ht, hrest⟩
    -- the new name on the path is not reached either: what has an expansion is on no cycle
    have hcycle := (expandable_named_iff.mp ht.expandable).1
    cases ht with
    | named hd' ht =>
      rw [hd, Option.some.injEq] at hd'
      subst hd'
      exact ⟨not_reaches_of_named hd hcycle hpath, t, ht, hrest⟩
  · rintro ⟨hpath, t, ht, hrest⟩
    refine ⟨fun n hn => ?_, t, .named hd ht, hrest⟩
    rw [reaches_named_iff]
    rintro (rfl | ⟨definition', hd', hreach⟩)
    · exact hname hn
    · rw [hd, Option.some.injEq] at hd'
      exact hpath n (List.mem_append_left _ hn) (hd' ▸ hreach)

lemma yields_array_iff {capacity : UInt32} {element : Decl} :
    s.Yields path depth (.array capacity element) root ↔
      depth < s.maxDepth ∧
        ∃ t, s.Yields path (depth + 1) element t ∧ .array capacity t = root := by
  constructor
  · rintro ⟨hpath, t, ht, hsuits, rfl⟩
    cases ht with
    | array ht =>
      obtain ⟨hlt, hsuits⟩ := suits_array_iff.mp hsuits
      exact ⟨hlt, _, ⟨by simpa using hpath, _, ht, hsuits, rfl⟩, rfl⟩
  · rintro ⟨hlt, _, ⟨hpath, t, ht, hsuits, rfl⟩, rfl⟩
    exact ⟨by simpa using hpath, .array capacity t, .array ht,
      suits_array_iff.mpr ⟨hlt, hsuits⟩, rfl⟩

/-- What the walk finds in each member is found in the expansions of all members. -/
lemma forall₂_member_yields_iff {members : List (Member Decl)} {rs : List (Member Tree)} :
    List.Forall₂ (fun m r => ∃ t, s.Yields path depth m.body t ∧ ⟨m.name, t, m.attrs⟩ = r)
        members rs ↔
      (∀ m ∈ members, ∀ n ∈ path, ¬ s.definitions.Reaches m.body n) ∧
        ∃ ts, s.definitions.ExpandsMembers members ts ∧ (∀ t ∈ ts, s.Suits depth t.body) ∧
          rs = Shape.mapMembers s.table.primitive ts := by
  simp only [expandsMembers_iff_forall₂, Shape.mapMembers_eq_map]
  refine forall₂_iff_exists_forall₂ fun m _ r => ?_
  constructor
  · rintro ⟨_, ⟨hpath, t, ht, hsuits, rfl⟩, rfl⟩
    exact ⟨hpath, ⟨m.name, t, m.attrs⟩, ⟨rfl, rfl, ht⟩, hsuits, rfl⟩
  · rintro ⟨hpath, t, ⟨hname, hattrs, ht⟩, hsuits, rfl⟩
    exact ⟨_, ⟨hpath, t.body, ht, hsuits, rfl⟩, by rw [hname, hattrs]⟩

/-- What the walk finds in each variant is found in the expansions of all variants. -/
lemma forall₂_variant_yields_iff {variants : List (Variant Decl)} {rs : List (Variant Tree)} :
    List.Forall₂ (fun v r => ∃ t, s.Yields path depth v.body t ∧ ⟨v.name, t⟩ = r) variants rs ↔
      (∀ v ∈ variants, ∀ n ∈ path, ¬ s.definitions.Reaches v.body n) ∧
        ∃ ts, s.definitions.ExpandsVariants variants ts ∧ (∀ t ∈ ts, s.Suits depth t.body) ∧
          rs = Shape.mapVariants s.table.primitive ts := by
  simp only [expandsVariants_iff_forall₂, Shape.mapVariants_eq_map]
  refine forall₂_iff_exists_forall₂ fun v _ r => ?_
  constructor
  · rintro ⟨_, ⟨hpath, t, ht, hsuits, rfl⟩, rfl⟩
    exact ⟨hpath, ⟨v.name, t⟩, ⟨rfl, ht⟩, hsuits, rfl⟩
  · rintro ⟨hpath, t, ⟨hname, ht⟩, hsuits, rfl⟩
    exact ⟨_, ⟨hpath, t.body, ht, hsuits, rfl⟩, by rw [hname]⟩

lemma yields_struct_iff {attrs : Attrs} {members : List (Member Decl)} :
    s.Yields path depth (.struct name attrs members) root ↔
      depth < s.maxDepth ∧ ∃ rs,
        List.Forall₂ (fun m r => ∃ t, s.Yields path (depth + 1) m.body t ∧
          ⟨m.name, t, m.attrs⟩ = r) members rs ∧ .struct name attrs rs = root := by
  simp only [forall₂_member_yields_iff]
  constructor
  · rintro ⟨hpath, t, ht, hsuits, rfl⟩
    cases ht with
    | struct hts =>
      obtain ⟨hlt, hsuits⟩ := suits_struct_iff.mp hsuits
      refine ⟨hlt, _, ⟨fun m hm n hn hreach => ?_, _, hts, hsuits, rfl⟩, rfl⟩
      exact hpath n hn (reaches_struct.mpr ⟨m, hm, hreach⟩)
  · rintro ⟨hlt, _, ⟨hpath, ts, hts, hsuits, rfl⟩, rfl⟩
    refine ⟨fun n hn => ?_, .struct name attrs ts, .struct hts,
      suits_struct_iff.mpr ⟨hlt, hsuits⟩, rfl⟩
    rw [reaches_struct]
    rintro ⟨m, hm, hreach⟩
    exact hpath m hm n hn hreach

lemma yields_enum_iff {variants : List (Variant Decl)} :
    s.Yields path depth (.enum name variants) root ↔
      (variants.length ≤ maxVariants ∧ discriminantBits ≤ s.table.wordBits) ∧
        depth < s.maxDepth ∧ ∃ rs,
          List.Forall₂ (fun v r => ∃ t, s.Yields path (depth + 1) v.body t ∧ ⟨v.name, t⟩ = r)
            variants rs ∧ .enum name rs = root := by
  simp only [forall₂_variant_yields_iff]
  constructor
  · rintro ⟨hpath, t, ht, hsuits, rfl⟩
    cases ht with
    | enum hts =>
      obtain ⟨henum, hlt, hsuits⟩ := suits_enum_iff.mp hsuits
      rw [← (expandsVariants_iff_forall₂.mp hts).length_eq] at henum
      refine ⟨henum, hlt, _, ⟨fun v hv n hn hreach => ?_, _, hts, hsuits, rfl⟩, rfl⟩
      exact hpath n hn (reaches_enum.mpr ⟨v, hv, hreach⟩)
  · rintro ⟨henum, hlt, _, ⟨hpath, ts, hts, hsuits, rfl⟩, rfl⟩
    rw [(expandsVariants_iff_forall₂.mp hts).length_eq] at henum
    refine ⟨fun n hn => ?_, .enum name ts, .enum hts,
      suits_enum_iff.mpr ⟨henum, hlt, hsuits⟩, rfl⟩
    rw [reaches_enum]
    rintro ⟨v, hv, hreach⟩
    exact hpath v hv n hn hreach

end Step

/-! ## The whole walk -/

lemma forall₂_congr_of_mem {α β : Type} {R S : α → β → Prop} {l : List α} {rs : List β}
    (h : ∀ a ∈ l, ∀ r, R a r ↔ S a r) : List.Forall₂ R l rs ↔ List.Forall₂ S l rs := by
  induction l generalizing rs with
  | nil => simp
  | cons a l ih =>
    obtain ⟨ha, hl⟩ := List.forall_mem_cons.mp h
    simp only [List.forall₂_cons_left_iff, ha, ih hl]

/-- The walk succeeds below a path exactly when the type reaches no name on the path and has an
expansion that is usable and not too deep for the levels that are left.  It then gives the
expansion with a width at every leaf. -/
theorem expand_eq_ok_iff {path : List String} {d : Decl} {depth : Nat} {root : Tree}
    (hdepth : depth ≤ s.maxDepth) :
    s.expand path depth d = .ok root ↔ s.Yields path depth d root := by
  induction path, d using s.walk_induction generalizing depth root with
  | primitive path name => rw [expand_primitive_eq_ok_iff, yields_primitive_iff hdepth]
  | repeated path name hname => simp [expand_repeated hname, not_yields_of_mem hname]
  | unknown path name hname hd => simp [expand_unknown hname hd, not_yields_of_unknown hd]
  | named path name definition hname hd ih =>
    rw [expand_named hname hd, yields_named_iff hname hd, ih hdepth]
  | array path capacity element ih =>
    rw [expand_array_eq_ok_iff, yields_array_iff]
    refine and_congr_right fun hlt => ?_
    simp only [ih hlt]
  | struct path name attrs members ih =>
    rw [expand_struct_eq_ok_iff, yields_struct_iff]
    refine and_congr_right fun hlt => exists_congr fun rs => and_congr_left fun _ =>
      forall₂_congr_of_mem fun m hm r => ?_
    simp only [expandMember, except_map_eq_ok_iff, ih m hm hlt]
  | enum path name variants ih =>
    rw [expand_enum_eq_ok_iff, yields_enum_iff]
    refine and_congr_right fun _ => and_congr_right fun hlt => exists_congr fun rs =>
      and_congr_left fun _ => forall₂_congr_of_mem fun v hv r => ?_
    simp only [expandVariant, except_map_eq_ok_iff, ih v hv hlt]

end Scope

end WordPacking
