/-
# Expanding references

The expansion of a declared type has every reference replaced by the definition of its name,
again with all references replaced.  Nothing else changes: names, tags, capacities and the order
of members and variants stay.  As no reference is left, the leaves of an expansion are the names
of primitives.

A type has one expansion at most (`Expands.unique`), and only if every name that it reaches is
registered and is on no cycle of the reference graph (`Expands.expandable`).  That it then has
one is proved along the walk that computes it.
-/
import WordPacking.Proofs.Definitions.Reference

namespace WordPacking.Definitions

mutual

/-- `t` is the declared type `d` with all references expanded. -/
inductive Expands (ds : Definitions) : Decl → Shape String → Prop
  | primitive (name : String) : Expands ds (.leaf (.primitive name)) (.leaf name)
  | named {name : String} {definition : Decl} {t : Shape String} :
    ds.get? name = some definition → Expands ds definition t → Expands ds (.leaf (.named name)) t
  | array {capacity : UInt32} {element : Decl} {t : Shape String} :
    Expands ds element t → Expands ds (.array capacity element) (.array capacity t)
  | struct {name : String} {attrs : Attrs} {members : List (Member Decl)}
      {ts : List (Member (Shape String))} :
    ExpandsMembers ds members ts → Expands ds (.struct name attrs members) (.struct name attrs ts)
  | enum {name : String} {variants : List (Variant Decl)} {ts : List (Variant (Shape String))} :
    ExpandsVariants ds variants ts → Expands ds (.enum name variants) (.enum name ts)

/-- Members with all references expanded, one for one. -/
inductive ExpandsMembers (ds : Definitions) :
    List (Member Decl) → List (Member (Shape String)) → Prop
  | nil : ExpandsMembers ds [] []
  | cons {name : String} {body : Decl} {t : Shape String} {attrs : Attrs}
      {members : List (Member Decl)} {ts : List (Member (Shape String))} :
    Expands ds body t → ExpandsMembers ds members ts →
      ExpandsMembers ds (⟨name, body, attrs⟩ :: members) (⟨name, t, attrs⟩ :: ts)

/-- Variants with all references expanded, one for one. -/
inductive ExpandsVariants (ds : Definitions) :
    List (Variant Decl) → List (Variant (Shape String)) → Prop
  | nil : ExpandsVariants ds [] []
  | cons {name : String} {body : Decl} {t : Shape String}
      {variants : List (Variant Decl)} {ts : List (Variant (Shape String))} :
    Expands ds body t → ExpandsVariants ds variants ts →
      ExpandsVariants ds (⟨name, body⟩ :: variants) (⟨name, t⟩ :: ts)

end

variable {ds : Definitions}

/-! ## There is at most one expansion -/

mutual

theorem Expands.unique {d : Decl} {t u : Shape String} :
    ds.Expands d t → ds.Expands d u → t = u
  | .primitive _, .primitive _ => rfl
  | .named hd h, .named hd' h' => by
    rw [hd, Option.some.injEq] at hd'
    subst hd'
    exact h.unique h'
  | .array h, .array h' => by rw [h.unique h']
  | .struct h, .struct h' => by rw [h.unique h']
  | .enum h, .enum h' => by rw [h.unique h']

theorem ExpandsMembers.unique {members : List (Member Decl)}
    {ts us : List (Member (Shape String))} :
    ds.ExpandsMembers members ts → ds.ExpandsMembers members us → ts = us
  | .nil, .nil => rfl
  | .cons h hs, .cons h' hs' => by rw [h.unique h', hs.unique hs']

theorem ExpandsVariants.unique {variants : List (Variant Decl)}
    {ts us : List (Variant (Shape String))} :
    ds.ExpandsVariants variants ts → ds.ExpandsVariants variants us → ts = us
  | .nil, .nil => rfl
  | .cons h hs, .cons h' hs' => by rw [h.unique h', hs.unique hs']

end

/-! ## Lists of members and of variants -/

lemma expandsMembers_iff_forall₂ {members : List (Member Decl)}
    {ts : List (Member (Shape String))} :
    ds.ExpandsMembers members ts ↔ List.Forall₂
      (fun m t => t.name = m.name ∧ t.attrs = m.attrs ∧ ds.Expands m.body t.body) members ts := by
  constructor
  · intro h
    induction members generalizing ts with
    | nil => cases h; exact .nil
    | cons m members ih =>
      cases h with
      | cons hbody hrest => exact .cons ⟨rfl, rfl, hbody⟩ (ih hrest)
  · intro h
    induction h with
    | nil => exact .nil
    | @cons m t members ts hm _ ih =>
      obtain ⟨name, body, attrs⟩ := m
      obtain ⟨_, _, _⟩ := t
      obtain ⟨rfl, rfl, hbody⟩ := hm
      exact .cons hbody ih

lemma expandsVariants_iff_forall₂ {variants : List (Variant Decl)}
    {ts : List (Variant (Shape String))} :
    ds.ExpandsVariants variants ts ↔ List.Forall₂
      (fun v t => t.name = v.name ∧ ds.Expands v.body t.body) variants ts := by
  constructor
  · intro h
    induction variants generalizing ts with
    | nil => cases h; exact .nil
    | cons v variants ih =>
      cases h with
      | cons hbody hrest => exact .cons ⟨rfl, hbody⟩ (ih hrest)
  · intro h
    induction h with
    | nil => exact .nil
    | @cons v t variants ts hv _ ih =>
      obtain ⟨name, body⟩ := v
      obtain ⟨_, _⟩ := t
      obtain ⟨rfl, hbody⟩ := hv
      exact .cons hbody ih

/-! ## The expansion by the form of the type -/

lemma expands_named_iff {name : String} {definition : Decl} {t : Shape String}
    (hd : ds.get? name = some definition) :
    ds.Expands (.leaf (.named name)) t ↔ ds.Expands definition t := by
  constructor
  · intro h
    cases h with
    | named hd' h =>
      rw [hd, Option.some.injEq] at hd'
      exact hd' ▸ h
  · exact .named hd

lemma expands_array_iff {capacity : UInt32} {element : Decl} {t : Shape String} :
    ds.Expands (.array capacity element) t ↔
      ∃ u, ds.Expands element u ∧ t = .array capacity u := by
  constructor
  · intro h
    cases h with
    | array h => exact ⟨_, h, rfl⟩
  · rintro ⟨u, h, rfl⟩
    exact .array h

lemma expands_struct_iff {name : String} {attrs : Attrs} {members : List (Member Decl)}
    {t : Shape String} :
    ds.Expands (.struct name attrs members) t ↔
      ∃ ts, ds.ExpandsMembers members ts ∧ t = .struct name attrs ts := by
  constructor
  · intro h
    cases h with
    | struct h => exact ⟨_, h, rfl⟩
  · rintro ⟨ts, h, rfl⟩
    exact .struct h

lemma expands_enum_iff {name : String} {variants : List (Variant Decl)} {t : Shape String} :
    ds.Expands (.enum name variants) t ↔
      ∃ ts, ds.ExpandsVariants variants ts ∧ t = .enum name ts := by
  constructor
  · intro h
    cases h with
    | enum h => exact ⟨_, h, rfl⟩
  · rintro ⟨ts, h, rfl⟩
    exact .enum h

/-! ## The definitions that an expansion depends on -/

mutual

/-- A type has the same expansion where the names that it reaches have the same definitions. -/
theorem Expands.of_kept {ds' : Definitions} {d : Decl} {t : Shape String} : ds.Expands d t →
    (∀ n definition, ds.Reaches d n → ds.get? n = some definition →
      ds'.get? n = some definition) → ds'.Expands d t
  | .primitive name, _ => .primitive name
  | .named hd h, hkept => .named (hkept _ _ (reaches_named_iff.mpr (Or.inl rfl)) hd)
      (h.of_kept fun n definition hn =>
        hkept n definition (reaches_named_iff.mpr (Or.inr ⟨_, hd, hn⟩)))
  | .array h, hkept =>
      .array (h.of_kept fun n definition hn => hkept n definition (reaches_array.mpr hn))
  | .struct h, hkept => .struct (h.of_kept fun m hm n definition hn =>
      hkept n definition (reaches_struct.mpr ⟨m, hm, hn⟩))
  | .enum h, hkept => .enum (h.of_kept fun v hv n definition hn =>
      hkept n definition (reaches_enum.mpr ⟨v, hv, hn⟩))

theorem ExpandsMembers.of_kept {ds' : Definitions} {members : List (Member Decl)}
    {ts : List (Member (Shape String))} : ds.ExpandsMembers members ts →
    (∀ m ∈ members, ∀ n definition, ds.Reaches m.body n → ds.get? n = some definition →
      ds'.get? n = some definition) → ds'.ExpandsMembers members ts
  | .nil, _ => .nil
  | .cons h hs, hkept =>
      have ⟨hbody, hrest⟩ := List.forall_mem_cons.mp hkept
      .cons (h.of_kept hbody) (hs.of_kept hrest)

theorem ExpandsVariants.of_kept {ds' : Definitions} {variants : List (Variant Decl)}
    {ts : List (Variant (Shape String))} : ds.ExpandsVariants variants ts →
    (∀ v ∈ variants, ∀ n definition, ds.Reaches v.body n → ds.get? n = some definition →
      ds'.get? n = some definition) → ds'.ExpandsVariants variants ts
  | .nil, _ => .nil
  | .cons h hs, hkept =>
      have ⟨hbody, hrest⟩ := List.forall_mem_cons.mp hkept
      .cons (h.of_kept hbody) (hs.of_kept hrest)

end

/-! ## Which types have an expansion -/

/-- All references of a type can be expanded: every name that it reaches is registered and leads
not back to itself. -/
structure Expandable (ds : Definitions) (d : Decl) : Prop where
  /-- Every name that is reached has a definition. -/
  registered : ∀ n, ds.Reaches d n → ∃ definition, ds.get? n = some definition
  /-- No name that is reached is on a cycle. -/
  acyclic : ∀ n, ds.Reaches d n → ¬ ds.OnCycle n

lemma expandable_iff {d : Decl} : ds.Expandable d ↔
    ∀ n, ds.Reaches d n → (∃ definition, ds.get? n = some definition) ∧ ¬ ds.OnCycle n :=
  ⟨fun h n hn => ⟨h.registered n hn, h.acyclic n hn⟩,
    fun h => ⟨fun n hn => (h n hn).1, fun n hn => (h n hn).2⟩⟩

lemma expandable_primitive (name : String) : ds.Expandable (.leaf (.primitive name)) := by
  simp [expandable_iff]

lemma expandable_named_iff {name : String} :
    ds.Expandable (.leaf (.named name)) ↔ ¬ ds.OnCycle name ∧
      ∃ definition, ds.get? name = some definition ∧ ds.Expandable definition := by
  simp only [expandable_iff, reaches_named_iff]
  constructor
  · intro h
    obtain ⟨⟨definition, hd⟩, hname⟩ := h name (Or.inl rfl)
    exact ⟨hname, definition, hd, fun n hn => h n (Or.inr ⟨definition, hd, hn⟩)⟩
  · rintro ⟨hname, definition, hd, h⟩ n (rfl | ⟨definition', hd', hn⟩)
    · exact ⟨⟨definition, hd⟩, hname⟩
    · rw [hd, Option.some.injEq] at hd'
      exact h n (hd' ▸ hn)

lemma expandable_array_iff {capacity : UInt32} {element : Decl} :
    ds.Expandable (.array capacity element) ↔ ds.Expandable element := by
  simp [expandable_iff]

lemma expandable_struct_iff {name : String} {attrs : Attrs} {members : List (Member Decl)} :
    ds.Expandable (.struct name attrs members) ↔ ∀ m ∈ members, ds.Expandable m.body := by
  simp only [expandable_iff, reaches_struct]
  constructor
  · intro h m hm n hn
    exact h n ⟨m, hm, hn⟩
  · rintro h n ⟨m, hm, hn⟩
    exact h m hm n hn

lemma expandable_enum_iff {name : String} {variants : List (Variant Decl)} :
    ds.Expandable (.enum name variants) ↔ ∀ v ∈ variants, ds.Expandable v.body := by
  simp only [expandable_iff, reaches_enum]
  constructor
  · intro h v hv n hn
    exact h n ⟨v, hv, hn⟩
  · rintro h n ⟨v, hv, hn⟩
    exact h v hv n hn

mutual

/-- A type with an expansion is expandable.  An expansion is finite, so a name that is on a cycle
would have to be met again inside the expansion of its own definition, where the induction
already says that no cycle is met. -/
theorem Expands.expandable {d : Decl} {t : Shape String} : ds.Expands d t → ds.Expandable d
  | .primitive name => expandable_primitive name
  | .named hd h => by
    refine expandable_named_iff.mpr ⟨?_, _, hd, h.expandable⟩
    intro hcycle
    obtain ⟨definition, hd', hname⟩ := onCycle_iff.mp hcycle
    rw [hd, Option.some.injEq] at hd'
    subst hd'
    exact h.expandable.acyclic _ hname hcycle
  | .array h => expandable_array_iff.mpr h.expandable
  | .struct h => expandable_struct_iff.mpr h.expandable
  | .enum h => expandable_enum_iff.mpr h.expandable

theorem ExpandsMembers.expandable {members : List (Member Decl)}
    {ts : List (Member (Shape String))} :
    ds.ExpandsMembers members ts → ∀ m ∈ members, ds.Expandable m.body
  | .nil => by simp
  | .cons h hs => List.forall_mem_cons.mpr ⟨h.expandable, hs.expandable⟩

theorem ExpandsVariants.expandable {variants : List (Variant Decl)}
    {ts : List (Variant (Shape String))} :
    ds.ExpandsVariants variants ts → ∀ v ∈ variants, ds.Expandable v.body
  | .nil => by simp
  | .cons h hs => List.forall_mem_cons.mpr ⟨h.expandable, hs.expandable⟩

end

end WordPacking.Definitions
