/-
# The widths of a resolved type

Every slot of a type is as wide as a primitive in the type or as the discriminant of an enum in
it.  Resolving checks these widths, so the slots of a resolved type are at least one bit and at
most a word wide: they are a layout.
-/
import WordPacking.Proofs.Scope.Resolution

namespace WordPacking

namespace Shape

/-- The slots that an enum reserves are those of one of its variants. -/
lemma exists_mem_widths_of_mem_widest? {variants : List (Variant Tree)} {w : Nat}
    (h : w ∈ ((widest? variants).map fun v => v.1.body.widths).getD []) :
    ∃ v ∈ variants, w ∈ v.body.widths := by
  unfold widest? at h
  cases hfind : variants.find? fun v => v.body.size == sizeMax variants with
  | none => simp [hfind] at h
  | some v =>
    rw [hfind] at h
    exact ⟨v, List.mem_of_find?_eq_some hfind, h⟩

/-- A slot is as wide as a primitive or as a discriminant. -/
theorem mem_widths {t : Tree} {w : Nat} (h : w ∈ t.widths) :
    (∃ p, (leaf p).PartOf t ∧ w = p.width) ∨
      (w = discriminantBits ∧ ∃ name variants, (enum name variants).PartOf t) := by
  induction t using shape_induction with
  | leaf p =>
    rw [widths_leaf, List.mem_singleton] at h
    exact Or.inl ⟨p, .self, h⟩
  | array capacity element ih =>
    rw [widths_array, List.mem_flatten] at h
    obtain ⟨slots, hslots, hw⟩ := h
    rw [List.eq_of_mem_replicate hslots] at hw
    rcases ih hw with ⟨p, hp, rfl⟩ | ⟨rfl, name, variants, hpart⟩
    · exact Or.inl ⟨p, .element hp, rfl⟩
    · exact Or.inr ⟨rfl, name, variants, .element hpart⟩
  | struct name attrs members ih =>
    rw [widths_struct, List.mem_flatMap] at h
    obtain ⟨m, hm, hw⟩ := h
    rcases ih m hm hw with ⟨p, hp, rfl⟩ | ⟨rfl, name, variants, hpart⟩
    · exact Or.inl ⟨p, .member hm hp, rfl⟩
    · exact Or.inr ⟨rfl, name, variants, .member hm hpart⟩
  | enum name variants ih =>
    rw [widths_enum, List.mem_cons] at h
    rcases h with rfl | h
    · exact Or.inr ⟨rfl, name, variants, .self⟩
    · obtain ⟨v, hv, hw⟩ := exists_mem_widths_of_mem_widest? h
      rcases ih v hv hw with ⟨p, hp, rfl⟩ | ⟨rfl, name, variants, hpart⟩
      · exact Or.inl ⟨p, .variant hv hp, rfl⟩
      · exact Or.inr ⟨rfl, name, variants, .variant hv hpart⟩

end Shape

namespace Scope

variable {s : Scope} {d : Decl} {schema : Schema}

theorem valid_layout_of_resolve (h : s.resolve d = .ok schema) : schema.layout.Valid := by
  obtain ⟨t, -, hadmits, rfl⟩ := resolve_eq_ok_iff.mp h
  intro w hw
  rcases Shape.mem_widths hw with ⟨p, hp, rfl⟩ | ⟨rfl, name, variants, hpart⟩
  · obtain ⟨name, hname, rfl⟩ := Shape.exists_leaf_of_partOf_map hp
    obtain ⟨width, hget, hpos, hle⟩ := hadmits.widths name hname
    rw [WidthTable.primitive, hget]
    exact ⟨hpos, hle⟩
  · obtain ⟨variants', hpart', -⟩ := Shape.exists_enum_of_partOf_map hpart
    obtain ⟨-, hbits⟩ := hadmits.enums name variants' hpart'
    exact ⟨by decide, hbits⟩

end Scope

end WordPacking
