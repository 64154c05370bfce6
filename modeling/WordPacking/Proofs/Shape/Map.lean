/-
# Changing the leaves of a shape

A change of the leaves keeps everything else: composed changes are one change, the leaves of the
result are the changed leaves, and slots are counted alike.
-/
import WordPacking.Proofs.Shape.Part

namespace WordPacking.Shape

variable {α β γ : Type}

lemma mapMembers_eq_map (f : α → β) (members : List (Member (Shape α))) :
    mapMembers f members = members.map fun m => ⟨m.name, m.body.map f, m.attrs⟩ := by
  induction members with
  | nil => rfl
  | cons m members ih => rw [mapMembers, ih, List.map_cons]

lemma mapVariants_eq_map (f : α → β) (variants : List (Variant (Shape α))) :
    mapVariants f variants = variants.map fun v => ⟨v.name, v.body.map f⟩ := by
  induction variants with
  | nil => rfl
  | cons v variants ih => rw [mapVariants, ih, List.map_cons]

theorem map_map (g : β → γ) (f : α → β) (t : Shape α) : (t.map f).map g = t.map (g ∘ f) := by
  induction t using shape_induction with
  | leaf a => rfl
  | array capacity element ih => rw [map, map, ih, map]
  | struct name attrs members ih =>
    rw [map, map, map, mapMembers_eq_map, mapMembers_eq_map, mapMembers_eq_map, List.map_map]
    congr 1
    refine List.map_congr_left fun m hm => ?_
    rw [Function.comp_apply, ih m hm]
  | enum name variants ih =>
    rw [map, map, map, mapVariants_eq_map, mapVariants_eq_map, mapVariants_eq_map, List.map_map]
    congr 1
    refine List.map_congr_left fun v hv => ?_
    rw [Function.comp_apply, ih v hv]

theorem map_id (t : Shape α) : t.map id = t := by
  induction t using shape_induction with
  | leaf a => rfl
  | array capacity element ih => rw [map, ih]
  | struct name attrs members ih =>
    have hmembers : mapMembers id members = members.map id := by
      rw [mapMembers_eq_map]
      refine List.map_congr_left fun m hm => ?_
      rw [ih m hm, id_eq]
    rw [map, hmembers, List.map_id]
  | enum name variants ih =>
    have hvariants : mapVariants id variants = variants.map id := by
      rw [mapVariants_eq_map]
      refine List.map_congr_left fun v hv => ?_
      rw [ih v hv, id_eq]
    rw [map, hvariants, List.map_id]

/-- The parts of the changed shape are the parts of the shape, changed. -/
theorem partOf_map_iff {f : α → β} {q : Shape β} {t : Shape α} :
    q.PartOf (t.map f) ↔ ∃ p : Shape α, p.PartOf t ∧ p.map f = q := by
  induction t using shape_induction with
  | leaf a => simp [map, eq_comm]
  | array capacity element ih => simp [map, ih, or_and_right, exists_or, eq_comm]
  | struct name attrs members ih =>
    simp only [map, mapMembers_eq_map, partOf_struct, List.mem_map]
    constructor
    · rintro (rfl | ⟨_, ⟨m, hm, rfl⟩, h⟩)
      · exact ⟨_, Or.inl rfl, by rw [map, mapMembers_eq_map]⟩
      · obtain ⟨p, hp, rfl⟩ := (ih m hm).mp h
        exact ⟨p, Or.inr ⟨m, hm, hp⟩, rfl⟩
    · rintro ⟨p, rfl | ⟨m, hm, hp⟩, rfl⟩
      · exact Or.inl (by rw [map, mapMembers_eq_map])
      · exact Or.inr ⟨_, ⟨m, hm, rfl⟩, (ih m hm).mpr ⟨p, hp, rfl⟩⟩
  | enum name variants ih =>
    simp only [map, mapVariants_eq_map, partOf_enum, List.mem_map]
    constructor
    · rintro (rfl | ⟨_, ⟨v, hv, rfl⟩, h⟩)
      · exact ⟨_, Or.inl rfl, by rw [map, mapVariants_eq_map]⟩
      · obtain ⟨p, hp, rfl⟩ := (ih v hv).mp h
        exact ⟨p, Or.inr ⟨v, hv, hp⟩, rfl⟩
    · rintro ⟨p, rfl | ⟨v, hv, hp⟩, rfl⟩
      · exact Or.inl (by rw [map, mapVariants_eq_map])
      · exact Or.inr ⟨_, ⟨v, hv, rfl⟩, (ih v hv).mpr ⟨p, hp, rfl⟩⟩

/-- A leaf of the changed shape is a changed leaf. -/
lemma exists_leaf_of_partOf_map {f : α → β} {b : β} {t : Shape α}
    (h : (leaf b).PartOf (t.map f)) : ∃ a, (leaf a).PartOf t ∧ f a = b := by
  obtain ⟨p, hp, hpb⟩ := partOf_map_iff.mp h
  cases p with
  | leaf a =>
    rw [map, leaf.injEq] at hpb
    exact ⟨a, hp, hpb⟩
  | array capacity element => cases hpb
  | struct name attrs members => cases hpb
  | enum name variants => cases hpb

/-- An enum of the changed shape was an enum. -/
lemma exists_enum_of_partOf_map {f : α → β} {name : String} {variants : List (Variant (Shape β))}
    {t : Shape α} (h : (enum name variants).PartOf (t.map f)) :
    ∃ variants', (enum name variants').PartOf t ∧ mapVariants f variants' = variants := by
  obtain ⟨p, hp, hpv⟩ := partOf_map_iff.mp h
  cases p with
  | leaf a => cases hpv
  | array capacity element => cases hpv
  | struct name attrs members => cases hpv
  | enum name' variants' =>
    rw [map, enum.injEq] at hpv
    obtain ⟨rfl, hvariants⟩ := hpv
    exact ⟨variants', hp, hvariants⟩

mutual

/-- Slots are counted by the shape alone. -/
theorem checkedSize_map (f : α → β) : ∀ t : Shape α, (t.map f).checkedSize = t.checkedSize
  | leaf _ => rfl
  | array _ element => by rw [map, checkedSize, checkedSize, checkedSize_map f element]
  | struct _ _ members => by rw [map, checkedSize, checkedSize, checkedSum_mapMembers f members]
  | enum _ variants => by rw [map, checkedSize, checkedSize, checkedMax_mapVariants f variants]

theorem checkedSum_mapMembers (f : α → β) : ∀ members : List (Member (Shape α)),
    checkedSum (mapMembers f members) = checkedSum members
  | [] => rfl
  | ⟨_, body, _⟩ :: members => by
    rw [mapMembers, checkedSum, checkedSum, checkedSize_map f body,
      checkedSum_mapMembers f members]

theorem checkedMax_mapVariants (f : α → β) : ∀ variants : List (Variant (Shape α)),
    checkedMax (mapVariants f variants) = checkedMax variants
  | [] => rfl
  | ⟨_, body⟩ :: variants => by
    rw [mapVariants, checkedMax, checkedMax, checkedSize_map f body,
      checkedMax_mapVariants f variants]

end

lemma addressable_map_iff {f : α → β} {t : Shape α} : (t.map f).Addressable ↔ t.Addressable := by
  rw [← not_iff_not, ← checkedSize_eq_none_iff, ← checkedSize_eq_none_iff, checkedSize_map]

lemma name?_map (f : α → β) (leafName : β → String) (t : Shape α) :
    (t.map f).name? leafName = t.name? (leafName ∘ f) := by
  cases t <;> rfl

end WordPacking.Shape
