/-
# Declared fields

A type of each kind has its own fields, and so have members and variants (`Role.declared?`).  An
object is read by the values of its declared fields and nothing else, neither their order nor other
fields, and an array is read like the object that gives its items the names of the declared fields
in their order (`innerOfJson?_object`, `innerOfJson?_array`, and the same for members and variants).

So what is read from an object or array is kept if it is kept for each declared field
(`Keeps.of_object`, `Keeps.of_array`).
-/
import Mathlib.Algebra.Order.SuccPred
import Mathlib.Tactic.Common
import WordPacking.Decl.Json

namespace WordPacking.Decl

/-! ## Roles and fields -/

/-- What a JSON value in a type is read as. -/
inductive Role where
  /-- A type. -/
  | type
  /-- A member of a struct. -/
  | member
  /-- A variant of an enum. -/
  | variant
  /-- The members of a struct. -/
  | members
  /-- The variants of an enum. -/
  | variants
  /-- Tags, which may be left out. -/
  | tags
  /-- The word for a kind, a name or a capacity. -/
  | plain
deriving DecidableEq, Repr

/-- The fields of a type, in the order in which they are declared. -/
def fieldsOf : Kind → List (String × Role)
  | .primitive => [("kind", .plain), ("name", .plain)]
  | .named => [("kind", .plain), ("name", .plain)]
  | .array => [("kind", .plain), ("capacity", .plain), ("element", .type)]
  | .struct => [("kind", .plain), ("name", .plain), ("attrs", .tags), ("children", .members)]
  | .enum => [("kind", .plain), ("name", .plain), ("variants", .variants)]

/-- The fields of a member. -/
def memberFields : List (String × Role) := [("name", .plain), ("ty", .type), ("attrs", .tags)]

/-- The fields of a variant. -/
def variantFields : List (String × Role) := [("name", .plain), ("ty", .type)]

/-- The value that says of which kind a type is. -/
def kindValue? : Json → Option Json
  | .object fields => Json.sole? (Json.valuesNamed "kind" fields)
  | .array items => items.head?
  | _ => none

/-- The fields that an object or array has in its role: those of a type go by its kind. -/
def Role.declared? : Role → Json → Option (List (String × Role))
  | .type, j => ((kindValue? j).bind Kind.ofJson?).map fieldsOf
  | .member, _ => some memberFields
  | .variant, _ => some variantFields
  | _, _ => none

variable {kind : Kind} {role : Role} {declared : List (String × Role)} {j j' : Json}
  {fields fields' : List (String × Json)} {items items' : List Json}

lemma nodup_names_fieldsOf (kind : Kind) : ((fieldsOf kind).map (·.1)).Nodup := by
  cases kind <;> decide

/-- The fields of a role have different names. -/
lemma nodup_names (h : role.declared? j = some declared) : (declared.map (·.1)).Nodup := by
  cases role with
  | type =>
    obtain ⟨kind, -, rfl⟩ := Option.map_eq_some_iff.mp h
    exact nodup_names_fieldsOf kind
  | member | variant =>
    cases h
    decide
  | _ => cases h

/-- The tags are the only field of their name, wherever there are any. -/
lemma role_attrs (h : role.declared? j = some declared) :
    ∀ field ∈ declared, field.1 = "attrs" → field.2 = .tags := by
  cases role with
  | type =>
    obtain ⟨kind, -, rfl⟩ := Option.map_eq_some_iff.mp h
    cases kind <;> decide
  | member | variant =>
    cases h
    decide
  | _ => cases h

/-! ## Reading by values -/

/-- What is read from the only value of a field. -/
def only? {α : Type} (read : Json → Option α) (values : List Json) : Option α :=
  (Json.sole? values).bind read

/-- The type of a kind that the values of its fields stand for. -/
def ofValues? (kind : Kind) (values : String → List Json) : Option Decl :=
  match kind with
  | .primitive => (only? Json.string? (values "name")).map primitive
  | .named => (only? Json.string? (values "name")).map named
  | .array => do
    let capacity ← only? capacityOfJson? (values "capacity")
    let element ← only? innerOfJson? (values "element")
    return .array capacity element
  | .struct => do
    let name ← only? Json.string? (values "name")
    let attrs ← optionalAttrs? (values "attrs")
    let members ← only? membersOfJson? (values "children")
    return .struct name attrs members
  | .enum => do
    let name ← only? Json.string? (values "name")
    let variants ← only? variantsOfJson? (values "variants")
    return .enum name variants

/-- The member that the values of its fields stand for. -/
def memberOfValues? (values : String → List Json) : Option (Member Decl) := do
  let name ← only? Json.string? (values "name")
  let body ← only? innerOfJson? (values "ty")
  let attrs ← optionalAttrs? (values "attrs")
  return ⟨name, body, attrs⟩

/-- The variant that the values of its fields stand for. -/
def variantOfValues? (values : String → List Json) : Option (Variant Decl) := do
  let name ← only? Json.string? (values "name")
  let body ← only? innerOfJson? (values "ty")
  return ⟨name, body⟩

lemma typesNamed_eq_map (key : String) (fields : List (String × Json)) :
    typesNamed key fields = (Json.valuesNamed key fields).map innerOfJson? := by
  induction fields with
  | nil => rw [typesNamed]; rfl
  | cons field fields ih =>
    rw [typesNamed, ih]
    by_cases h : field.1 = key <;> simp [Json.valuesNamed, h]

lemma membersNamed_eq_map (key : String) (fields : List (String × Json)) :
    membersNamed key fields = (Json.valuesNamed key fields).map membersOfJson? := by
  induction fields with
  | nil => rw [membersNamed]; rfl
  | cons field fields ih =>
    rw [membersNamed, ih]
    by_cases h : field.1 = key <;> simp [Json.valuesNamed, h]

lemma variantsNamed_eq_map (key : String) (fields : List (String × Json)) :
    variantsNamed key fields = (Json.valuesNamed key fields).map variantsOfJson? := by
  induction fields with
  | nil => rw [variantsNamed]; rfl
  | cons field fields ih =>
    rw [variantsNamed, ih]
    by_cases h : field.1 = key <;> simp [Json.valuesNamed, h]

lemma join_sole?_map {α : Type} (read : Json → Option α) (values : List Json) :
    (Json.sole? (values.map read)).join = only? read values := by
  rcases values with _ | ⟨value, _ | ⟨value', values⟩⟩ <;> rfl

/-- An object in the place of a type is read by the values of its declared fields. -/
lemma innerOfJson?_object (fields : List (String × Json)) :
    innerOfJson? (.object fields) = ((kindValue? (.object fields)).bind Kind.ofJson?).bind
      fun kind => ofValues? kind (Json.valuesNamed · fields) := by
  rw [innerOfJson?, kindValue?]
  cases (Json.sole? (Json.valuesNamed "kind" fields)).bind Kind.ofJson? with
  | none => rfl
  | some kind =>
    rw [typesNamed_eq_map, membersNamed_eq_map, variantsNamed_eq_map, join_sole?_map,
      join_sole?_map, join_sole?_map]
    cases kind <;> rfl

lemma memberOfJson?_object (fields : List (String × Json)) :
    memberOfJson? (.object fields) = memberOfValues? (Json.valuesNamed · fields) := by
  rw [memberOfJson?, typesNamed_eq_map, join_sole?_map]
  rfl

lemma variantOfJson?_object (fields : List (String × Json)) :
    variantOfJson? (.object fields) = variantOfValues? (Json.valuesNamed · fields) := by
  rw [variantOfJson?, typesNamed_eq_map, join_sole?_map]
  rfl

/-- The items of an array with the names of the declared fields. -/
def withNames (declared : List (String × Role)) (items : List Json) : List (String × Json) :=
  (declared.map (·.1)).zip items

/-- The fields of an object or array. -/
def fieldsIn (declared : List (String × Role)) : Json → List (String × Json)
  | .object fields => fields
  | .array items => withNames declared items
  | _ => []

/-- Whether a value is an object, or an array that has not more items than there are fields. -/
def fits (declared : List (String × Role)) : Json → Bool
  | .object _ => true
  | .array items => items.length ≤ declared.length
  | _ => false

section Array

attribute [local simp] withNames ofValues? memberOfValues? variantOfValues? only? fieldsOf
  memberFields variantFields Json.valuesNamed Json.sole? optionalAttrs?

lemma innerOfJson?_array {value : Json} (hkind : Kind.ofJson? value = some kind)
    (items : List Json) :
    innerOfJson? (.array (value :: items)) =
      if items.length < (fieldsOf kind).length then
        ofValues? kind (Json.valuesNamed · (withNames (fieldsOf kind) (value :: items)))
      else none := by
  cases kind with
  | primitive | named =>
    rcases items with _ | ⟨name, _ | ⟨extra, items⟩⟩ <;> simp [innerOfJson?, hkind]
  | array =>
    rcases items with _ | ⟨capacity, _ | ⟨element, _ | ⟨extra, items⟩⟩⟩ <;>
      simp [innerOfJson?, hkind]
  | struct =>
    rcases items with _ | ⟨name, _ | ⟨attrs, _ | ⟨members, _ | ⟨extra, items⟩⟩⟩⟩ <;>
      simp [innerOfJson?, hkind]
  | enum =>
    rcases items with _ | ⟨name, _ | ⟨variants, _ | ⟨extra, items⟩⟩⟩ <;>
      simp [innerOfJson?, hkind]

lemma memberOfJson?_array (items : List Json) :
    memberOfJson? (.array items) =
      if items.length ≤ memberFields.length then
        memberOfValues? (Json.valuesNamed · (withNames memberFields items))
      else none := by
  rcases items with _ | ⟨name, _ | ⟨body, _ | ⟨attrs, _ | ⟨extra, items⟩⟩⟩⟩ <;>
    simp [memberOfJson?]

lemma variantOfJson?_array (items : List Json) :
    variantOfJson? (.array items) =
      if items.length ≤ variantFields.length then
        variantOfValues? (Json.valuesNamed · (withNames variantFields items))
      else none := by
  rcases items with _ | ⟨name, _ | ⟨body, _ | ⟨extra, items⟩⟩⟩ <;> simp [variantOfJson?]

end Array

/-- A type is read by the values of its declared fields. -/
theorem innerOfJson?_eq_ite (hkind : (kindValue? j).bind Kind.ofJson? = some kind) :
    innerOfJson? j =
      if fits (fieldsOf kind) j then
        ofValues? kind (Json.valuesNamed · (fieldsIn (fieldsOf kind) j))
      else none := by
  rcases j with _ | _ | _ | _ | ⟨_ | ⟨value, items⟩⟩ | fields
  case object => simp [innerOfJson?_object, hkind, fits, fieldsIn]
  case array.cons =>
    have hfits : items.length < (fieldsOf kind).length ↔
        fits (fieldsOf kind) (.array (value :: items)) = true := by
      rw [fits, decide_eq_true_iff, List.length_cons, Nat.lt_iff_add_one_le]
    rw [innerOfJson?_array hkind]
    simp only [hfits, fieldsIn]
  all_goals cases hkind

/-- So is a member. -/
theorem memberOfJson?_eq_ite (j : Json) :
    memberOfJson? j =
      if fits memberFields j then
        memberOfValues? (Json.valuesNamed · (fieldsIn memberFields j))
      else none := by
  cases j with
  | object fields => simp [memberOfJson?_object, fits, fieldsIn]
  | array items => simp [memberOfJson?_array, fits, fieldsIn]
  | _ => simp [memberOfJson?, fits]

/-- So is a variant. -/
theorem variantOfJson?_eq_ite (j : Json) :
    variantOfJson? j =
      if fits variantFields j then
        variantOfValues? (Json.valuesNamed · (fieldsIn variantFields j))
      else none := by
  cases j with
  | object fields => simp [variantOfJson?_object, fits, fieldsIn]
  | array items => simp [variantOfJson?_array, fits, fieldsIn]
  | _ => simp [variantOfJson?, fits]

/-! ## What is kept -/

/-- What is read from a value in a role is read from another value too.  The values of plain
fields are the same. -/
def Keeps : Role → Json → Json → Prop
  | .type, j, j' => ∀ d, innerOfJson? j = some d → innerOfJson? j' = some d
  | .member, j, j' => ∀ m, memberOfJson? j = some m → memberOfJson? j' = some m
  | .variant, j, j' => ∀ v, variantOfJson? j = some v → variantOfJson? j' = some v
  | .members, j, j' => ∀ ms, membersOfJson? j = some ms → membersOfJson? j' = some ms
  | .variants, j, j' => ∀ vs, variantsOfJson? j = some vs → variantsOfJson? j' = some vs
  | _, j, j' => j = j'

/-- The same for the values of all fields of one name.  Tags may be left out. -/
def KeepsField : Role → List Json → List Json → Prop
  | .tags, values, values' =>
    ∀ attrs, optionalAttrs? values = some attrs → optionalAttrs? values' = some attrs
  | role, values, values' => ∀ j, values = [j] → ∃ j', values' = [j'] ∧ Keeps role j j'

lemma Keeps.refl (role : Role) (j : Json) : Keeps role j j := by
  cases role with
  | tags | plain => rfl
  | _ => exact fun _ h => h

lemma KeepsField.refl (role : Role) (values : List Json) : KeepsField role values values := by
  cases role with
  | tags => exact fun _ h => h
  | _ => exact fun j hj => ⟨j, hj, Keeps.refl _ j⟩

/-- Where there is one value, it is enough to keep this value. -/
lemma KeepsField.of_sole {values values' : List Json}
    (hnone : role = .tags → values = [] → values' = [])
    (hone : ∀ j, values = [j] → ∃ j', values' = [j'] ∧ Keeps role j j') :
    KeepsField role values values' := by
  cases role with
  | tags =>
    intro attrs hattrs
    rcases values with _ | ⟨j, _ | ⟨k, values⟩⟩
    · rwa [hnone rfl rfl]
    · obtain ⟨j', rfl, rfl⟩ := hone j rfl
      exact hattrs
    · cases hattrs
  | _ => exact hone

section Fields

variable {values values' : String → List Json} {vs vs' : List Json}

/-- What is read from the only value of a field is kept. -/
lemma only?_of_keepsField {α : Type} {read : Json → Option α} {a : α}
    (h : KeepsField role vs vs') (hrole : role ≠ .tags)
    (hread : ∀ j j', Keeps role j j' → read j = some a → read j' = some a)
    (ha : only? read vs = some a) : only? read vs' = some a := by
  obtain ⟨j, hj, hja⟩ := Option.bind_eq_some_iff.mp ha
  have hone : ∃ j', vs' = [j'] ∧ Keeps role j j' := by
    have hj := Json.sole?_eq_some_iff.mp hj
    cases role with
    | tags => exact absurd rfl hrole
    | _ => exact h j hj
  obtain ⟨j', rfl, hkeeps⟩ := hone
  exact hread j j' hkeeps hja

lemma only?_plain {α : Type} {read : Json → Option α} {a : α} (h : KeepsField .plain vs vs')
    (ha : only? read vs = some a) : only? read vs' = some a :=
  only?_of_keepsField h nofun (fun _ _ hj hja => hj ▸ hja) ha

lemma only?_type {d : Decl} (h : KeepsField .type vs vs')
    (hd : only? innerOfJson? vs = some d) : only? innerOfJson? vs' = some d :=
  only?_of_keepsField h nofun (fun _ _ hj => hj d) hd

/-- A type of some kind is kept if all of its fields are. -/
lemma ofValues?_of_keepsField {d : Decl}
    (h : ∀ field ∈ fieldsOf kind, KeepsField field.2 (values field.1) (values' field.1))
    (hd : ofValues? kind values = some d) : ofValues? kind values' = some d := by
  cases kind with
  | primitive | named =>
    obtain ⟨name, hname, rfl⟩ := Option.map_eq_some_iff.mp hd
    simp only [fieldsOf, List.forall_mem_cons] at h
    rw [ofValues?, only?_plain h.2.1 hname, Option.map_some]
  | array =>
    obtain ⟨capacity, hcapacity, hd⟩ := Option.bind_eq_some_iff.mp hd
    obtain ⟨element, helement, hd⟩ := Option.bind_eq_some_iff.mp hd
    simp only [fieldsOf, List.forall_mem_cons] at h
    rw [ofValues?, only?_plain h.2.1 hcapacity, only?_type h.2.2.1 helement]
    exact hd
  | struct =>
    obtain ⟨name, hname, hd⟩ := Option.bind_eq_some_iff.mp hd
    obtain ⟨attrs, hattrs, hd⟩ := Option.bind_eq_some_iff.mp hd
    obtain ⟨members, hmembers, hd⟩ := Option.bind_eq_some_iff.mp hd
    simp only [fieldsOf, List.forall_mem_cons] at h
    obtain ⟨-, hkname, hkattrs, hkmembers, -⟩ := h
    have hmembers' := only?_of_keepsField hkmembers nofun (fun _ _ hj => hj members) hmembers
    rw [ofValues?, only?_plain hkname hname, hkattrs attrs hattrs, hmembers']
    exact hd
  | enum =>
    obtain ⟨name, hname, hd⟩ := Option.bind_eq_some_iff.mp hd
    obtain ⟨variants, hvariants, hd⟩ := Option.bind_eq_some_iff.mp hd
    simp only [fieldsOf, List.forall_mem_cons] at h
    obtain ⟨-, hkname, hkvariants, -⟩ := h
    have hvariants' := only?_of_keepsField hkvariants nofun (fun _ _ hj => hj variants) hvariants
    rw [ofValues?, only?_plain hkname hname, hvariants']
    exact hd

lemma memberOfValues?_of_keepsField {m : Member Decl}
    (h : ∀ field ∈ memberFields, KeepsField field.2 (values field.1) (values' field.1))
    (hm : memberOfValues? values = some m) : memberOfValues? values' = some m := by
  obtain ⟨name, hname, hm⟩ := Option.bind_eq_some_iff.mp hm
  obtain ⟨body, hbody, hm⟩ := Option.bind_eq_some_iff.mp hm
  obtain ⟨attrs, hattrs, hm⟩ := Option.bind_eq_some_iff.mp hm
  simp only [memberFields, List.forall_mem_cons] at h
  obtain ⟨hkname, hkbody, hkattrs, -⟩ := h
  rw [memberOfValues?, only?_plain hkname hname, only?_type hkbody hbody, hkattrs attrs hattrs]
  exact hm

lemma variantOfValues?_of_keepsField {v : Variant Decl}
    (h : ∀ field ∈ variantFields, KeepsField field.2 (values field.1) (values' field.1))
    (hv : variantOfValues? values = some v) : variantOfValues? values' = some v := by
  obtain ⟨name, hname, hv⟩ := Option.bind_eq_some_iff.mp hv
  obtain ⟨body, hbody, hv⟩ := Option.bind_eq_some_iff.mp hv
  simp only [variantFields, List.forall_mem_cons] at h
  obtain ⟨hkname, hkbody, -⟩ := h
  rw [variantOfValues?, only?_plain hkname hname, only?_type hkbody hbody]
  exact hv

end Fields

/-- **What is kept for each declared field is kept for the whole object or array.** -/
theorem Keeps.of_fields (hdeclared : role.declared? j = some declared)
    (hkind : role = .type → kindValue? j' = kindValue? j)
    (hfits : fits declared j = true → fits declared j' = true)
    (h : ∀ field ∈ declared, KeepsField field.2 (Json.valuesNamed field.1 (fieldsIn declared j))
      (Json.valuesNamed field.1 (fieldsIn declared j'))) :
    Keeps role j j' := by
  cases role with
  | type =>
    obtain ⟨kind, hj, rfl⟩ := Option.map_eq_some_iff.mp hdeclared
    have hj' : (kindValue? j').bind Kind.ofJson? = some kind := by rw [hkind rfl, hj]
    intro d hd
    rw [innerOfJson?_eq_ite hj] at hd
    split_ifs at hd with hfitsj
    rw [innerOfJson?_eq_ite hj', if_pos (hfits hfitsj)]
    exact ofValues?_of_keepsField h hd
  | member =>
    cases hdeclared
    intro m hm
    rw [memberOfJson?_eq_ite] at hm
    split_ifs at hm with hfitsj
    rw [memberOfJson?_eq_ite, if_pos (hfits hfitsj)]
    exact memberOfValues?_of_keepsField h hm
  | variant =>
    cases hdeclared
    intro v hv
    rw [variantOfJson?_eq_ite] at hv
    split_ifs at hv with hfitsj
    rw [variantOfJson?_eq_ite, if_pos (hfits hfitsj)]
    exact variantOfValues?_of_keepsField h hv
  | _ => cases hdeclared

end WordPacking.Decl
