/-
# Respelling a type

A type can be written in many ways.  In the object for a type, a member or a variant the fields may
be permuted, fields that it does not have may be put in, and tags that are empty may be left out;
or the values of its fields stand in an array, in the order in which they are declared.  One such
change anywhere inside a type is a step (`Respells`), and what is read from the type is kept by a
step (`Respells.keeps`), hence by any number of them.

Which fields an object has goes by its role, and for a type by its kind, which may stand at any
place.  No step changes the value of the kind (`Respells.kindValue?_eq`).
-/
import Mathlib.Data.List.Nodup
import Mathlib.Logic.Relation
import Mathlib.Tactic.Common
import WordPacking.Proofs.Decl.Fields
import WordPacking.Proofs.Json.Acceptance

namespace WordPacking.Decl

/-! ## Steps -/

/-- The value at a field of some name.  Where there is none, it is the empty text, which stands for
tags that are left out. -/
def valueAt (name : String) (fields : List (String × Json)) : Json :=
  (Json.valuesNamed name fields).head?.getD (.string "")

/-- What the items of an array are read as. -/
def Role.elements? : Role → Option Role
  | .members => some .member
  | .variants => some .variant
  | _ => none

/-- One change in the way in which a value is written that is read in some role. -/
inductive Respells : Role → Json → Json → Prop where
  /-- The fields are permuted. -/
  | permute {role : Role} {declared : List (String × Role)} {fields fields' : List (String × Json)}
      (hdeclared : role.declared? (.object fields) = some declared) (hperm : fields.Perm fields') :
      Respells role (.object fields) (.object fields')
  /-- A field is put in that has none of the declared names. -/
  | insert {role : Role} {declared : List (String × Role)} {before after : List (String × Json)}
      {name : String} (value : Json)
      (hdeclared : role.declared? (.object (before ++ after)) = some declared)
      (hname : name ∉ declared.map (·.1)) :
      Respells role (.object (before ++ after)) (.object (before ++ (name, value) :: after))
  /-- Empty tags are left out. -/
  | leaveOut {role : Role} {declared : List (String × Role)} {before after : List (String × Json)}
      (hdeclared : role.declared? (.object (before ++ ("attrs", .string "") :: after)) =
        some declared) :
      Respells role (.object (before ++ ("attrs", .string "") :: after))
        (.object (before ++ after))
  /-- Empty tags are left out of the array of a member, where they are last.  An item is known by
  its place, so the tags of a struct, which are not last, stay in its array. -/
  | leaveOutLast {name body : Json} :
      Respells .member (.array [name, body, .string ""]) (.array [name, body])
  /-- An object that has declared fields only becomes the array of the values of all declared fields
  in order, where tags that are left out stand as the empty text. -/
  | asArray {role : Role} {declared : List (String × Role)} {fields : List (String × Json)}
      (hdeclared : role.declared? (.object fields) = some declared)
      (hfields : ∀ field ∈ fields, field.1 ∈ declared.map (·.1)) :
      Respells role (.object fields) (.array (declared.map fun field => valueAt field.1 fields))
  /-- A change inside a field. -/
  | field {role inner : Role} {declared : List (String × Role)}
      {before after : List (String × Json)} {name : String} {value value' : Json}
      (hdeclared : role.declared? (.object (before ++ (name, value) :: after)) = some declared)
      (hinner : (name, inner) ∈ declared) (hvalue : Respells inner value value') :
      Respells role (.object (before ++ (name, value) :: after))
        (.object (before ++ (name, value') :: after))
  /-- A change inside an item of the array of a type, a member or a variant. -/
  | item {role inner : Role} {declared : List (String × Role)} {before after : List Json}
      {name : String} {value value' : Json}
      (hdeclared : role.declared? (.array (before ++ value :: after)) = some declared)
      (hinner : declared[before.length]? = some (name, inner))
      (hvalue : Respells inner value value') :
      Respells role (.array (before ++ value :: after)) (.array (before ++ value' :: after))
  /-- A change inside one of the members or of the variants. -/
  | element {role inner : Role} {before after : List Json} {value value' : Json}
      (hinner : role.elements? = some inner) (hvalue : Respells inner value value') :
      Respells role (.array (before ++ value :: after)) (.array (before ++ value' :: after))

/-- A text spells a type in another way: the value that it is a text of goes over into the value of
the other text by steps.  Texts of one value differ in the blanks between their tokens, and in the
way in which their strings are escaped. -/
def Respelled (s s' : String) : Prop :=
  ∃ j j', j.SpelledBy s ∧ Relation.ReflTransGen (Respells .type) j j' ∧ j'.SpelledBy s'

/-! ## Values of fields -/

variable {role inner : Role} {declared : List (String × Role)} {j j' value value' : Json}
  {fields fields' before after : List (String × Json)} {name other : String}

lemma valuesNamed_append (name : String) (before after : List (String × Json)) :
    Json.valuesNamed name (before ++ after) =
      Json.valuesNamed name before ++ Json.valuesNamed name after := by
  simp [Json.valuesNamed]

lemma valuesNamed_insert_of_ne (h : other ≠ name) (value : Json)
    (before after : List (String × Json)) :
    Json.valuesNamed name (before ++ (other, value) :: after) =
      Json.valuesNamed name (before ++ after) := by
  rw [valuesNamed_append, valuesNamed_append, Json.valuesNamed_cons_of_ne h]

lemma valuesNamed_insert_self (name : String) (value : Json)
    (before after : List (String × Json)) :
    Json.valuesNamed name (before ++ (name, value) :: after) =
      Json.valuesNamed name before ++ value :: Json.valuesNamed name after := by
  simp [Json.valuesNamed]

lemma valuesNamed_perm (name : String) (h : fields.Perm fields') :
    (Json.valuesNamed name fields).Perm (Json.valuesNamed name fields') :=
  (h.filter _).map _

/-! ## The kind -/

lemma not_respells_plain : ¬ Respells .plain j j' := by
  intro h
  cases h with
  | element hinner _ => cases hinner
  | permute hdeclared | insert _ hdeclared | leaveOut hdeclared | asArray hdeclared
  | field hdeclared | item hdeclared => cases hdeclared

lemma role_kind {kind : Kind} (h : ("kind", inner) ∈ fieldsOf kind) : inner = .plain := by
  cases kind <;> simpa [fieldsOf] using h

/-- The kind is the first field of a type of any kind. -/
lemma exists_fieldsOf_eq_cons (kind : Kind) : ∃ rest, fieldsOf kind = ("kind", .plain) :: rest := by
  cases kind <;> exact ⟨_, rfl⟩

lemma declared_type (h : Role.type.declared? j = some declared) :
    ∃ kind, (kindValue? j).bind Kind.ofJson? = some kind ∧ declared = fieldsOf kind := by
  obtain ⟨kind, hkind, rfl⟩ := Option.map_eq_some_iff.mp h
  exact ⟨kind, hkind, rfl⟩

/-- **No step changes the value of the kind.** -/
theorem Respells.kindValue?_eq (h : Respells .type j j') : kindValue? j' = kindValue? j := by
  cases h with
  | @permute _ _ fields fields' hdeclared hperm =>
    obtain ⟨kind, hkind, rfl⟩ := declared_type hdeclared
    obtain ⟨value, hvalue, -⟩ := Option.bind_eq_some_iff.mp hkind
    have hone := Json.sole?_eq_some_iff.mp hvalue
    have hperm' := valuesNamed_perm "kind" hperm
    rw [hone, List.singleton_perm] at hperm'
    rw [kindValue?, kindValue?, hone, ← hperm']
  | @insert _ _ before after name value hdeclared hname =>
    obtain ⟨kind, -, rfl⟩ := declared_type hdeclared
    obtain ⟨rest, hrest⟩ := exists_fieldsOf_eq_cons kind
    have hne : name ≠ "kind" := by
      rintro rfl
      simp [hrest] at hname
    rw [kindValue?, kindValue?, valuesNamed_insert_of_ne hne]
  | leaveOut _ => rw [kindValue?, kindValue?, valuesNamed_insert_of_ne (by decide)]
  | @asArray _ _ fields hdeclared _ =>
    obtain ⟨kind, hkind, rfl⟩ := declared_type hdeclared
    obtain ⟨rest, hrest⟩ := exists_fieldsOf_eq_cons kind
    obtain ⟨value, hvalue, -⟩ := Option.bind_eq_some_iff.mp hkind
    have hone := Json.sole?_eq_some_iff.mp hvalue
    rw [hvalue, kindValue?, hrest]
    simp [valueAt, hone]
  | @field _ _ _ _ _ name _ _ hdeclared hinner hvalue =>
    obtain ⟨kind, -, rfl⟩ := declared_type hdeclared
    have hne : name ≠ "kind" := by
      rintro rfl
      rw [role_kind hinner] at hvalue
      exact not_respells_plain hvalue
    rw [kindValue?, kindValue?, valuesNamed_insert_of_ne hne, valuesNamed_insert_of_ne hne]
  | @item _ _ _ before _ _ _ _ hdeclared hinner hvalue =>
    obtain ⟨kind, -, rfl⟩ := declared_type hdeclared
    cases before with
    | nil =>
      obtain ⟨rest, hrest⟩ := exists_fieldsOf_eq_cons kind
      rw [hrest] at hinner
      cases hinner
      exact absurd hvalue not_respells_plain
    | cons first before => rfl
  | element hinner _ => cases hinner

/-! ## Steps keep what is read -/

lemma ofText?_empty : Attrs.ofText? "" = some .empty := by decide

section KeepsField

variable {values values' : List Json}

lemma KeepsField.of_perm (role : Role) (h : values.Perm values') :
    KeepsField role values values' := by
  refine .of_sole ?_ ?_
  · rintro - rfl
    exact h.nil_eq.symm
  · rintro j rfl
    exact ⟨j, List.singleton_perm.mp h |>.symm, Keeps.refl role j⟩

/-- Empty tags are the same as none. -/
lemma KeepsField.of_leaveOut (before after : List Json) :
    KeepsField .tags (before ++ .string "" :: after) (before ++ after) := by
  intro attrs hattrs
  rcases before with _ | ⟨first, _ | ⟨second, before⟩⟩
  · rcases after with _ | ⟨next, after⟩
    · exact hattrs.symm.trans ofText?_empty |>.symm
    · cases hattrs
  · cases hattrs
  · cases hattrs

/-- Tags that are left out are filled in, and other fields have a value. -/
lemma KeepsField.of_head (role : Role) (values : List Json) :
    KeepsField role values [values.head?.getD (.string "")] := by
  rcases values with _ | ⟨value, _ | ⟨next, values⟩⟩
  · cases role with
    | tags =>
      intro attrs hattrs
      exact ofText?_empty.trans hattrs
    | _ => nofun
  · exact KeepsField.refl role [value]
  · cases role <;> nofun

lemma KeepsField.of_replace (hvalue : Keeps role value value') (before after : List Json) :
    KeepsField role (before ++ value :: after) (before ++ value' :: after) := by
  refine .of_sole ?_ ?_
  · intro _ hnil
    simp at hnil
  · intro j hj
    obtain ⟨rfl, rfl, rfl⟩ : before = [] ∧ value = j ∧ after = [] := by
      simpa [List.append_eq_cons_iff] using hj
    exact ⟨value', rfl, hvalue⟩

end KeepsField

/-- The role of a declared field is given by its name. -/
lemma role_unique (hnodup : (declared.map (·.1)).Nodup) {field : String × Role}
    (hfield : field ∈ declared) (hinner : (name, inner) ∈ declared) (hname : field.1 = name) :
    field.2 = inner := by
  have heq := List.inj_on_of_nodup_map hnodup hfield hinner hname
  rw [heq]

/-- A value that is changed in one field is kept in all of them. -/
lemma keepsField_replace (hnodup : (declared.map (·.1)).Nodup)
    (hinner : (name, inner) ∈ declared) (hvalue : Keeps inner value value') :
    ∀ field ∈ declared, KeepsField field.2
      (Json.valuesNamed field.1 (before ++ (name, value) :: after))
      (Json.valuesNamed field.1 (before ++ (name, value') :: after)) := by
  intro field hfield
  by_cases hname : name = field.1
  · rw [role_unique hnodup hfield hinner hname.symm, ← hname, valuesNamed_insert_self,
      valuesNamed_insert_self]
    exact .of_replace hvalue _ _
  · rw [valuesNamed_insert_of_ne hname, valuesNamed_insert_of_ne hname]
    exact .refl _ _

lemma withNames_append_cons {before after : List Json}
    (hinner : declared[before.length]? = some (name, inner)) (value : Json) :
    withNames declared (before ++ value :: after) =
      withNames (declared.take before.length) before ++
        (name, value) :: withNames (declared.drop (before.length + 1)) after := by
  obtain ⟨hlt, hget⟩ := List.getElem?_eq_some_iff.mp hinner
  have hsplit : declared = declared.take before.length ++
      (name, inner) :: declared.drop (before.length + 1) := by
    rw [← hget, ← List.drop_eq_getElem_cons hlt, List.take_append_drop]
  have hlength : ((declared.take before.length).map (·.1)).length = before.length := by
    simp [Nat.le_of_lt hlt]
  conv_lhs => rw [withNames, hsplit, List.map_append, List.zip_append hlength]
  rfl

lemma filter_name_eq (hnodup : (declared.map (·.1)).Nodup) {field : String × Role}
    (hfield : field ∈ declared) : (declared.filter fun f => f.1 = field.1) = [field] := by
  induction declared with
  | nil => cases hfield
  | cons first rest ih =>
    obtain ⟨hfirst, hrest⟩ := List.nodup_cons.mp hnodup
    rcases List.mem_cons.mp hfield with rfl | hfield
    · have hnone : (rest.filter fun f => f.1 = field.1) = [] := by
        rw [List.filter_eq_nil_iff]
        intro other hother hname
        have hmem : other.1 ∈ rest.map (·.1) := List.mem_map_of_mem hother
        rw [of_decide_eq_true hname] at hmem
        exact hfirst hmem
      simp [hnone]
    · have hne : first.1 ≠ field.1 := by
        intro hname
        have hmem : field.1 ∈ rest.map (·.1) := List.mem_map_of_mem hfield
        rw [← hname] at hmem
        exact hfirst hmem
      simpa [hne] using ih hrest hfield

/-- In the array of an object there is one value for each declared field. -/
lemma valuesNamed_withNames_map (hnodup : (declared.map (·.1)).Nodup)
    (value : String × Role → Json) {field : String × Role} (hfield : field ∈ declared) :
    Json.valuesNamed field.1 (withNames declared (declared.map value)) = [value field] := by
  have hmap : withNames declared (declared.map value) = declared.map fun f => (f.1, value f) :=
    List.zip_map' ..
  rw [hmap, Json.valuesNamed, List.filter_map, List.map_map]
  exact congrArg (List.map value) (filter_name_eq hnodup hfield)

lemma mapM_replace {α β : Type} {f : α → Option β} {a a' : α} {before after : List α}
    {bs : List β} (ha : ∀ b, f a = some b → f a' = some b)
    (h : (before ++ a :: after).mapM f = some bs) :
    (before ++ a' :: after).mapM f = some bs := by
  rw [List.mapM_append, List.mapM_cons] at h ⊢
  obtain ⟨bs₁, hbs₁, h⟩ := Option.bind_eq_some_iff.mp h
  obtain ⟨bs₂, hbs₂, h⟩ := Option.bind_eq_some_iff.mp h
  obtain ⟨b, hb, hbs₂⟩ := Option.bind_eq_some_iff.mp hbs₂
  refine Option.bind_eq_some_iff.mpr ⟨bs₁, hbs₁, ?_⟩
  refine Option.bind_eq_some_iff.mpr ⟨bs₂, ?_, h⟩
  exact Option.bind_eq_some_iff.mpr ⟨b, ha b hb, hbs₂⟩

lemma memberList?_eq_mapM (items : List Json) :
    memberList? items = items.mapM memberOfJson? := by
  induction items with
  | nil => rw [memberList?, List.mapM_nil]; rfl
  | cons item items ih => rw [memberList?, ih, List.mapM_cons]

lemma variantList?_eq_mapM (items : List Json) :
    variantList? items = items.mapM variantOfJson? := by
  induction items with
  | nil => rw [variantList?, List.mapM_nil]; rfl
  | cons item items ih => rw [variantList?, ih, List.mapM_cons]

/-- A list of members or of variants is kept if one of them is changed and kept. -/
lemma Keeps.of_element {before after : List Json} (hinner : role.elements? = some inner)
    (hvalue : Keeps inner value value') :
    Keeps role (.array (before ++ value :: after)) (.array (before ++ value' :: after)) := by
  cases role with
  | members =>
    cases hinner
    intro ms hms
    rw [membersOfJson?, memberList?_eq_mapM] at hms ⊢
    exact mapM_replace hvalue hms
  | variants =>
    cases hinner
    intro vs hvs
    rw [variantsOfJson?, variantList?_eq_mapM] at hvs ⊢
    exact mapM_replace hvalue hvs
  | _ => cases hinner

/-- **What is read is kept by each step.** -/
theorem Respells.keeps (h : Respells role j j') : Keeps role j j' := by
  have hkind : role = .type → kindValue? j' = kindValue? j := by
    rintro rfl
    exact h.kindValue?_eq
  induction h with
  | permute hdeclared hperm =>
    refine .of_fields hdeclared hkind (fun _ => rfl) fun field _ => ?_
    exact .of_perm _ (valuesNamed_perm field.1 hperm)
  | @insert _ _ _ _ name value hdeclared hname =>
    refine .of_fields hdeclared hkind (fun _ => rfl) fun field hfield => ?_
    have hne : name ≠ field.1 := by
      rintro rfl
      exact hname (List.mem_map_of_mem hfield)
    rw [fieldsIn, fieldsIn, valuesNamed_insert_of_ne hne]
    exact .refl _ _
  | leaveOut hdeclared =>
    refine .of_fields hdeclared hkind (fun _ => rfl) fun field hfield => ?_
    by_cases hname : "attrs" = field.1
    · rw [fieldsIn, fieldsIn, ← hname, valuesNamed_insert_self, valuesNamed_append,
        role_attrs hdeclared field hfield hname.symm]
      exact .of_leaveOut _ _
    · rw [fieldsIn, fieldsIn, valuesNamed_insert_of_ne hname]
      exact .refl _ _
  | @leaveOutLast name body =>
    have hdeclared : Role.member.declared? (.array [name, body, .string ""]) =
        some memberFields := rfl
    refine .of_fields hdeclared hkind (fun _ => rfl) ?_
    simp only [memberFields, List.forall_mem_cons]
    exact ⟨.refl _ [name], .refl _ [body], .of_leaveOut [] [], List.forall_mem_nil _⟩
  | asArray hdeclared _ =>
    refine .of_fields hdeclared hkind (fun _ => by simp [fits]) fun field hfield => ?_
    rw [fieldsIn, fieldsIn, valuesNamed_withNames_map (nodup_names hdeclared) _ hfield]
    exact .of_head _ _
  | field hdeclared hinner hvalue ih =>
    have hkeeps := ih (by rintro rfl; exact hvalue.kindValue?_eq)
    exact .of_fields hdeclared hkind (fun _ => rfl)
      (keepsField_replace (nodup_names hdeclared) hinner hkeeps)
  | item hdeclared hinner hvalue ih =>
    have hkeeps := ih (by rintro rfl; exact hvalue.kindValue?_eq)
    refine .of_fields hdeclared hkind (by simp [fits]) ?_
    rw [fieldsIn, fieldsIn, withNames_append_cons hinner, withNames_append_cons hinner]
    exact keepsField_replace (nodup_names hdeclared) (List.mem_of_getElem? hinner) hkeeps
  | element hinner hvalue ih =>
    exact .of_element hinner (ih (by rintro rfl; exact hvalue.kindValue?_eq))

/-! ## The outermost type -/

lemma hasKindWord_eq (j : Json) :
    hasKindWord j = ((kindValue? j).bind Json.string?).isSome := by
  rcases j with _ | _ | _ | _ | ⟨_ | ⟨value, items⟩⟩ | fields <;> rfl

lemma ofJson?_of_respells {d : Decl} (h : Respells .type j j') (hd : ofJson? j = some d) :
    ofJson? j' = some d := by
  rw [ofJson?] at hd ⊢
  split_ifs at hd with hword
  have hword' : hasKindWord j' = true := by
    rw [hasKindWord_eq, h.kindValue?_eq, ← hasKindWord_eq, hword]
  rw [if_pos hword']
  exact h.keeps d hd

/-- What is read is kept by any number of steps. -/
lemma ofJson?_of_reflTransGen {d : Decl} (h : Relation.ReflTransGen (Respells .type) j j')
    (hd : ofJson? j = some d) : ofJson? j' = some d := by
  induction h with
  | refl => exact hd
  | tail _ hstep ih => exact ofJson?_of_respells hstep ih

end WordPacking.Decl
