/-
# Declared types in documents

A type is written as a JSON object with a field `kind` that says what it is, and the fields that
this kind has.  When it is read, its fields may come in any order, fields of other names are
passed over, and tags that are left out are empty.  Each field that the kind has may be there
once only.

A type, a member and a variant may also be written as an array of the values of its fields in
their order, the kind first.

The kind of the outermost type is a word.  In a type inside another one it may also be a number,
the place of the kind in the list of kinds.
-/
import WordPacking.Attrs.Text
import WordPacking.Decl
import WordPacking.Json.Fields
import WordPacking.Json.Text

namespace WordPacking

namespace Kind

/-- The kinds, each at the place that is its number. -/
def all : List Kind := [.primitive, .struct, .array, .enum, .named]

/-- The kind that a word stands for. -/
def ofText? (s : String) : Option Kind := all.find? fun kind => kind.text = s

/-- The kind that a JSON value stands for, by its word or by its number. -/
def ofJson? : Json → Option Kind
  | .string word => ofText? word
  | j => j.nat?.bind fun place => all[place]?

end Kind

namespace Decl

/-! ## Writing -/

mutual

/-- The JSON value of a type. -/
def toJson : Decl → Json
  | .leaf (.primitive name) => .object [("kind", .string "primitive"), ("name", .string name)]
  | .leaf (.named name) => .object [("kind", .string "named"), ("name", .string name)]
  | .array capacity element =>
    .object [("kind", .string "array"), ("capacity", .ofNat capacity.toNat),
      ("element", toJson element)]
  | .struct name attrs members =>
    .object [("kind", .string "struct"), ("name", .string name), ("attrs", .string attrs.text),
      ("children", .array (membersToJson members))]
  | .enum name variants =>
    .object [("kind", .string "enum"), ("name", .string name),
      ("variants", .array (variantsToJson variants))]

/-- The JSON values of the members of a struct. -/
def membersToJson : List (Member Decl) → List Json
  | [] => []
  | ⟨name, body, attrs⟩ :: members =>
    .object [("name", .string name), ("ty", toJson body), ("attrs", .string attrs.text)] ::
      membersToJson members

/-- The JSON values of the variants of an enum. -/
def variantsToJson : List (Variant Decl) → List Json
  | [] => []
  | ⟨name, body⟩ :: variants =>
    .object [("name", .string name), ("ty", toJson body)] :: variantsToJson variants

end

/-- The compact text of a type. -/
def text (d : Decl) : String := (toJson d).text

/-! ## Reading -/

/-- The tags that a JSON value stands for. -/
def attrsOfJson? (j : Json) : Option Attrs := j.string?.bind Attrs.ofText?

/-- The tags in a list that has at most one value; none if the list is empty. -/
def optionalAttrs? : List Json → Option Attrs
  | [] => some .empty
  | [j] => attrsOfJson? j
  | _ => none

/-- The capacity that a JSON value stands for: a natural number of at most 32 bits. -/
def capacityOfJson? (j : Json) : Option UInt32 := (j.natBelow? UInt32.size).map UInt32.ofNat

mutual

/-- The type that a JSON value inside another type stands for. -/
def innerOfJson? : Json → Option Decl
  | .object fields =>
    match (Json.sole? (Json.valuesNamed "kind" fields)).bind Kind.ofJson? with
    | some .primitive => (Json.stringNamed? "name" fields).map primitive
    | some .named => (Json.stringNamed? "name" fields).map named
    | some .array => do
      let capacity ← (Json.sole? (Json.valuesNamed "capacity" fields)).bind capacityOfJson?
      let element ← (Json.sole? (typesNamed "element" fields)).join
      return .array capacity element
    | some .struct => do
      let name ← Json.stringNamed? "name" fields
      let attrs ← optionalAttrs? (Json.valuesNamed "attrs" fields)
      let members ← (Json.sole? (membersNamed "children" fields)).join
      return .struct name attrs members
    | some .enum => do
      let name ← Json.stringNamed? "name" fields
      let variants ← (Json.sole? (variantsNamed "variants" fields)).join
      return .enum name variants
    | none => none
  | .array (kind :: values) =>
    match Kind.ofJson? kind, values with
    | some .primitive, [name] => name.string?.map primitive
    | some .named, [name] => name.string?.map named
    | some .array, [capacity, element] => do
      let capacity ← capacityOfJson? capacity
      let element ← innerOfJson? element
      return .array capacity element
    | some .struct, [name, attrs, members] => do
      let name ← name.string?
      let attrs ← attrsOfJson? attrs
      let members ← membersOfJson? members
      return .struct name attrs members
    | some .enum, [name, variants] => do
      let name ← name.string?
      let variants ← variantsOfJson? variants
      return .enum name variants
    | _, _ => none
  | _ => none

/-- The types at all fields of one name. -/
def typesNamed (key : String) : List (String × Json) → List (Option Decl)
  | [] => []
  | (name, value) :: fields =>
    if name = key then innerOfJson? value :: typesNamed key fields else typesNamed key fields

/-- The members at all fields of one name. -/
def membersNamed (key : String) : List (String × Json) → List (Option (List (Member Decl)))
  | [] => []
  | (name, value) :: fields =>
    if name = key then membersOfJson? value :: membersNamed key fields
    else membersNamed key fields

/-- The variants at all fields of one name. -/
def variantsNamed (key : String) : List (String × Json) → List (Option (List (Variant Decl)))
  | [] => []
  | (name, value) :: fields =>
    if name = key then variantsOfJson? value :: variantsNamed key fields
    else variantsNamed key fields

/-- The members that a JSON value stands for. -/
def membersOfJson? : Json → Option (List (Member Decl))
  | .array items => memberList? items
  | _ => none

/-- The members that JSON values stand for, one each. -/
def memberList? : List Json → Option (List (Member Decl))
  | [] => some []
  | item :: items => do
    let member ← memberOfJson? item
    let members ← memberList? items
    return member :: members

/-- The member that a JSON value stands for. -/
def memberOfJson? : Json → Option (Member Decl)
  | .object fields => do
    let name ← Json.stringNamed? "name" fields
    let body ← (Json.sole? (typesNamed "ty" fields)).join
    let attrs ← optionalAttrs? (Json.valuesNamed "attrs" fields)
    return ⟨name, body, attrs⟩
  | .array (name :: body :: attrs) => do
    let name ← name.string?
    let body ← innerOfJson? body
    let attrs ← optionalAttrs? attrs
    return ⟨name, body, attrs⟩
  | _ => none

/-- The variants that a JSON value stands for. -/
def variantsOfJson? : Json → Option (List (Variant Decl))
  | .array items => variantList? items
  | _ => none

/-- The variants that JSON values stand for, one each. -/
def variantList? : List Json → Option (List (Variant Decl))
  | [] => some []
  | item :: items => do
    let variant ← variantOfJson? item
    let variants ← variantList? items
    return variant :: variants

/-- The variant that a JSON value stands for. -/
def variantOfJson? : Json → Option (Variant Decl)
  | .object fields => do
    let name ← Json.stringNamed? "name" fields
    let body ← (Json.sole? (typesNamed "ty" fields)).join
    return ⟨name, body⟩
  | .array [name, body] => do
    let name ← name.string?
    let body ← innerOfJson? body
    return ⟨name, body⟩
  | _ => none

end

/-- Whether the kind of a type is written as a word. -/
def hasKindWord : Json → Bool
  | .object fields => (Json.stringNamed? "kind" fields).isSome
  | .array (kind :: _) => kind.string?.isSome
  | _ => false

/-- The type that a JSON value stands for, outermost. -/
def ofJson? (j : Json) : Option Decl := if hasKindWord j then innerOfJson? j else none

/-- The type that a text stands for. -/
def ofText? (s : String) : Option Decl := (Json.ofText? s).bind ofJson?

/-! ## Reading what is written -/

theorem capacityOfJson?_ofNat (c : UInt32) : capacityOfJson? (.ofNat c.toNat) = some c := by
  simp [capacityOfJson?, Json.natBelow?, Json.nat?_ofNat, Option.filter, c.toNat_lt]

section RoundTrip

attribute [local simp] toJson innerOfJson? Kind.ofJson? Kind.ofText? Kind.all Kind.text primitive
  named Json.stringNamed? Json.valuesNamed Json.sole? Json.string? typesNamed membersNamed
  variantsNamed attrsOfJson? optionalAttrs? Attrs.ofText?_text capacityOfJson?_ofNat

mutual

/-- The JSON value of a type is read back as this type inside another one. -/
theorem innerOfJson?_toJson : ∀ d : Decl, innerOfJson? (toJson d) = some d
  | .leaf (.primitive _) => by simp
  | .leaf (.named _) => by simp
  | .array _ element => by simp [innerOfJson?_toJson element]
  | .struct _ _ members => by simp [membersOfJson?, memberList?_toJson members]
  | .enum _ variants => by simp [variantsOfJson?, variantList?_toJson variants]

theorem memberList?_toJson : ∀ members : List (Member Decl),
    memberList? (membersToJson members) = some members
  | [] => by simp [membersToJson, memberList?]
  | ⟨_, body, _⟩ :: members => by
    simp [membersToJson, memberList?, memberOfJson?, innerOfJson?_toJson body,
      memberList?_toJson members]

theorem variantList?_toJson : ∀ variants : List (Variant Decl),
    variantList? (variantsToJson variants) = some variants
  | [] => by simp [variantsToJson, variantList?]
  | ⟨_, body⟩ :: variants => by
    simp [variantsToJson, variantList?, variantOfJson?, innerOfJson?_toJson body,
      variantList?_toJson variants]

end

end RoundTrip

/-- A type is written with the word for its kind. -/
theorem hasKindWord_toJson (d : Decl) : hasKindWord (toJson d) = true := by
  rcases d with ⟨_ | _⟩ | _ | _ | _ <;>
    simp [toJson, hasKindWord, Json.stringNamed?, Json.valuesNamed, Json.sole?, Json.string?]

/-- The JSON value of a type is read back as this type. -/
theorem ofJson?_toJson (d : Decl) : ofJson? (toJson d) = some d := by
  simp [ofJson?, hasKindWord_toJson, innerOfJson?_toJson]

end Decl

end WordPacking
