/-
# Models

A model is a struct with at least one key member.  A record of a model is handed over as two
lists of scalars, one for the key members and one for the others, each in declaration order.
The layout keeps all members in declaration order, so packing a record first interleaves the
two lists, and unpacking splits the scalars again.  Both walk over the members, each of which
takes as many scalars as it has slots.
-/
import WordPacking.Codec
import WordPacking.Scope

namespace WordPacking

/-- The part of a record that a count is about. -/
inductive Part where
  /-- The scalars of the key members. -/
  | keys
  /-- The scalars of the other members. -/
  | values
  /-- All scalars together. -/
  | record
deriving DecidableEq, Repr

/-- The words for a part. -/
def Part.text : Part → String
  | keys => "key scalars"
  | values => "value scalars"
  | record => "record scalars"

/-- Why a model cannot be defined, found or used. -/
inductive ModelError where
  /-- Its type cannot be resolved. -/
  | resolve (cause : ResolveError)
  /-- Its scalars cannot be packed, or its words not unpacked. -/
  | codec (cause : CodecError)
  /-- No member of the struct is part of a key. -/
  | missingKey (name : String)
  /-- The type is no struct. -/
  | notAStruct (kind : Kind)
  /-- There are not as many scalars as the model has slots. -/
  | scalarCount (part : Part) (expected found : Nat)
  /-- A model of this name is there already. -/
  | duplicateModel (name : String)
  /-- There is no model of this name. -/
  | unknownModel (name : String)
deriving DecidableEq, Repr

/-- The text of an error. -/
def ModelError.message : ModelError → String
  | resolve cause => cause.message
  | codec cause => cause.message
  | missingKey name => "model `" ++ name ++ "` has no key members"
  | notAStruct kind => "a model must be a struct, found " ++ kind.text
  | scalarCount part expected found =>
    "expected " ++ toString expected ++ " " ++ part.text ++ ", found " ++ toString found
  | duplicateModel name => "model `" ++ name ++ "` is already registered"
  | unknownModel name => "unknown model `" ++ name ++ "`"

/-- A resolved struct with at least one key member. -/
structure Model where
  /-- The name of the struct. -/
  name : String
  /-- The tags of the struct. -/
  attrs : Attrs
  /-- The members in declaration order. -/
  members : List (Member Tree)
  /-- The size of one storage word, in bits. -/
  wordBits : Nat
  /-- Some member is part of the key. -/
  hasKey : members.any (·.attrs.isKey) = true
deriving DecidableEq

namespace Model

/-- The model of a schema, if the schema is a struct with a key. -/
def ofSchema (s : Schema) : Except ModelError Model :=
  match s.root with
  | .struct name attrs members =>
    if h : members.any (·.attrs.isKey) = true then .ok ⟨name, attrs, members, s.wordBits, h⟩
    else .error (.missingKey name)
  | root => .error (.notAStruct (Tree.kind root))

/-- The model of a declared type. -/
def ofDecl (scope : Scope) (d : Decl) : Except ModelError Model :=
  match scope.resolve d with
  | .error cause => .error (.resolve cause)
  | .ok schema => ofSchema schema

/-- The schema of a model. -/
def schema (m : Model) : Schema := ⟨.struct m.name m.attrs m.members, m.wordBits⟩

/-- The slots of an unpacked record. -/
def layout (m : Model) : Layout := m.schema.layout

/-- The number of words of a packed record. -/
def packedSize (m : Model) : Nat := m.layout.packedSize

/-- The number of scalars of an unpacked record. -/
def unpackedSize (m : Model) : Nat := m.schema.size

/-- The number of scalars of the key members. -/
def keySize (m : Model) : Nat := m.schema.keySize

/-- The number of scalars of the other members. -/
def valueSize (m : Model) : Nat := m.schema.valueSize

/-- The places of the slots in words. -/
def plan (m : Model) : Plan := m.layout.plan

/-- Checks that there is a scalar for each slot: first all together, then those of the key,
then the others. -/
def checkCounts (m : Model) (keys values : Nat) : Except ModelError Unit :=
  if keys + values ≠ m.unpackedSize then
    .error (.scalarCount .record m.unpackedSize (keys + values))
  else if keys ≠ m.keySize then .error (.scalarCount .keys m.keySize keys)
  else if values ≠ m.valueSize then .error (.scalarCount .values m.valueSize values)
  else .ok ()

/-- The scalars of all members in declaration order: each member takes its own from the keys or
from the values. -/
def interleave : List (Member Tree) → List Nat → List Nat → List Nat
  | [], _, _ => []
  | member :: members, keys, values =>
    let n := member.body.size
    if member.attrs.isKey then keys.take n ++ interleave members (keys.drop n) values
    else values.take n ++ interleave members keys (values.drop n)

/-- The scalars of the key members and those of the other members, each in declaration
order. -/
def split : List (Member Tree) → List Nat → List Nat × List Nat
  | [], _ => ([], [])
  | member :: members, scalars =>
    let n := member.body.size
    let rest := split members (scalars.drop n)
    if member.attrs.isKey then (scalars.take n ++ rest.1, rest.2)
    else (rest.1, scalars.take n ++ rest.2)

/-- Packs the keys and values of a record into words. -/
def pack (m : Model) (keys values : List Nat) : Except ModelError (List Nat) :=
  match m.checkCounts keys.length values.length with
  | .error mismatch => .error mismatch
  | .ok () => (m.layout.pack (interleave m.members keys values)).mapError .codec

/-- Recovers the keys and values of a record from words. -/
def unpack (m : Model) (words : List Nat) : Except ModelError (List Nat × List Nat) :=
  match m.layout.unpack words with
  | .error cause => .error (.codec cause)
  | .ok scalars => .ok (split m.members scalars)

/-- A schema is a model exactly when it is a struct with a key member, and then it is the
schema of its model. -/
theorem ofSchema_eq_ok_iff {s : Schema} {m : Model} :
    ofSchema s = .ok m ↔ s = m.schema := by
  rcases s with ⟨root, wordBits⟩
  rcases m with ⟨name, attrs, members, bits, hasKey⟩
  unfold ofSchema schema
  constructor
  · intro h
    split at h
    · next hroot =>
      split at h
      · simp only [Except.ok.injEq, mk.injEq] at h
        simp only at hroot
        simp [hroot, h]
      · cases h
    · cases h
  · intro h
    cases h
    simp [hasKey]

/-- A declared type is a model exactly when it resolves to the schema of the model. -/
theorem ofDecl_eq_ok_iff {s : Scope} {d : Decl} {m : Model} :
    ofDecl s d = .ok m ↔ s.resolve d = .ok m.schema := by
  unfold ofDecl
  cases s.resolve d with
  | error cause => simp
  | ok schema => simp [ofSchema_eq_ok_iff]

end Model

/-- A record: a model with the scalars of its key members and of its other members. -/
structure Record where
  /-- The model of the record. -/
  model : Model
  /-- The scalars of the key members. -/
  keys : List Nat
  /-- The scalars of the other members. -/
  values : List Nat
deriving DecidableEq

namespace Record

/-- Checks that there is a scalar for each slot of the model. -/
def checkCounts (r : Record) : Except ModelError Unit :=
  r.model.checkCounts r.keys.length r.values.length

/-- The keys of the record, and the words of all of it packed. -/
def pack (r : Record) : Except ModelError (List Nat × List Nat) :=
  (r.model.pack r.keys r.values).map fun words => (r.keys, words)

end Record

end WordPacking
