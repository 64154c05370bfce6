/-
# Resolving declared types

A declared type is resolved in a scope: a width table for its primitives, the definitions for
its references, and a limit on its nesting.  Resolving replaces every primitive by its width
and every reference by its definition, and refuses a type in which that cannot be done.

References are expanded in place.  While one is expanded, its name is on the *path*; a name
that is met again on its own path would never come to an end and is reported as a cycle.  The
names on a path are registered and distinct, so the walk ends for every set of definitions: a
reference lowers the number of registered names that are not on the path, and every other step
goes to a smaller type.
-/
import WordPacking.Definitions
import WordPacking.Schema
import WordPacking.WidthTable

namespace WordPacking

/-- Why a declared type cannot be resolved. -/
inductive ResolveError where
  /-- A primitive has no usable width. -/
  | width (cause : WidthError)
  /-- The discriminant of an enum is wider than a storage word. -/
  | wideDiscriminant (enum : String) (wordBits : Nat)
  /-- An enum has more variants than its discriminant can tell apart. -/
  | tooManyVariants (enum : String) (count : Nat)
  /-- A reference has no definition. -/
  | unknownType (name : String)
  /-- A reference leads back to itself, along these names. -/
  | cyclic (path : List String)
  /-- Structs, arrays and enums are nested more deeply than the limit. -/
  | tooDeep (limit : Nat)
  /-- The type, or a part of it, has more slots than can be addressed. -/
  | tooLarge (name : Option String)
deriving DecidableEq, Repr

/-- The number of variants that a discriminant can tell apart. -/
def maxVariants : Nat := 1 <<< discriminantBits

/-- The text of an error. -/
def ResolveError.message : ResolveError → String
  | width cause => cause.message
  | wideDiscriminant enum wordBits =>
    oversizedText (enum ++ "::<discriminant>") discriminantBits wordBits
  | tooManyVariants enum count =>
    "enum `" ++ enum ++ "` has " ++ toString count ++
      " variants, the discriminant addresses at most " ++ toString maxVariants
  | unknownType name => "unknown type `" ++ name ++ "`"
  | cyclic path => "cyclic schema: " ++ " -> ".intercalate path
  | tooDeep limit => "schema nesting exceeds the depth limit of " ++ toString limit
  | tooLarge name =>
    "schema `" ++ name.getD "<array>" ++ "` has more scalar slots than can be addressed"

/-- The nesting that is allowed where nothing else is asked for. -/
def defaultMaxDepth : Nat := 64

/-- What declared types are resolved against. -/
structure Scope where
  /-- The widths of the primitives. -/
  table : WidthTable
  /-- The definitions of the references. -/
  definitions : Definitions := .empty
  /-- The number of structs, arrays and enums that may be nested in one another. -/
  maxDepth : Nat := defaultMaxDepth
deriving DecidableEq

namespace Scope

/-- The number of registered names that are not on a path. -/
def unexpanded (s : Scope) (path : List String) : Nat :=
  (s.definitions.names.filter fun name => !path.contains name).length

/-- A name that is expanded is no longer counted. -/
theorem unexpanded_lt {s : Scope} {path : List String} {name : String} {d : Decl}
    (hd : s.definitions.get? name = some d) (hp : ¬ path.contains name = true) :
    s.unexpanded (path ++ [name]) < s.unexpanded path := by
  have hmem : name ∈ s.definitions.names := by simp [Definitions.mem_names_iff, hd]
  have hfilter : (s.definitions.names.filter fun n => !(path ++ [name]).contains n) =
      (s.definitions.names.filter fun n => !path.contains n).filter fun n => decide (n ≠ name) := by
    rw [List.filter_filter]
    congr 1
    funext n
    simp [Bool.and_comm]
  unfold unexpanded
  rw [hfilter, List.length_filter_lt_length_iff_exists]
  refine ⟨name, ?_, by simp⟩
  rw [List.mem_filter]
  exact ⟨hmem, by simpa using hp⟩

mutual

/-- Resolves a type below `depth` structs, arrays and enums, with the names on `path` being
expanded, the outermost one first. -/
def expand (s : Scope) (path : List String) (depth : Nat) : Decl → Except ResolveError Tree
  | .leaf (.primitive name) =>
    match s.table.widthOf name with
    | .ok width => .ok (.leaf ⟨name, width⟩)
    | .error cause => .error (.width cause)
  | .leaf (.named name) =>
    if _ : path.contains name then
      .error (.cyclic (path.dropWhile (· != name) ++ [name]))
    else
      match _ : s.definitions.get? name with
      | none => .error (.unknownType name)
      | some definition => expand s (path ++ [name]) depth definition
  | .array capacity element =>
    if s.maxDepth ≤ depth then .error (.tooDeep s.maxDepth)
    else do
      let element ← expand s path (depth + 1) element
      return .array capacity element
  | .struct name attrs members =>
    if s.maxDepth ≤ depth then .error (.tooDeep s.maxDepth)
    else do
      let members ← expandMembers s path (depth + 1) members
      return .struct name attrs members
  | .enum name variants =>
    if maxVariants < variants.length then .error (.tooManyVariants name variants.length)
    else if s.table.wordBits < discriminantBits then
      .error (.wideDiscriminant name s.table.wordBits)
    else if s.maxDepth ≤ depth then .error (.tooDeep s.maxDepth)
    else do
      let variants ← expandVariants s path (depth + 1) variants
      return .enum name variants
termination_by d => (s.unexpanded path, sizeOf d)
decreasing_by
  · exact Prod.Lex.left _ _ (unexpanded_lt ‹_› ‹_›)
  · exact Prod.Lex.right _ (by rw [Shape.array.sizeOf_spec]; omega)
  · exact Prod.Lex.right _ (by rw [Shape.struct.sizeOf_spec]; omega)
  · exact Prod.Lex.right _ (by rw [Shape.enum.sizeOf_spec]; omega)

/-- Resolves the members of a struct in declaration order. -/
def expandMembers (s : Scope) (path : List String) (depth : Nat) :
    List (Member Decl) → Except ResolveError (List (Member Tree))
  | [] => return []
  | ⟨name, body, attrs⟩ :: members => do
    let body ← expand s path depth body
    let members ← expandMembers s path depth members
    return ⟨name, body, attrs⟩ :: members
termination_by members => (s.unexpanded path, sizeOf members)
decreasing_by all_goals exact Prod.Lex.right _ (by simp <;> omega)

/-- Resolves the variants of an enum in declaration order. -/
def expandVariants (s : Scope) (path : List String) (depth : Nat) :
    List (Variant Decl) → Except ResolveError (List (Variant Tree))
  | [] => return []
  | ⟨name, body⟩ :: variants => do
    let body ← expand s path depth body
    let variants ← expandVariants s path depth variants
    return ⟨name, body⟩ :: variants
termination_by variants => (s.unexpanded path, sizeOf variants)
decreasing_by all_goals exact Prod.Lex.right _ (by simp <;> omega)

end

/-- Resolves a type, and refuses one with more slots than can be addressed. -/
def resolve (s : Scope) (d : Decl) : Except ResolveError Schema := do
  let root ← s.expand [] 0 d
  match root.checkedSize with
  | none => .error (.tooLarge (Tree.name? root))
  | some _ => return ⟨root, s.table.wordBits⟩

/-- Resolves the type that is registered under a name. -/
def resolveNamed (s : Scope) (name : String) : Except ResolveError Schema :=
  s.resolve (Decl.named name)

end Scope

end WordPacking
