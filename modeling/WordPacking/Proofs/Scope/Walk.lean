/-
# The walk over a declared type

Resolving walks over a declared type and goes on in the definition of every reference that it
meets.  This file has what the other files use of the walk: the induction along it, and one
equation for each form that a type can have.  The equations say all that the walk does in a
step, the guards included, so that nothing else has to open its definition.

* `Scope.walk_induction`: a property holds of a path and a type if it holds by the form of the
  type, where a reference may use it of its definition on the longer path;
* `expand_primitive`, `expand_repeated`, `expand_unknown`, `expand_named`, `expand_array`,
  `expand_struct`, `expand_enum`: the steps.
-/
import Mathlib.Data.List.Forall2
import WordPacking.Proofs.Shape.Part
import WordPacking.Scope

namespace WordPacking

/-! ## Results of a computation that can fail -/

section Except

variable {ε α β : Type}

@[simp] lemma except_map_eq_ok_iff {x : Except ε α} {f : α → β} {b : β} :
    x.map f = .ok b ↔ ∃ a, x = .ok a ∧ f a = b := by
  cases x <;> simp [Except.map]

@[simp] lemma except_map_eq_error_iff {x : Except ε α} {f : α → β} {e : ε} :
    x.map f = .error e ↔ x = .error e := by
  cases x <;> simp [Except.map]

/-- A list succeeds when each of its elements does. -/
lemma mapM_eq_ok_iff {f : α → Except ε β} {l : List α} {rs : List β} :
    l.mapM f = .ok rs ↔ List.Forall₂ (fun a r => f a = .ok r) l rs := by
  induction l generalizing rs with
  | nil => simp [pure, Except.pure, eq_comm]
  | cons a l ih =>
    rw [List.mapM_cons, List.forall₂_cons_left_iff]
    simp only [← ih]
    cases hf : f a with
    | error e => simp [bind, Except.bind]
    | ok r => cases l.mapM f <;> simp [bind, Except.bind, pure, Except.pure, eq_comm]

end Except

namespace Scope

variable {s : Scope}

/-! ## Induction along the walk -/

/-- Induction along the walk.  The names on the path are those being expanded.  The walk comes
to an end because a name that is on the path already is not expanded again. -/
@[elab_as_elim]
theorem walk_induction (s : Scope) {motive : List String → Decl → Prop}
    (primitive : ∀ path name, motive path (.leaf (.primitive name)))
    (repeated : ∀ path name, name ∈ path → motive path (.leaf (.named name)))
    (unknown : ∀ path name, name ∉ path → s.definitions.get? name = none →
      motive path (.leaf (.named name)))
    (named : ∀ path name definition, name ∉ path → s.definitions.get? name = some definition →
      motive (path ++ [name]) definition → motive path (.leaf (.named name)))
    (array : ∀ path capacity element, motive path element → motive path (.array capacity element))
    (struct : ∀ path name attrs members, (∀ m ∈ members, motive path m.body) →
      motive path (.struct name attrs members))
    (enum : ∀ path name variants, (∀ v ∈ variants, motive path v.body) →
      motive path (.enum name variants)) (path : List String) (d : Decl) : motive path d := by
  cases d with
  | leaf ref =>
    cases ref with
    | primitive name => exact primitive path name
    | named name =>
      by_cases hpath : name ∈ path
      · exact repeated path name hpath
      · cases hd : s.definitions.get? name with
        | none => exact unknown path name hpath hd
        | some definition =>
          exact named path name definition hpath hd
            (walk_induction s primitive repeated unknown named array struct enum _ definition)
  | array capacity element =>
    exact array path capacity element
      (walk_induction s primitive repeated unknown named array struct enum path element)
  | struct name attrs members =>
    exact struct path name attrs members fun m _ =>
      walk_induction s primitive repeated unknown named array struct enum path m.body
  | enum name variants =>
    exact enum path name variants fun v _ =>
      walk_induction s primitive repeated unknown named array struct enum path v.body
termination_by (s.unexpanded path, sizeOf d)
decreasing_by
  · exact Prod.Lex.left _ _ (unexpanded_lt hd (by simpa using hpath))
  · exact Prod.Lex.right _ (Shape.sizeOf_element_lt capacity element)
  · exact Prod.Lex.right _ (Shape.sizeOf_member_lt ‹_› name attrs)
  · exact Prod.Lex.right _ (Shape.sizeOf_variant_lt ‹_› name)

/-! ## The steps of the walk -/

lemma expand_primitive (s : Scope) (path : List String) (depth : Nat) (name : String) :
    s.expand path depth (.leaf (.primitive name)) =
      match s.table.widthOf name with
      | .ok width => .ok (.leaf ⟨name, width⟩)
      | .error cause => .error (.width cause) := by
  unfold expand
  rfl

lemma expand_repeated {path : List String} {name : String} (h : name ∈ path) (depth : Nat) :
    s.expand path depth (.leaf (.named name)) =
      .error (.cyclic (path.dropWhile (· != name) ++ [name])) := by
  rw [expand, dif_pos (by simpa using h)]

lemma expand_unknown {path : List String} {name : String} (h : name ∉ path)
    (hd : s.definitions.get? name = none) (depth : Nat) :
    s.expand path depth (.leaf (.named name)) = .error (.unknownType name) := by
  rw [expand, dif_neg (by simpa using h)]
  split
  · rfl
  · next hd' => rw [hd] at hd'; cases hd'

lemma expand_named {path : List String} {name : String} {definition : Decl} (h : name ∉ path)
    (hd : s.definitions.get? name = some definition) (depth : Nat) :
    s.expand path depth (.leaf (.named name)) = s.expand (path ++ [name]) depth definition := by
  rw [expand, dif_neg (by simpa using h)]
  split
  · next hd' => rw [hd] at hd'; cases hd'
  · next hd' => rw [hd, Option.some.injEq] at hd'; rw [hd']

lemma expand_array (s : Scope) (path : List String) (depth : Nat) (capacity : UInt32)
    (element : Decl) :
    s.expand path depth (.array capacity element) =
      if s.maxDepth ≤ depth then .error (.tooDeep s.maxDepth)
      else (s.expand path (depth + 1) element).map (.array capacity) := by
  rw [expand]
  rfl

/-- A member with its type resolved. -/
def expandMember (s : Scope) (path : List String) (depth : Nat) (m : Member Decl) :
    Except ResolveError (Member Tree) :=
  (s.expand path depth m.body).map fun t => ⟨m.name, t, m.attrs⟩

/-- A variant with its payload resolved. -/
def expandVariant (s : Scope) (path : List String) (depth : Nat) (v : Variant Decl) :
    Except ResolveError (Variant Tree) :=
  (s.expand path depth v.body).map fun t => ⟨v.name, t⟩

lemma expandMembers_eq_mapM (s : Scope) (path : List String) (depth : Nat)
    (members : List (Member Decl)) :
    s.expandMembers path depth members = members.mapM (s.expandMember path depth) := by
  induction members with
  | nil => rw [expandMembers, List.mapM_nil]
  | cons m members ih =>
    rw [expandMembers, List.mapM_cons, ← ih, expandMember]
    cases s.expand path depth m.body <;> rfl

lemma expandVariants_eq_mapM (s : Scope) (path : List String) (depth : Nat)
    (variants : List (Variant Decl)) :
    s.expandVariants path depth variants = variants.mapM (s.expandVariant path depth) := by
  induction variants with
  | nil => rw [expandVariants, List.mapM_nil]
  | cons v variants ih =>
    rw [expandVariants, List.mapM_cons, ← ih, expandVariant]
    cases s.expand path depth v.body <;> rfl

lemma expand_struct (s : Scope) (path : List String) (depth : Nat) (name : String)
    (attrs : Attrs) (members : List (Member Decl)) :
    s.expand path depth (.struct name attrs members) =
      if s.maxDepth ≤ depth then .error (.tooDeep s.maxDepth)
      else (members.mapM (s.expandMember path (depth + 1))).map (.struct name attrs) := by
  rw [expand, expandMembers_eq_mapM]
  rfl

lemma expand_enum (s : Scope) (path : List String) (depth : Nat) (name : String)
    (variants : List (Variant Decl)) :
    s.expand path depth (.enum name variants) =
      if maxVariants < variants.length then .error (.tooManyVariants name variants.length)
      else if s.table.wordBits < discriminantBits then
        .error (.wideDiscriminant name s.table.wordBits)
      else if s.maxDepth ≤ depth then .error (.tooDeep s.maxDepth)
      else (variants.mapM (s.expandVariant path (depth + 1))).map (.enum name) := by
  rw [expand, expandVariants_eq_mapM]
  rfl

/-! ## When a step succeeds -/

lemma expand_array_eq_ok_iff {path : List String} {depth : Nat} {capacity : UInt32}
    {element : Decl} {root : Tree} :
    s.expand path depth (.array capacity element) = .ok root ↔
      depth < s.maxDepth ∧
        ∃ t, s.expand path (depth + 1) element = .ok t ∧ .array capacity t = root := by
  rw [expand_array]
  split
  · next h => simp [Nat.not_lt.mpr h]
  · next h => simp [Nat.not_le.mp h]

lemma expand_struct_eq_ok_iff {path : List String} {depth : Nat} {name : String} {attrs : Attrs}
    {members : List (Member Decl)} {root : Tree} :
    s.expand path depth (.struct name attrs members) = .ok root ↔
      depth < s.maxDepth ∧
        ∃ ts, List.Forall₂ (fun m t => s.expandMember path (depth + 1) m = .ok t) members ts ∧
          .struct name attrs ts = root := by
  rw [expand_struct]
  split
  · next h => simp [Nat.not_lt.mpr h]
  · next h => simp [Nat.not_le.mp h, mapM_eq_ok_iff]

lemma expand_enum_eq_ok_iff {path : List String} {depth : Nat} {name : String}
    {variants : List (Variant Decl)} {root : Tree} :
    s.expand path depth (.enum name variants) = .ok root ↔
      (variants.length ≤ maxVariants ∧ discriminantBits ≤ s.table.wordBits) ∧
        depth < s.maxDepth ∧
        ∃ ts, List.Forall₂ (fun v t => s.expandVariant path (depth + 1) v = .ok t) variants ts ∧
          .enum name ts = root := by
  rw [expand_enum]
  split
  · next h => simp [Nat.not_le.mpr h]
  · next hcount =>
    split
    · next h => simp [Nat.not_le.mpr h]
    · next hbits =>
      split
      · next h => simp [Nat.not_lt.mpr h]
      · next h =>
        simp [Nat.not_lt.mp hcount, Nat.not_lt.mp hbits, Nat.not_le.mp h, mapM_eq_ok_iff]

/-! ## The walk over the whole type -/

lemma resolve_of_expand_eq_error {d : Decl} {e : ResolveError}
    (h : s.expand [] 0 d = .error e) : s.resolve d = .error e := by
  rw [resolve, h]
  rfl

lemma resolve_of_expand_eq_ok {d : Decl} {root : Tree} (h : s.expand [] 0 d = .ok root) :
    s.resolve d =
      match root.checkedSize with
      | none => .error (.tooLarge (Tree.name? root))
      | some _ => .ok ⟨root, s.table.wordBits⟩ := by
  rw [resolve, h]
  rfl

end Scope

end WordPacking
