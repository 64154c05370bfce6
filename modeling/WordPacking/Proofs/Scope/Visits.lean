/-
# The places that the walk comes to

The walk over a declared type stops at the first thing that is wrong.  To say which one that is,
this file takes the walk apart into two things that do not depend on each other:

* `Scope.visits` lists all places that there are to come to, each one before those inside it and
  these in declaration order.  It goes through references, as far as no name is met again on its
  own path, and it never stops early.
* `Scope.defect?` says what is wrong at one place, as far as can be seen without going on.

The walk fails with the first defect along the list, and it succeeds if there is none
(`errorOf_expand`).  The places are those that steps from one place to one right inside it lead to
(`mem_visits_iff`), so what holds of all of them is shown along the steps; in particular the names
on the path of a place are a trail to it (`trail_of_steps`).
-/
import WordPacking.Proofs.Definitions.Trail
import WordPacking.Proofs.Scope.Walk

namespace WordPacking

/-! ## Errors of results -/

section Except

variable {ε α β : Type}

/-- The error that a result is, if it is one. -/
def errorOf : Except ε α → Option ε
  | .ok _ => none
  | .error e => some e

lemma errorOf_eq_some_iff {x : Except ε α} {e : ε} : errorOf x = some e ↔ x = .error e := by
  cases x <;> simp [errorOf]

@[simp] lemma errorOf_map (x : Except ε α) (f : α → β) : errorOf (x.map f) = errorOf x := by
  cases x <;> rfl

lemma errorOf_mapM {f : α → Except ε β} {g : α → Option ε} {l : List α}
    (h : ∀ a ∈ l, errorOf (f a) = g a) : errorOf (l.mapM f) = l.findSome? g := by
  induction l with
  | nil => rfl
  | cons a l ih =>
    obtain ⟨ha, hl⟩ := List.forall_mem_cons.mp h
    rw [List.mapM_cons, List.findSome?_cons, ← ha, ← ih hl]
    cases f a with
    | error e => rfl
    | ok b => cases l.mapM f <;> rfl

end Except

/-- The first element that gives a value, where each element is replaced by a list. -/
lemma findSome?_flatMap {α β γ : Type} (f : α → List β) (g : β → Option γ) (l : List α) :
    (l.flatMap f).findSome? g = l.findSome? fun a => (f a).findSome? g := by
  induction l with
  | nil => rfl
  | cons a l ih =>
    rw [List.flatMap_cons, List.findSome?_append, List.findSome?_cons, ih]
    cases (f a).findSome? g <;> rfl

/-! ## Places -/

/-- A place that the walk comes to. -/
structure Visit where
  /-- The names that are being expanded, the outermost one first. -/
  path : List String
  /-- The number of structs, arrays and enums around the place. -/
  depth : Nat
  /-- The type that stands there. -/
  type : Decl

namespace Scope

variable {s : Scope}

/-- The places right inside a place, in declaration order.  A reference leads to the definition of
its name, unless the name is on the path already. -/
def next (s : Scope) : Visit → List Visit
  | ⟨_, _, .leaf (.primitive _)⟩ => []
  | ⟨path, depth, .leaf (.named name)⟩ =>
    if name ∈ path then []
    else ((s.definitions.get? name).map fun d => ⟨path ++ [name], depth, d⟩).toList
  | ⟨path, depth, .array _ element⟩ => [⟨path, depth + 1, element⟩]
  | ⟨path, depth, .struct _ _ members⟩ => members.map fun m => ⟨path, depth + 1, m.body⟩
  | ⟨path, depth, .enum _ variants⟩ => variants.map fun v => ⟨path, depth + 1, v.body⟩

/-- A step of the walk, from a place to one right inside it: into an element, a member or a variant,
which is one level deeper, or from a reference to the definition of its name, which puts the name on
the path. -/
inductive Step (s : Scope) : Visit → Visit → Prop where
  | reference {path : List String} {depth : Nat} {name : String} {definition : Decl} :
    name ∉ path → s.definitions.get? name = some definition →
      Step s ⟨path, depth, .leaf (.named name)⟩ ⟨path ++ [name], depth, definition⟩
  | element {path : List String} {depth : Nat} {capacity : UInt32} {element : Decl} :
    Step s ⟨path, depth, .array capacity element⟩ ⟨path, depth + 1, element⟩
  | member {path : List String} {depth : Nat} {name : String} {attrs : Attrs}
      {members : List (Member Decl)} {m : Member Decl} :
    m ∈ members → Step s ⟨path, depth, .struct name attrs members⟩ ⟨path, depth + 1, m.body⟩
  | variant {path : List String} {depth : Nat} {name : String} {variants : List (Variant Decl)}
      {v : Variant Decl} :
    v ∈ variants → Step s ⟨path, depth, .enum name variants⟩ ⟨path, depth + 1, v.body⟩

lemma mem_next_iff {v w : Visit} : w ∈ s.next v ↔ s.Step v w := by
  constructor
  · intro h
    obtain ⟨path, depth, type⟩ := v
    match type with
    | .leaf (.primitive name) => simp [next] at h
    | .leaf (.named name) =>
      rw [next] at h
      split at h
      · simp at h
      · next hname =>
        obtain ⟨d, hd, rfl⟩ := Option.map_eq_some_iff.mp (Option.mem_toList.mp h)
        exact .reference hname hd
    | .array capacity element =>
      obtain rfl := List.mem_singleton.mp h
      exact .element
    | .struct name attrs members =>
      obtain ⟨m, hm, rfl⟩ := List.mem_map.mp h
      exact .member hm
    | .enum name variants =>
      obtain ⟨v, hv, rfl⟩ := List.mem_map.mp h
      exact .variant hv
  · intro h
    cases h with
    | reference hname hd => simp [next, hname, hd]
    | element => simp [next]
    | member hm => exact List.mem_map.mpr ⟨_, hm, rfl⟩
    | variant hv => exact List.mem_map.mpr ⟨_, hv, rfl⟩

/-- A step leads to a smaller type, or it puts a registered name on the path. -/
lemma Step.lt {v w : Visit} (h : s.Step v w) :
    Prod.Lex (· < ·) (· < ·) (s.unexpanded w.path, sizeOf w.type)
      (s.unexpanded v.path, sizeOf v.type) := by
  cases h with
  | reference hname hd => exact Prod.Lex.left _ _ (unexpanded_lt hd (by simpa using hname))
  | element => exact Prod.Lex.right _ (Shape.sizeOf_element_lt _ _)
  | member hm => exact Prod.Lex.right _ (Shape.sizeOf_member_lt hm _ _)
  | variant hv => exact Prod.Lex.right _ (Shape.sizeOf_variant_lt hv _)

/-- All places that there are to come to from a place on: the place itself, and then those inside
each of the places right inside it, in declaration order. -/
def visits (s : Scope) (v : Visit) : List Visit :=
  v :: (s.next v).attach.flatMap fun w => s.visits w.1
termination_by (s.unexpanded v.path, sizeOf v.type)
decreasing_by exact (mem_next_iff.mp w.2).lt

lemma visits_eq (s : Scope) (v : Visit) : s.visits v = v :: (s.next v).flatMap s.visits := by
  rw [visits]
  congr 1
  simp

lemma wellFounded_step (s : Scope) : WellFounded fun w v => s.Step v w := by
  have hmeasure : WellFounded (InvImage (Prod.Lex (· < ·) (· < ·)) fun v : Visit =>
      (s.unexpanded v.path, sizeOf v.type)) := InvImage.wf _ (Prod.lex Nat.lt_wfRel Nat.lt_wfRel).wf
  exact Subrelation.wf Step.lt hmeasure

/-- The places inside a place are those that any number of steps leads to. -/
theorem mem_visits_iff {v w : Visit} : w ∈ s.visits v ↔ Relation.ReflTransGen s.Step v w := by
  constructor
  · intro h
    induction v using s.wellFounded_step.induction with
    | _ v ih =>
      rw [visits_eq, List.mem_cons, List.mem_flatMap] at h
      rcases h with rfl | ⟨u, hu, hw⟩
      · exact .refl
      · have hstep : s.Step v u := mem_next_iff.mp hu
        exact .head hstep (ih u hstep hw)
  · intro h
    induction h using Relation.ReflTransGen.head_induction_on with
    | refl =>
      rw [visits_eq]
      exact List.mem_cons_self
    | head hstep _ ih =>
      rw [visits_eq]
      exact List.mem_cons_of_mem _ (List.mem_flatMap.mpr ⟨_, mem_next_iff.mpr hstep, ih⟩)

/-- A path that is a trail to the type at a place stays one with each step. -/
lemma Step.trail {root : Decl} {v w : Visit} (h : s.Step v w)
    (hv : s.definitions.Trail root v.path v.type) : s.definitions.Trail root w.path w.type := by
  cases h with
  | reference hname hd => exact hv.expand hname hd
  | element => exact hv.of_part fun n hn => Decl.mentions_array.mpr hn
  | member hm => exact hv.of_part fun n hn => Decl.mentions_struct.mpr ⟨_, hm, hn⟩
  | variant hm => exact hv.of_part fun n hn => Decl.mentions_enum.mpr ⟨_, hm, hn⟩

lemma trail_of_steps {d : Decl} {v : Visit} (h : Relation.ReflTransGen s.Step ⟨[], 0, d⟩ v) :
    s.definitions.Trail d v.path v.type := by
  induction h with
  | refl => exact .start s.definitions d
  | tail _ hstep ih => exact hstep.trail ih

/-! ## Defects -/

/-- What is wrong with a struct, an array or an enum below too many of them. -/
def tooDeep? (s : Scope) (depth : Nat) : Option ResolveError :=
  if s.maxDepth ≤ depth then some (.tooDeep s.maxDepth) else none

/-- What is wrong at a place, as far as can be seen without going on. -/
def defect? (s : Scope) : Visit → Option ResolveError
  | ⟨_, _, .leaf (.primitive name)⟩ => (errorOf (s.table.widthOf name)).map .width
  | ⟨path, _, .leaf (.named name)⟩ =>
    if name ∈ path then some (.cyclic (path.dropWhile (· != name) ++ [name]))
    else if s.definitions.get? name = none then some (.unknownType name)
    else none
  | ⟨_, depth, .array _ _⟩ => s.tooDeep? depth
  | ⟨_, depth, .struct _ _ _⟩ => s.tooDeep? depth
  | ⟨_, depth, .enum name variants⟩ =>
    if 256 < variants.length then some (.tooManyVariants name variants.length)
    else if s.table.wordBits < 8 then some (.wideDiscriminant name s.table.wordBits)
    else s.tooDeep? depth

/-- The error is about something that is wrong at a place.  There can be more than one such
error. -/
inductive Defect (s : Scope) : Visit → ResolveError → Prop where
  | width {path : List String} {depth : Nat} {name : String} {cause : WidthError} :
    s.table.widthOf name = .error cause →
      Defect s ⟨path, depth, .leaf (.primitive name)⟩ (.width cause)
  | cyclic {path : List String} {depth : Nat} {name : String} :
    name ∈ path →
      Defect s ⟨path, depth, .leaf (.named name)⟩
        (.cyclic (path.dropWhile (· != name) ++ [name]))
  | unknownType {path : List String} {depth : Nat} {name : String} :
    s.definitions.get? name = none →
      Defect s ⟨path, depth, .leaf (.named name)⟩ (.unknownType name)
  | tooManyVariants {path : List String} {depth : Nat} {name : String}
      {variants : List (Variant Decl)} :
    256 < variants.length →
      Defect s ⟨path, depth, .enum name variants⟩ (.tooManyVariants name variants.length)
  | wideDiscriminant {path : List String} {depth : Nat} {name : String}
      {variants : List (Variant Decl)} :
    s.table.wordBits < 8 →
      Defect s ⟨path, depth, .enum name variants⟩ (.wideDiscriminant name s.table.wordBits)
  | tooDeep {path : List String} {depth : Nat} {d : Decl} :
    s.maxDepth ≤ depth → 0 < d.nesting → Defect s ⟨path, depth, d⟩ (.tooDeep s.maxDepth)

lemma tooDeep?_eq_some_iff {depth : Nat} {e : ResolveError} :
    s.tooDeep? depth = some e ↔ s.maxDepth ≤ depth ∧ e = .tooDeep s.maxDepth := by
  unfold tooDeep?
  split
  · next h => simp [h, eq_comm]
  · next h => simp [h]

lemma defect_of_defect? {v : Visit} {e : ResolveError} (h : s.defect? v = some e) :
    s.Defect v e := by
  obtain ⟨path, depth, type⟩ := v
  have hdeep : s.tooDeep? depth = some e → 0 < type.nesting → s.Defect ⟨path, depth, type⟩ e := by
    intro htoo hnesting
    obtain ⟨hle, rfl⟩ := tooDeep?_eq_some_iff.mp htoo
    exact .tooDeep hle hnesting
  match type with
  | .leaf (.primitive name) =>
    obtain ⟨cause, hcause, rfl⟩ := Option.map_eq_some_iff.mp h
    exact .width (errorOf_eq_some_iff.mp hcause)
  | .leaf (.named name) =>
    rw [defect?] at h
    split at h
    · next hname =>
      cases h
      exact .cyclic hname
    · split at h
      · next hd =>
        cases h
        exact .unknownType hd
      · cases h
  | .array capacity element => exact hdeep h (Nat.succ_pos _)
  | .struct name attrs members => exact hdeep h (Nat.succ_pos _)
  | .enum name variants =>
    rw [defect?] at h
    split at h
    · next hcount =>
      cases h
      exact .tooManyVariants hcount
    · split at h
      · next hbits =>
        cases h
        exact .wideDiscriminant hbits
      · exact hdeep h (Nat.succ_pos _)

/-- The first defect from a place on: that of the place itself, or the first one inside. -/
lemma findSome?_visits (s : Scope) (v : Visit) :
    (s.visits v).findSome? s.defect? =
      (s.defect? v).or ((s.next v).findSome? fun w => (s.visits w).findSome? s.defect?) := by
  rw [visits_eq, List.findSome?_cons, findSome?_flatMap]
  cases s.defect? v <;> rfl

/-- What is below the limit is looked at only if the limit allows. -/
lemma errorOf_tooDeep {α : Type} (s : Scope) (depth : Nat) (x : Except ResolveError α) :
    errorOf (if s.maxDepth ≤ depth then .error (.tooDeep s.maxDepth) else x) =
      (s.tooDeep? depth).or (errorOf x) := by
  unfold tooDeep?
  split <;> rfl

/-- **The walk fails with the first defect along the places that there are to come to.** -/
theorem errorOf_expand (s : Scope) (path : List String) (depth : Nat) (d : Decl) :
    errorOf (s.expand path depth d) = (s.visits ⟨path, depth, d⟩).findSome? s.defect? := by
  induction path, d using s.walk_induction generalizing depth with
  | primitive path name =>
    rw [expand_primitive, findSome?_visits, defect?, next]
    cases s.table.widthOf name <;> rfl
  | repeated path name hname =>
    rw [expand_repeated hname, findSome?_visits, defect?, if_pos hname]
    rfl
  | unknown path name hname hd =>
    rw [expand_unknown hname hd, findSome?_visits, defect?, if_neg hname, if_pos hd]
    rfl
  | named path name definition hname hd ih =>
    rw [expand_named hname hd, findSome?_visits, defect?, if_neg hname, if_neg (by simp [hd]),
      next, if_neg hname, hd, ih]
    simp
  | array path capacity element ih =>
    rw [expand_array, findSome?_visits, defect?, next, errorOf_tooDeep, errorOf_map, ih]
    simp
  | struct path name attrs members ih =>
    rw [expand_struct, findSome?_visits, defect?, next, errorOf_tooDeep, errorOf_map,
      List.findSome?_map]
    congr 1
    refine errorOf_mapM fun m hm => ?_
    rw [expandMember, errorOf_map, ih m hm]
    rfl
  | enum path name variants ih =>
    rw [expand_enum, findSome?_visits, defect?, next, List.findSome?_map]
    -- the own checks of the enum come first on both sides
    change errorOf (if 256 < variants.length then _ else if s.table.wordBits < 8 then _ else _) = _
    split
    · rfl
    · split
      · rfl
      · rw [errorOf_tooDeep, errorOf_map]
        congr 1
        refine errorOf_mapM fun v hv => ?_
        rw [expandVariant, errorOf_map, ih v hv]
        rfl

lemma exists_defect_of_expand {path : List String} {depth : Nat} {d : Decl} {e : ResolveError}
    (h : s.expand path depth d = .error e) :
    ∃ v, Relation.ReflTransGen s.Step ⟨path, depth, d⟩ v ∧ s.Defect v e := by
  rw [← errorOf_eq_some_iff, errorOf_expand] at h
  obtain ⟨v, hv, hdefect⟩ := List.exists_of_findSome?_eq_some h
  exact ⟨v, mem_visits_iff.mp hv, defect_of_defect? hdefect⟩

/-- What resolving reports is what the walk reports, unless the type is too large. -/
lemma expand_of_resolve_eq_error {d : Decl} {e : ResolveError} (h : s.resolve d = .error e)
    (hsize : ∀ name, e ≠ .tooLarge name) : s.expand [] 0 d = .error e := by
  cases hroot : s.expand [] 0 d with
  | error e' =>
    rw [resolve_of_expand_eq_error hroot, Except.error.injEq] at h
    rw [h]
  | ok root =>
    rw [resolve_of_expand_eq_ok hroot] at h
    split at h
    · cases h
      exact absurd rfl (hsize _)
    · cases h

/-- What resolving reports is a defect of a place that the walk comes to, unless the type is too
large. -/
lemma exists_defect_of_resolve {d : Decl} {e : ResolveError} (h : s.resolve d = .error e)
    (hsize : ∀ name, e ≠ .tooLarge name) :
    ∃ v, Relation.ReflTransGen s.Step ⟨[], 0, d⟩ v ∧ s.Defect v e :=
  exists_defect_of_expand (expand_of_resolve_eq_error h hsize)

end Scope

end WordPacking
