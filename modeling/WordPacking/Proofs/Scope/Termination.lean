/-
# The walk comes to an end

A reference leads from a name to a type that may be larger than the one in which the name stands,
and definitions may refer to one another in circles.  The walk ends all the same, as a name that is
on the path is not expanded again: the names on a path are registered and distinct, so there are no
more of them than definitions.

In numbers, a place has a *reserve* of what may still come: the nesting of the type there, and that
of all definitions whose names are not on its path.  A step into a struct, an array or an enum takes
one from the nesting, and a reference takes the definition of its name out of the sum.  So depth and
reserve together never grow (`depth_add_reserve_le`), which bounds the depth.  With one more for
each definition the reserve bounds the calls of the walk that stand inside one another.

To say that the walk ends, it is written once more as a plain recursion that is cut off
(`Scope.walkWithin`).
-/
import WordPacking.Proofs.Scope.Visits

namespace WordPacking

namespace Definitions

variable {ds : Definitions} {path : List String} {name : String} {d : Decl}

/-- The sum of a figure over all definitions. -/
def totalOf (ds : Definitions) (f : Decl → Nat) : Nat := total (ds.toList.map fun e => f e.2)

/-- The sum of a figure over the definitions whose names are not on a path. -/
def totalOff (ds : Definitions) (f : Decl → Nat) (path : List String) : Nat :=
  total ((ds.toList.filter fun e => e.1 ∉ path).map fun e => f e.2)

lemma totalOff_nil (ds : Definitions) (f : Decl → Nat) : ds.totalOff f [] = ds.totalOf f := by
  simp [totalOff, totalOf]

/-- Of entries with distinct names one is taken out by its name. -/
lemma total_filter_not_mem {f : Decl → Nat} {entries : List (String × Decl)}
    (hdistinct : entries.Pairwise fun e e' => e.1 ≠ e'.1) (hname : name ∉ path)
    (hd : (name, d) ∈ entries) :
    total ((entries.filter fun e => e.1 ∉ path).map fun e => f e.2) =
      f d + total ((entries.filter fun e => e.1 ∉ path ++ [name]).map fun e => f e.2) := by
  induction entries with
  | nil => cases hd
  | cons e entries ih =>
    obtain ⟨hfresh, hdistinct⟩ := List.pairwise_cons.mp hdistinct
    rcases List.mem_cons.mp hd with rfl | hd
    · have hsame : entries.filter (fun e => e.1 ∉ path ++ [name]) =
          entries.filter fun e => e.1 ∉ path := by
        refine List.filter_congr fun e he => ?_
        have hne : e.1 ≠ name := (hfresh e he).symm
        simp [hne]
      rw [List.filter_cons_of_pos (by simpa using hname), List.filter_cons_of_neg (by simp), hsame,
        List.map_cons, total_cons]
    · have hne : e.1 ≠ name := hfresh _ hd
      by_cases he : e.1 ∈ path
      · rw [List.filter_cons_of_neg (by simpa using he),
          List.filter_cons_of_neg (by simp [he]), ih hdistinct hd]
      · rw [List.filter_cons_of_pos (by simpa using he),
          List.filter_cons_of_pos (by simp [he, hne]), List.map_cons, List.map_cons, total_cons,
          total_cons, ih hdistinct hd, Nat.add_left_comm]

/-- A name that is put on the path takes its definition out of the sum. -/
lemma totalOff_eq_add (f : Decl → Nat) (hname : name ∉ path) (hd : ds.get? name = some d) :
    ds.totalOff f path = f d + ds.totalOff f (path ++ [name]) := by
  have hkeys : ds.toList.map (·.1) = ds.names := Std.ExtTreeMap.map_fst_toList_eq_keys
  have hdistinct := ds.nodup_names
  rw [← hkeys, List.Nodup, List.pairwise_map] at hdistinct
  exact total_filter_not_mem hdistinct hname (Std.ExtTreeMap.mem_toList_iff_getElem?_eq_some.mpr hd)

end Definitions

namespace Scope

variable {s : Scope}

/-! ## How deep the walk gets -/

/-- The structs, arrays and enums that may still come inside a place, one inside the other. -/
def reserve (s : Scope) (v : Visit) : Nat :=
  v.type.nesting + s.definitions.totalOff Shape.nesting v.path

/-- What a step adds to the depth it takes from the reserve. -/
lemma Step.depth_add_reserve_le {v w : Visit} (h : s.Step v w) :
    w.depth + s.reserve w ≤ v.depth + s.reserve v := by
  cases h with
  | reference hname hd =>
    simp only [reserve, Shape.nesting, Definitions.totalOff_eq_add Shape.nesting hname hd]
    omega
  | element =>
    simp only [reserve, Shape.nesting]
    omega
  | @member path depth name attrs members m hm =>
    have hlt := Shape.nesting_member_lt hm name attrs
    simp only [reserve]
    omega
  | @variant path depth name variants v hv =>
    have hlt := Shape.nesting_variant_lt hv name
    simp only [reserve]
    omega

lemma depth_add_reserve_le {v w : Visit} (h : Relation.ReflTransGen s.Step v w) :
    w.depth + s.reserve w ≤ v.depth + s.reserve v := by
  induction h with
  | refl => exact Nat.le_refl _
  | tail _ hstep ih => exact Nat.le_trans hstep.depth_add_reserve_le ih

/-- The structs, arrays and enums of the type and of all definitions bound the depth. -/
lemma depth_add_nesting_le {d : Decl} {v : Visit}
    (h : Relation.ReflTransGen s.Step ⟨[], 0, d⟩ v) :
    v.depth + v.type.nesting ≤ d.nesting + s.definitions.totalOf Shape.nesting := by
  have hle := depth_add_reserve_le h
  simp only [reserve, Definitions.totalOff_nil] at hle
  omega

/-! ## The walk as a plain recursion -/

/-- A result in a computation that may also be cut off. -/
def ended {ε α : Type} (x : Except ε α) : ExceptT ε Option α := ExceptT.mk (some x)

/-- The walk, cut off where more than `calls` of its calls stand inside one another.  Nothing else
keeps it from going on for ever. -/
def walkWithin (s : Scope) : Nat → List String → Nat → Decl → ExceptT ResolveError Option Tree
  | 0, _, _, _ => ExceptT.mk none
  | _ + 1, _, _, .leaf (.primitive name) =>
    ended (((s.table.widthOf name).map fun width => .leaf ⟨name, width⟩).mapError .width)
  | calls + 1, path, depth, .leaf (.named name) =>
    if name ∈ path then throw (.cyclic (path.dropWhile (· != name) ++ [name]))
    else
      match s.definitions.get? name with
      | none => throw (.unknownType name)
      | some definition => walkWithin s calls (path ++ [name]) depth definition
  | calls + 1, path, depth, .array capacity element =>
    if s.maxDepth ≤ depth then throw (.tooDeep s.maxDepth)
    else do
      let element ← walkWithin s calls path (depth + 1) element
      return .array capacity element
  | calls + 1, path, depth, .struct name attrs members =>
    if s.maxDepth ≤ depth then throw (.tooDeep s.maxDepth)
    else do
      let members ← members.mapM fun m => do
        let body ← walkWithin s calls path (depth + 1) m.body
        return ⟨m.name, body, m.attrs⟩
      return .struct name attrs members
  | calls + 1, path, depth, .enum name variants =>
    if maxVariants < variants.length then throw (.tooManyVariants name variants.length)
    else if s.table.wordBits < discriminantBits then
      throw (.wideDiscriminant name s.table.wordBits)
    else if s.maxDepth ≤ depth then throw (.tooDeep s.maxDepth)
    else do
      let variants ← variants.mapM fun v => do
        let body ← walkWithin s calls path (depth + 1) v.body
        return ⟨v.name, body⟩
      return .enum name variants

section Ended

variable {ε α β : Type}

lemma mapM_eq_ended {f : α → ExceptT ε Option β} {g : α → Except ε β} {l : List α}
    (h : ∀ a ∈ l, f a = ended (g a)) : l.mapM f = ended (l.mapM g) := by
  induction l with
  | nil => rfl
  | cons a l ih =>
    obtain ⟨ha, hl⟩ := List.forall_mem_cons.mp h
    rw [List.mapM_cons, List.mapM_cons, ha, ih hl]
    cases g a with
    | error e => rfl
    | ok b => cases l.mapM g <;> rfl

lemma ended_bind_return (x : Except ε α) (f : α → β) :
    (ended x >>= fun a => (return f a : ExceptT ε Option β)) = ended (x.map f) := by
  cases x <;> rfl

end Ended

/-- The walk is not cut off if there are more calls than the nesting that is left, with one more for
each definition that may still be expanded. -/
theorem walkWithin_eq_ended {calls : Nat} {path : List String} {depth : Nat} {d : Decl}
    (hcalls : d.nesting + s.definitions.totalOff (fun d => d.nesting + 1) path < calls) :
    s.walkWithin calls path depth d = ended (s.expand path depth d) := by
  induction calls generalizing path depth d with
  | zero => exact absurd hcalls (Nat.not_lt_zero _)
  | succ calls ih =>
    match d with
    | .leaf (.primitive name) =>
      rw [walkWithin, expand_primitive]
      cases s.table.widthOf name <;> rfl
    | .leaf (.named name) =>
      rw [walkWithin]
      split
      · next hname =>
        rw [expand_repeated hname]
        rfl
      · next hname =>
        cases hd : s.definitions.get? name with
        | none =>
          rw [expand_unknown hname hd]
          rfl
        | some definition =>
          -- the definition leaves the sum, and its one more pays for this call
          rw [Definitions.totalOff_eq_add _ hname hd] at hcalls
          rw [expand_named hname hd]
          exact ih (by omega)
    | .array capacity element =>
      rw [Shape.nesting] at hcalls
      rw [walkWithin, expand_array, ih (by omega), ended_bind_return, apply_ite ended]
      rfl
    | .struct name attrs members =>
      have hmember : ∀ m ∈ members, (do
          let body ← s.walkWithin calls path (depth + 1) m.body
          return ⟨m.name, body, m.attrs⟩) = ended (s.expandMember path (depth + 1) m) := by
        intro m hm
        have hlt := Shape.nesting_member_lt hm name attrs
        rw [ih (by omega), ended_bind_return]
        rfl
      rw [walkWithin, expand_struct, mapM_eq_ended hmember, ended_bind_return, apply_ite ended]
      rfl
    | .enum name variants =>
      have hvariant : ∀ v ∈ variants, (do
          let body ← s.walkWithin calls path (depth + 1) v.body
          return ⟨v.name, body⟩) = ended (s.expandVariant path (depth + 1) v) := by
        intro v hv
        have hlt := Shape.nesting_variant_lt hv name
        rw [ih (by omega), ended_bind_return]
        rfl
      rw [walkWithin, expand_enum, mapM_eq_ended hvariant, ended_bind_return, apply_ite ended,
        apply_ite ended, apply_ite ended]
      rfl

/-- **The walk ends, whatever the definitions refer to, and a high enough limit is never met.**
There is no infinite chain of steps.  Written as a plain recursion the walk has a result as soon as
a bounded number of calls can stand inside one another.  The names on a path are distinct and
registered, and the levels around and inside a place are no more than those that the type and all
definitions have.  So a limit that allows this number of levels refuses nothing. -/
theorem walk_ends (s : Scope) (d : Decl) :
    (WellFounded fun w v => s.Step v w) ∧
    (∀ calls, d.nesting + s.definitions.totalOf (fun d => d.nesting + 1) < calls →
      (s.walkWithin calls [] 0 d).run = some (s.expand [] 0 d)) ∧
    (∀ v, Relation.ReflTransGen s.Step ⟨[], 0, d⟩ v →
      v.path.Nodup ∧ (∀ n ∈ v.path, ∃ definition, s.definitions.get? n = some definition) ∧
      v.depth + v.type.nesting ≤ d.nesting + s.definitions.totalOf Shape.nesting) ∧
    (d.nesting + s.definitions.totalOf Shape.nesting ≤ s.maxDepth →
      ∀ limit, s.resolve d ≠ .error (.tooDeep limit)) := by
  refine ⟨s.wellFounded_step, ?_, ?_, ?_⟩
  · intro calls hcalls
    rw [← Definitions.totalOff_nil] at hcalls
    rw [walkWithin_eq_ended hcalls]
    rfl
  · intro v hv
    have htrail := trail_of_steps hv
    exact ⟨htrail.nodup, htrail.registered, depth_add_nesting_le hv⟩
  · intro hlimit limit h
    obtain ⟨v, hv, hdefect⟩ := exists_defect_of_resolve h (by simp)
    have hle := depth_add_nesting_le hv
    cases hdefect with
    | tooDeep hdeep hnesting =>
      simp only at hle
      omega

/-- A definition that refers to itself has two levels.  A limit of two is enough to find the cycle
in it, and of the walk at most four calls stand inside one another; a limit of one is not enough. -/
theorem walk_ends_on_cycle :
    let node : Decl := .struct "Node" .empty [⟨"next", .array 0 (Decl.named "Node"), .empty⟩]
    let s : Scope := ⟨.standard, ⟨(∅ : Std.ExtTreeMap String Decl).insert "Node" node⟩, 2⟩
    let d : Decl := Decl.named "Node"
    d.nesting + s.definitions.totalOf (fun d => d.nesting + 1) < 4 ∧
      (s.walkWithin 4 [] 0 d).run = some (.error (.cyclic ["Node", "Node"])) ∧
      d.nesting + s.definitions.totalOf Shape.nesting ≤ 2 ∧
      (∀ limit, s.resolve d ≠ .error (.tooDeep limit)) ∧
      { s with maxDepth := 1 }.resolve d = .error (.tooDeep 1) := by
  intro node s d
  obtain ⟨-, hwithin, -, hlimit⟩ := walk_ends s d
  have hcalls : d.nesting + s.definitions.totalOf (fun d => d.nesting + 1) < 4 := by decide
  have hlevels : d.nesting + s.definitions.totalOf Shape.nesting ≤ 2 := by decide
  have hget : s.definitions.get? "Node" = some node := by simp [s, Definitions.get?]
  have hexpand : s.expand [] 0 d = .error (.cyclic ["Node", "Node"]) := by
    simp only [d, Decl.named]
    rw [expand_named List.not_mem_nil hget]
    simp only [node, Decl.named, expand, expandMembers]
    rfl
  have hshort : { s with maxDepth := 1 }.resolve d = .error (.tooDeep 1) := by
    refine resolve_of_expand_eq_error ?_
    simp only [d, Decl.named]
    rw [expand_named (s := { s with maxDepth := 1 }) List.not_mem_nil hget]
    simp only [node, Decl.named, expand, expandMembers]
    rfl
  exact ⟨hcalls, by rw [hwithin 4 hcalls, hexpand], hlevels, hlimit hlevels, hshort⟩

end Scope

end WordPacking
