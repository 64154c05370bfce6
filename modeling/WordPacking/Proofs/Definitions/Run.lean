/-
# Runs of registrations

Types are offered for registration one after the other.  A type that is refused changes nothing,
so any run can be followed to its end, and what is found under a name in the end has a simple
description: what was there before the run, and else the first type of the run that declares the
name (`get?_offerAll`).

Registering all of a list stops at the first type that is refused.  It succeeds exactly when the
run refuses no type (`registerAll_eq_ok_iff`), and otherwise reports the first type that the run
refuses (`registerAll_eq_error_iff`).
-/
import Mathlib.Data.List.Nodup
import Mathlib.Tactic.Common
import WordPacking.Definitions

namespace WordPacking

section Except

variable {ε α β : Type}

/-- The first step that fails is the failure of the whole run. -/
lemma foldlM_eq_error_iff {f : β → α → Except ε β} {b : β} {l : List α} {e : ε} :
    l.foldlM f b = .error e ↔ ∃ before a after b', l = before ++ a :: after ∧
      before.foldlM f b = .ok b' ∧ f b' a = .error e := by
  induction l generalizing b with
  | nil => simp [pure, Except.pure]
  | cons a l ih =>
    rw [List.foldlM_cons]
    constructor
    · intro h
      cases hf : f b a with
      | error e' =>
        rw [hf] at h
        cases h
        exact ⟨[], a, l, b, rfl, rfl, hf⟩
      | ok next =>
        rw [hf] at h
        obtain ⟨before, x, after, b', rfl, hbefore, hx⟩ := ih.mp h
        refine ⟨a :: before, x, after, b', rfl, ?_, hx⟩
        rw [List.foldlM_cons, hf]
        exact hbefore
    · rintro ⟨before, x, after, b', hl, hbefore, hx⟩
      cases before with
      | nil =>
        obtain ⟨rfl, rfl⟩ := List.cons.inj hl
        cases hbefore
        rw [hx]
        rfl
      | cons y before =>
        obtain ⟨rfl, rfl⟩ := List.cons.inj hl
        rw [List.foldlM_cons] at hbefore
        cases hf : f b a with
        | error e' =>
          rw [hf] at hbefore
          cases hbefore
        | ok next =>
          rw [hf] at hbefore
          exact ih.mpr ⟨before, x, after, b', rfl, hbefore, hx⟩

end Except

namespace Definitions

variable {ds ds' : Definitions} {d : Decl} {types : List Decl}

/-! ## One type -/

lemma get?_insert (ds : Definitions) (own name : String) (d : Decl) :
    get? ⟨ds.byName.insert own d⟩ name = if own = name then some d else ds.get? name := by
  simp [get?, Std.ExtTreeMap.getElem?_insert]

/-- A type is registered when it declares a name that is free. -/
lemma register_eq_ok_iff : ds.register d = .ok ds' ↔
    ∃ name, d.ownName? = some name ∧ ds.get? name = none ∧ ds' = ⟨ds.byName.insert name d⟩ := by
  unfold register
  cases d.ownName? with
  | none => simp
  | some name =>
    cases hget : ds.get? name with
    | none => simp [contains_eq_isSome, hget, eq_comm]
    | some definition => simp [contains_eq_isSome, hget]

/-- A type is refused when it declares no name, or one that is taken. -/
lemma register_eq_error_iff {e : RegisterError} : ds.register d = .error e ↔
    d.ownName? = none ∧ e = .anonymous d.kind ∨
    ∃ name, d.ownName? = some name ∧ (∃ definition, ds.get? name = some definition) ∧
      e = .duplicate name := by
  unfold register
  cases d.ownName? with
  | none => simp [eq_comm]
  | some name =>
    cases hget : ds.get? name with
    | none => simp [contains_eq_isSome, hget]
    | some definition => simp [contains_eq_isSome, hget, eq_comm]

/-- The definitions after a type has been offered: it is registered if that is possible. -/
def offer (ds : Definitions) (d : Decl) : Definitions :=
  match ds.register d with
  | .ok ds' => ds'
  | .error _ => ds

/-- A name that is taken keeps its definition, and a free one gets the type that declares it. -/
lemma get?_offer (ds : Definitions) (d : Decl) (name : String) :
    (ds.offer d).get? name =
      (ds.get? name).or (if d.ownName? = some name then some d else none) := by
  unfold offer
  cases h : ds.register d with
  | ok ds' =>
    obtain ⟨own, hown, hfree, rfl⟩ := register_eq_ok_iff.mp h
    by_cases heq : own = name
    · subst heq
      simp [get?_insert, hown, hfree]
    · simp [get?_insert, hown, heq]
  | error e =>
    rcases register_eq_error_iff.mp h with ⟨hown, -⟩ | ⟨own, hown, ⟨definition, hd⟩, -⟩
    · simp [hown]
    · by_cases heq : own = name
      · subst heq
        simp [hd]
      · simp [hown, heq]

/-! ## A whole run -/

/-- The definitions after types have been offered one after the other. -/
def offerAll (ds : Definitions) (types : List Decl) : Definitions := types.foldl offer ds

lemma offerAll_append (ds : Definitions) (types types' : List Decl) :
    ds.offerAll (types ++ types') = (ds.offerAll types).offerAll types' :=
  List.foldl_append

/-- The first definition of a name stands, and what is there before the run is first. -/
theorem get?_offerAll (ds : Definitions) (types : List Decl) (name : String) :
    (ds.offerAll types).get? name =
      (ds.get? name).or (types.find? fun d => d.ownName? = some name) := by
  induction types generalizing ds with
  | nil => simp [offerAll]
  | cons d types ih =>
    have hstep : ds.offerAll (d :: types) = (ds.offer d).offerAll types := rfl
    rw [hstep, ih, get?_offer, Option.or_assoc, List.find?_cons]
    by_cases hown : d.ownName? = some name <;> simp [hown]

/-- All types declare names, and no two the same one. -/
def Distinct (types : List Decl) : Prop :=
  (∀ d ∈ types, ∃ name, d.ownName? = some name) ∧ (types.map Decl.ownName?).Nodup

lemma distinct_nil : Distinct [] := ⟨by simp, List.nodup_nil⟩

lemma distinct_cons_iff : Distinct (d :: types) ↔
    (∃ name, d.ownName? = some name ∧ ∀ u ∈ types, u.ownName? ≠ some name) ∧
      Distinct types := by
  unfold Distinct
  rw [List.forall_mem_cons, List.map_cons, List.nodup_cons, List.mem_map]
  constructor
  · rintro ⟨⟨⟨name, hname⟩, htypes⟩, hnew, hnodup⟩
    refine ⟨⟨name, hname, fun u hu hsame => hnew ⟨u, hu, ?_⟩⟩, htypes, hnodup⟩
    rw [hsame, hname]
  · rintro ⟨⟨name, hname, hnew⟩, htypes, hnodup⟩
    refine ⟨⟨⟨name, hname⟩, htypes⟩, ?_, hnodup⟩
    rintro ⟨u, hu, hsame⟩
    exact hnew u hu (hsame.trans hname)

/-- A list of types can be registered as a whole when they declare distinct names that are all
free. -/
theorem registerAll_eq_ok_iff : ds.registerAll types = .ok ds' ↔
    Distinct types ∧ (∀ d ∈ types, ∀ name, d.ownName? = some name → ds.get? name = none) ∧
      ds' = ds.offerAll types := by
  induction types generalizing ds with
  | nil => simp [registerAll, offerAll, distinct_nil, pure, Except.pure, eq_comm]
  | cons d types ih =>
    have hoffer : ds.offerAll (d :: types) = (ds.offer d).offerAll types := rfl
    rw [registerAll, List.foldlM_cons, distinct_cons_iff, hoffer]
    cases h : ds.register d with
    | error e =>
      constructor
      · intro hrest
        cases hrest
      · rintro ⟨⟨⟨name, hname, -⟩, -⟩, hfree, -⟩
        have hnone := hfree d List.mem_cons_self name hname
        rw [register_eq_ok_iff.mpr ⟨name, hname, hnone, rfl⟩] at h
        cases h
    | ok next =>
      obtain ⟨name, hname, hfree, -⟩ := register_eq_ok_iff.mp h
      have hnext : ds.offer d = next := by rw [offer, h]
      -- a name is free after this type if it was free before and is not the name of the type
      have hget : ∀ other, next.get? other = none ↔ ds.get? other = none ∧ other ≠ name := by
        intro other
        rw [← hnext, get?_offer, Option.or_eq_none_iff]
        simp [hname, eq_comm]
      have hrun : next.registerAll types = .ok ds' ↔ Distinct types ∧
          (∀ u ∈ types, ∀ other, u.ownName? = some other → next.get? other = none) ∧
          ds' = next.offerAll types := ih
      rw [hnext]
      refine hrun.trans ?_
      simp only [hget, List.forall_mem_cons]
      constructor
      · rintro ⟨hdistinct, hrest, rfl⟩
        refine ⟨⟨⟨name, hname, fun u hu hsame => (hrest u hu name hsame).2 rfl⟩, hdistinct⟩,
          ⟨fun other hother => ?_, fun u hu other hother => (hrest u hu other hother).1⟩, rfl⟩
        rw [hname, Option.some.injEq] at hother
        exact hother ▸ hfree
      · rintro ⟨⟨⟨name', hname', hnew⟩, hdistinct⟩, ⟨-, hrest⟩, rfl⟩
        rw [hname, Option.some.injEq] at hname'
        subst hname'
        exact ⟨hdistinct, fun u hu other hother =>
          ⟨hrest u hu other hother, fun heq => hnew u hu (heq ▸ hother)⟩, rfl⟩

/-- A run that is refused stops at its first type that cannot be registered after those
before it. -/
theorem registerAll_eq_error_iff {e : RegisterError} : ds.registerAll types = .error e ↔
    ∃ before d after, types = before ++ d :: after ∧
      ds.registerAll before = .ok (ds.offerAll before) ∧
      (ds.offerAll before).register d = .error e := by
  unfold registerAll
  rw [foldlM_eq_error_iff]
  constructor
  · rintro ⟨before, d, after, ds', rfl, hbefore, hd⟩
    obtain ⟨-, -, rfl⟩ := registerAll_eq_ok_iff.mp hbefore
    exact ⟨before, d, after, rfl, hbefore, hd⟩
  · rintro ⟨before, d, after, rfl, hbefore, hd⟩
    exact ⟨before, d, after, _, rfl, hbefore, hd⟩

/-! ## Runs from the start -/

/-- Each definition is kept under the name that it declares. -/
def Keyed (ds : Definitions) : Prop :=
  ∀ name d, ds.get? name = some d → d.ownName? = some name

/-- Why a type is refused after those before it. -/
def Refused (before : List Decl) (d : Decl) (e : RegisterError) : Prop :=
  d.ownName? = none ∧ e = .anonymous d.kind ∨
    ∃ name, d.ownName? = some name ∧ (∃ u ∈ before, u.ownName? = some name) ∧ e = .duplicate name

/-- Of types with distinct names, the first one that declares a name is the only one. -/
lemma find?_ownName_iff (h : Distinct types) {name : String} {d : Decl} :
    types.find? (fun u => u.ownName? = some name) = some d ↔
      d ∈ types ∧ d.ownName? = some name := by
  constructor
  · intro hfind
    exact ⟨List.mem_of_find?_eq_some hfind, by simpa using List.find?_some hfind⟩
  · rintro ⟨hd, hname⟩
    cases hfind : types.find? fun u => u.ownName? = some name with
    | none =>
      rw [List.find?_eq_none] at hfind
      exact absurd (decide_eq_true hname) (hfind d hd)
    | some u =>
      have hu := List.mem_of_find?_eq_some hfind
      have huname : u.ownName? = some name := by simpa using List.find?_some hfind
      rw [Option.some.injEq]
      exact List.inj_on_of_nodup_map h.2 hu hd (huname.trans hname.symm)

lemma get?_offerAll_empty (types : List Decl) (name : String) :
    (empty.offerAll types).get? name = types.find? fun d => d.ownName? = some name := by
  rw [get?_offerAll, get?_empty, Option.none_or]

/-- What is registered is kept under the name that it declares. -/
lemma keyed_offerAll_empty (types : List Decl) : (empty.offerAll types).Keyed := by
  intro name d h
  rw [get?_offerAll_empty] at h
  simpa using List.find?_some h

lemma registerAll_empty_eq_ok_iff : empty.registerAll types = .ok ds ↔
    Distinct types ∧ ds = empty.offerAll types := by
  rw [registerAll_eq_ok_iff]
  simp

lemma register_offerAll_empty_eq_error_iff {before : List Decl} {d : Decl} {e : RegisterError} :
    (empty.offerAll before).register d = .error e ↔ Refused before d e := by
  have htaken : ∀ name, (∃ definition, (empty.offerAll before).get? name = some definition) ↔
      ∃ u ∈ before, u.ownName? = some name := by
    intro name
    rw [get?_offerAll_empty, ← Option.isSome_iff_exists, List.find?_isSome]
    simp
  simp only [register_eq_error_iff, Refused, htaken]

lemma registerAll_empty_eq_error_iff {e : RegisterError} : empty.registerAll types = .error e ↔
    ∃ before d after, types = before ++ d :: after ∧ Distinct before ∧ Refused before d e := by
  rw [registerAll_eq_error_iff]
  simp only [registerAll_empty_eq_ok_iff, register_offerAll_empty_eq_error_iff, and_true]

/-- Types are distinct in any order. -/
lemma Distinct.perm {types' : List Decl} (h : Distinct types) (hperm : types.Perm types') :
    Distinct types' :=
  ⟨fun d hd => h.1 d (hperm.mem_iff.mpr hd), (hperm.map _).nodup_iff.mp h.2⟩

/-- Types of distinct names come to the same definitions in any order. -/
lemma offerAll_empty_perm {types' : List Decl} (h : Distinct types) (hperm : types.Perm types') :
    empty.offerAll types = empty.offerAll types' := by
  have hget : ∀ name,
      (empty.offerAll types).get? name = (empty.offerAll types').get? name := by
    intro name
    refine Option.ext fun d => ?_
    rw [get?_offerAll_empty, get?_offerAll_empty, find?_ownName_iff h,
      find?_ownName_iff (h.perm hperm), hperm.mem_iff]
  generalize empty.offerAll types = ds, empty.offerAll types' = ds' at hget
  rcases ds with ⟨m⟩
  rcases ds' with ⟨m'⟩
  rw [mk.injEq]
  exact Std.ExtTreeMap.ext_getElem? hget

end Definitions

end WordPacking
