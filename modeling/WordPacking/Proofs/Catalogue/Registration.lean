/-
# Runs of registrations, refused ones included

Types and models are registered in the same way: each under a name of its own, and the first one of
a name stays.  What follows from that for a run of calls is shown once, for any store of this kind
(`KeepsFirst`): what is found under a name after the run is the first thing of the run that has the
name, the store grows by one with each call that is accepted, and the calls that are accepted make
up a run that ends in the same state and in which nothing is refused.

A store can also be changed in place, and then a call that is refused leaves something behind as
well.  It leaves the store as it was before the call (`Performs`).

For types this gives a name to the root of what is resolved: a definition is kept under its own
name, so what a reference is resolved to has the name of the reference.
-/
import WordPacking.Proofs.Bundle.Loading

namespace WordPacking

/-! ## Runs of calls that may be refused -/

section Run

variable {σ α ε : Type} (f : σ → α → Except ε σ)

/-- The state after a call; a call that is refused leaves it as it is. -/
def attempt (s : σ) (a : α) : σ :=
  match f s a with
  | .ok s' => s'
  | .error _ => s

/-- The state after calls one after the other. -/
def attemptAll (s : σ) (as : List α) : σ := as.foldl (attempt f) s

/-- The calls of a run that are accepted, in their order. -/
def accepted (s : σ) : List α → List α
  | [] => []
  | a :: as =>
    match f s a with
    | .ok s' => a :: accepted s' as
    | .error _ => accepted s as

variable {f} {s s' : σ} {a : α} {e : ε}

lemma attempt_of_ok (h : f s a = .ok s') : attempt f s a = s' := by
  rw [attempt, h]

lemma attempt_of_error (h : f s a = .error e) : attempt f s a = s := by
  rw [attempt, h]

lemma attemptAll_cons (a : α) (as : List α) :
    attemptAll f s (a :: as) = attemptAll f (attempt f s a) as := rfl

lemma attemptAll_append (as as' : List α) :
    attemptAll f s (as ++ as') = attemptAll f (attemptAll f s as) as' :=
  List.foldl_append

lemma accepted_cons_of_ok {as : List α} (h : f s a = .ok s') :
    accepted f s (a :: as) = a :: accepted f s' as := by
  rw [accepted, h]

lemma accepted_cons_of_error {as : List α} (h : f s a = .error e) :
    accepted f s (a :: as) = accepted f s as := by
  rw [accepted, h]

/-- A call that is refused makes no difference to the calls after it. -/
lemma attemptAll_of_error {before after : List α} (h : f (attemptAll f s before) a = .error e) :
    attemptAll f s (before ++ a :: after) = attemptAll f s (before ++ after) := by
  rw [attemptAll_append, attemptAll_cons, attempt_of_error h, ← attemptAll_append]

/-- The accepted calls alone lead to the same state. -/
lemma attemptAll_accepted (s : σ) (as : List α) :
    attemptAll f s (accepted f s as) = attemptAll f s as := by
  induction as generalizing s with
  | nil => rfl
  | cons a as ih =>
    cases h : f s a with
    | ok s' =>
      rw [accepted_cons_of_ok h, attemptAll_cons, attemptAll_cons, attempt_of_ok h]
      exact ih s'
    | error e =>
      rw [accepted_cons_of_error h, attemptAll_cons, attempt_of_error h]
      exact ih s

/-! ### Calls that change a state in place -/

/-- A call on a state that is changed in place does what a function of the state says. -/
structure Performs (call : α → EStateM ε σ Unit) (f : σ → α → Except ε σ) : Prop where
  /-- If it is accepted, it leaves the next state behind. -/
  run_of_ok : ∀ s a s', f s a = .ok s' → (call a).run s = .ok () s'
  /-- If it is refused, it leaves the state behind as it was. -/
  run_of_error : ∀ s a e, f s a = .error e → (call a).run s = .error e s

/-- The state that a call leaves behind, accepted or refused. -/
def stateAfter (call : α → EStateM ε σ Unit) (s : σ) (a : α) : σ :=
  match (call a).run s with
  | .ok _ s' => s'
  | .error _ s' => s'

/-- Calls one after the other leave behind what the function makes of their row. -/
lemma Performs.foldl_stateAfter {call : α → EStateM ε σ Unit} (h : Performs call f) (s : σ)
    (as : List α) : as.foldl (stateAfter call) s = attemptAll f s as := by
  have hcall : stateAfter call = attempt f := by
    funext s a
    cases hf : f s a with
    | ok s' => rw [attempt_of_ok hf, stateAfter, h.run_of_ok s a s' hf]
    | error e => rw [attempt_of_error hf, stateAfter, h.run_of_error s a e hf]
  rw [hcall, attemptAll]

end Run

/-! ## Stores that keep the first thing of each name -/

/-- Things are registered under names of their own, and what is registered stays. -/
structure KeepsFirst {σ α ε : Type} (register : σ → α → Except ε σ)
    (find? : σ → String → Option α) (ownName? : α → Option String) (size : σ → Nat) : Prop where
  /-- A thing is registered when it has a name that is free. -/
  exists_register_iff : ∀ s a,
    (∃ s', register s a = .ok s') ↔ ∃ name, ownName? a = some name ∧ find? s name = none
  /-- Then it is found under its name, and what is found under the other names stays. -/
  find?_register : ∀ s a s', register s a = .ok s' →
    ∀ name, find? s' name = if ownName? a = some name then some a else find? s name
  /-- There is one thing more then. -/
  size_register : ∀ s a s', register s a = .ok s' → size s' = size s + 1

namespace KeepsFirst

variable {σ α ε : Type} {register : σ → α → Except ε σ} {find? : σ → String → Option α}
  {ownName? : α → Option String} {size : σ → Nat}

lemma find?_attempt (h : KeepsFirst register find? ownName? size) (s : σ) (a : α)
    (name : String) :
    find? (attempt register s a) name =
      (find? s name).or (if ownName? a = some name then some a else none) := by
  cases hcall : register s a with
  | ok s' =>
    obtain ⟨own, hown, hfree⟩ := (h.exists_register_iff s a).mp ⟨s', hcall⟩
    rw [attempt_of_ok hcall, h.find?_register s a s' hcall]
    by_cases hname : ownName? a = some name
    · obtain rfl : own = name := Option.some.inj (hown.symm.trans hname)
      simp [hname, hfree]
    · simp [hname]
  | error e =>
    rw [attempt_of_error hcall]
    by_cases hname : ownName? a = some name
    · cases hfind : find? s name with
      | none =>
        obtain ⟨s', hs'⟩ := (h.exists_register_iff s a).mpr ⟨name, hname, hfind⟩
        rw [hcall] at hs'
        cases hs'
      | some b => rfl
    · simp [hname]

/-- What is there before a run stays, and of the things of one name in the run the first one. -/
theorem find?_attemptAll (h : KeepsFirst register find? ownName? size) (s : σ) (as : List α)
    (name : String) :
    find? (attemptAll register s as) name =
      (find? s name).or (as.find? fun a => ownName? a = some name) := by
  induction as generalizing s with
  | nil => simp [attemptAll]
  | cons a as ih =>
    rw [attemptAll_cons, ih, h.find?_attempt, Option.or_assoc, List.find?_cons]
    by_cases hname : ownName? a = some name <;> simp [hname]

/-- The store grows with each call that is accepted. -/
theorem size_attemptAll (h : KeepsFirst register find? ownName? size) (s : σ) (as : List α) :
    size (attemptAll register s as) = size s + (accepted register s as).length := by
  induction as generalizing s with
  | nil => rfl
  | cons a as ih =>
    cases hcall : register s a with
    | ok s' =>
      rw [attemptAll_cons, attempt_of_ok hcall, accepted_cons_of_ok hcall, ih,
        h.size_register s a s' hcall, List.length_cons]
      omega
    | error e =>
      rw [attemptAll_cons, attempt_of_error hcall, accepted_cons_of_error hcall, ih]

/-- A name that was free is taken after a run when an accepted call has it. -/
theorem exists_find?_attemptAll_iff (h : KeepsFirst register find? ownName? size) {s : σ}
    {name : String} (hfree : find? s name = none) (as : List α) :
    (∃ a, find? (attemptAll register s as) name = some a) ↔
      ∃ a ∈ accepted register s as, ownName? a = some name := by
  rw [← attemptAll_accepted, h.find?_attemptAll, hfree, Option.none_or,
    ← Option.isSome_iff_exists, List.find?_isSome]
  simp

end KeepsFirst

/-! ## Types and models -/

lemma Definitions.keepsFirst_register :
    KeepsFirst Definitions.register Definitions.get? Decl.ownName? Definitions.size where
  exists_register_iff ds d := by
    simp [register_eq_ok_iff]
  find?_register ds d ds' h name := by
    obtain ⟨own, hown, -, rfl⟩ := register_eq_ok_iff.mp h
    simp [get?_insert, hown]
  size_register ds d ds' h := by
    obtain ⟨own, -, hfree, rfl⟩ := register_eq_ok_iff.mp h
    have hnew : own ∉ ds.byName := by
      rw [Std.ExtTreeMap.mem_iff_isSome_getElem?]
      exact Option.not_isSome_iff_eq_none.mpr hfree
    simp [size, Std.ExtTreeMap.size_insert, hnew]

lemma Catalogue.keepsFirst_register :
    KeepsFirst Catalogue.register Catalogue.find? (fun m => some m.name) Catalogue.size where
  exists_register_iff c m := by
    simp [register_eq_ok_iff]
  find?_register c m c' h name := by
    obtain ⟨-, rfl⟩ := register_eq_ok_iff.mp h
    simp [find?_insert]
  size_register c m c' h := by
    obtain ⟨hfree, rfl⟩ := register_eq_ok_iff.mp h
    have hnew : m.name ∉ c.byName := by
      rw [Std.ExtTreeMap.mem_iff_isSome_getElem?]
      exact Option.not_isSome_iff_eq_none.mpr hfree
    simp [size, Std.ExtTreeMap.size_insert, hnew]

lemma Definitions.performs_registerM : Performs registerM register where
  run_of_ok ds d ds' h := by
    obtain ⟨name, hname, hfree, rfl⟩ := register_eq_ok_iff.mp h
    have hnew : ds.contains name = false := by simp [contains_eq_isSome, hfree]
    simp [registerM, hname, hnew]
  run_of_error ds d e h := by
    rcases register_eq_error_iff.mp h with ⟨hname, rfl⟩ | ⟨name, hname, ⟨definition, hd⟩, rfl⟩
    · simp [registerM, hname]
    · have htaken : ds.contains name = true := by simp [contains_eq_isSome, hd]
      simp [registerM, hname, htaken]

lemma Catalogue.performs_registerM : Performs registerM register where
  run_of_ok c m c' h := by
    obtain ⟨hfree, rfl⟩ := register_eq_ok_iff.mp h
    have hnew : c.contains m.name = false := by simp [contains_eq_isSome, hfree]
    simp [registerM, hnew]
  run_of_error c m e h := by
    obtain ⟨⟨m', hm'⟩, rfl⟩ := register_eq_error_iff.mp h
    have htaken : c.contains m.name = true := by simp [contains_eq_isSome, hm']
    simp [registerM, htaken]

/-- The names of definitions are in ascending order. -/
lemma Definitions.pairwise_names (ds : Definitions) : ds.names.Pairwise (· < ·) :=
  Std.ExtTreeMap.ordered_keys.imp compare_eq_lt_iff.mp

/-- Offering a type is an attempt to register it. -/
lemma Definitions.offerAll_eq_attemptAll (ds : Definitions) (types : List Decl) :
    ds.offerAll types = attemptAll register ds types := by
  have hoffer : offer = attempt register := by
    funext ds d
    unfold offer attempt
    cases ds.register d <;> rfl
  rw [offerAll, hoffer, attemptAll]

/-- What is kept under its own name is a struct or an enum. -/
lemma Decl.eq_of_ownName?_eq_some {d : Decl} {name : String} (h : d.ownName? = some name) :
    (∃ attrs members, d = .struct name attrs members) ∨ ∃ variants, d = .enum name variants := by
  cases d with
  | leaf | array => cases h
  | struct =>
    obtain rfl := Option.some.inj h
    exact .inl ⟨_, _, rfl⟩
  | enum =>
    obtain rfl := Option.some.inj h
    exact .inr ⟨_, rfl⟩

namespace Catalogue

variable {c : Catalogue}

/-- The catalogue after models have been offered one after the other. -/
def offerAll (c : Catalogue) (models : List Model) : Catalogue := attemptAll register c models

/-- The first model of a name stays. -/
lemma find?_offerAll_empty (models : List Model) (name : String) :
    (empty.offerAll models).find? name = models.find? fun m => m.name = name := by
  rw [offerAll, keepsFirst_register.find?_attemptAll, find?_empty, Option.none_or]
  simp

lemma get_eq_ok_iff {name : String} {m : Model} : c.get name = .ok m ↔ c.find? name = some m := by
  unfold get
  cases c.find? name <;> simp

end Catalogue

/-- **In a run of registrations the first type of a name stays, and so does the first model.**
Types, or models, are registered one after the other, and some of them are refused.  One that is
refused makes no difference.  In the end each name has the first type of the run that declares it, a
struct or an enum, and each name of a model the first model of that name, a struct with a key.  The
names are in ascending order, and there are as many entries as calls that have been accepted.  What
a name is resolved to, with any table and under any limit, is a struct or an enum of this name.
Where definitions and models are changed in place, a call that is refused leaves them behind as they
were, and the calls of the run leave behind the same as here. -/
theorem first_registrations_stay (types : List Decl) (models : List Model) :
    let ds := Definitions.empty.offerAll types
    let c := Catalogue.empty.offerAll models
    ((∀ before d after e, types = before ++ d :: after →
        (Definitions.empty.offerAll before).register d = .error e →
          ds = Definitions.empty.offerAll (before ++ after)) ∧
      (∀ name, ds.get? name = types.find? fun d => d.ownName? = some name) ∧
      (∀ name d, ds.get? name = some d →
        (∃ attrs members, d = .struct name attrs members) ∨ ∃ variants, d = .enum name variants) ∧
      ds.names.Pairwise (· < ·) ∧
      ds.size = (accepted Definitions.register .empty types).length ∧
      ∀ s : Scope, s.definitions = ds → ∀ name schema, s.resolveNamed name = .ok schema →
        (∃ attrs members, schema.root = .struct name attrs members) ∨
          ∃ variants, schema.root = .enum name variants) ∧
    (∀ before m after e, models = before ++ m :: after →
      (Catalogue.empty.offerAll before).register m = .error e →
        c = Catalogue.empty.offerAll (before ++ after)) ∧
    (∀ name m, c.get name = .ok m ↔ (models.find? fun m => m.name = name) = some m) ∧
    (∀ name, (∃ m, c.get name = .ok m) ↔
      ∃ m ∈ accepted Catalogue.register .empty models, m.name = name) ∧
    (∀ name m, c.get name = .ok m → m.name = name ∧
      ∃ attrs members, m.schema.root = .struct name attrs members ∧
        ∃ x ∈ members, x.attrs.isKey = true) ∧
    c.names.Pairwise (· < ·) ∧
    c.size = (accepted Catalogue.register .empty models).length ∧
    (Performs Definitions.registerM Definitions.register ∧
      types.foldl (stateAfter Definitions.registerM) .empty = ds) ∧
    Performs Catalogue.registerM Catalogue.register ∧
      models.foldl (stateAfter Catalogue.registerM) .empty = c := by
  intro ds c
  have hkeyed : ds.Keyed := Definitions.keyed_offerAll_empty types
  have hfind : ∀ name, c.find? name = models.find? fun m => m.name = name :=
    Catalogue.find?_offerAll_empty models
  refine ⟨⟨fun before d after e htypes he => ?_, Definitions.get?_offerAll_empty types,
    fun name d hd => Decl.eq_of_ownName?_eq_some (hkeyed name d hd), ds.pairwise_names, ?_,
    fun s hs name schema h => Scope.root_of_resolveNamed (hs ▸ hkeyed) h⟩,
    fun before m after e hmodels he => ?_, fun name m => ?_, fun name => ?_,
    fun name m hm => ?_, c.pairwise_names, ?_,
    ⟨Definitions.performs_registerM, ?_⟩, Catalogue.performs_registerM, ?_⟩
  · subst htypes
    rw [Definitions.offerAll_eq_attemptAll] at he
    simp only [ds, Definitions.offerAll_eq_attemptAll, attemptAll_of_error he]
  · have hsize := Definitions.keepsFirst_register.size_attemptAll .empty types
    rw [← Definitions.offerAll_eq_attemptAll] at hsize
    exact hsize.trans (Nat.zero_add _)
  · subst hmodels
    exact attemptAll_of_error he
  · rw [Catalogue.get_eq_ok_iff, hfind]
  · have htaken := Catalogue.keepsFirst_register.exists_find?_attemptAll_iff
      (Catalogue.find?_empty name) models
    simp only [Option.some.injEq] at htaken
    simp only [Catalogue.get_eq_ok_iff]
    exact htaken
  · rw [Catalogue.get_eq_ok_iff, hfind] at hm
    obtain rfl : m.name = name := by simpa using List.find?_some hm
    exact ⟨rfl, m.attrs, m.members, rfl, List.any_eq_true.mp m.hasKey⟩
  · exact (Catalogue.keepsFirst_register.size_attemptAll _ models).trans (Nat.zero_add _)
  · rw [Definitions.performs_registerM.foldl_stateAfter, ← Definitions.offerAll_eq_attemptAll]
  · exact Catalogue.performs_registerM.foldl_stateAfter _ models

/-- Of four types one is anonymous and one has a name that is taken.  Of the two models of one name
the first one stays. -/
theorem second_moves_refused :
    let moves : Decl := .struct "Moves" .empty [⟨"player", Decl.primitive "u8", .key⟩]
    let step : Decl := .enum "Step" [⟨"Left", Decl.unit⟩, ⟨"Right", Decl.unit⟩]
    let types : List Decl := [.array 2 (Decl.named "Moves"), moves, .enum "Moves" [], step]
    let ds := Definitions.empty.offerAll types
    let first : Model := ⟨"Moves", .empty, [⟨"player", .leaf ⟨"u8", 8⟩, .key⟩], 64, rfl⟩
    let second : Model := ⟨"Moves", .empty, [⟨"player", .leaf ⟨"u8", 8⟩, .key⟩], 251, rfl⟩
    ds.get? "Moves" = some moves ∧ ds.size = 2 ∧
      ds = Definitions.empty.offerAll [.array 2 (Decl.named "Moves"), moves, step] ∧
      (Definitions.registerM (.enum "Moves" [])).run ds = .error (.duplicate "Moves") ds ∧
      (Catalogue.empty.offerAll [first, second]).get "Moves" = .ok first := by
  intro moves step types ds first second
  obtain ⟨⟨hrefused, hget, -, -, hsize, -⟩, -, hmodel, -, -, -, -, ⟨hperforms, -⟩, -⟩ :=
    first_registrations_stay types [first, second]
  refine ⟨(hget "Moves").trans (by decide), hsize.trans ?_, ?_,
    hperforms.run_of_error ds (.enum "Moves" []) (.duplicate "Moves") rfl,
    (hmodel "Moves" first).mpr (by decide)⟩
  · rfl
  · exact hrefused [.array 2 (Decl.named "Moves"), moves] (.enum "Moves" []) [step]
      (.duplicate "Moves") rfl rfl

end WordPacking
