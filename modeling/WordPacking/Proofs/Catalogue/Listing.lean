/-
# What a catalogue lists

A catalogue shows its names and its models in ascending order of the names.  It is determined by
what is found under each name, and by a scope and the names that are listed: there is one catalogue
at most that has exactly these names, each with the model that the scope makes of it
(`Lists.unique`).
-/
import Mathlib.Tactic.Common
import WordPacking.Catalogue

namespace WordPacking

/-- Texts are compared as they are ordered. -/
lemma compare_eq_lt_iff {a b : String} : compare a b = .lt ↔ a < b := by
  show compareOfLessAndEq a b = .lt ↔ a < b
  unfold compareOfLessAndEq
  split
  · next h => simp [h]
  · next h => split <;> simp [h]

/-- The values of a map are those of its entries, in the same order. -/
lemma values_eq_map_toList {β : Type} (m : Std.ExtTreeMap String β) :
    m.values = m.toList.map (·.2) := by
  rcases m with ⟨⟨q⟩⟩
  induction q using Quotient.ind with
  | _ tree =>
    show tree.inner.values =
      (Std.DTreeMap.Internal.Impl.Const.toList tree.inner).map (·.2)
    rw [Std.DTreeMap.Internal.Impl.values_eq_map_snd,
      Std.DTreeMap.Internal.Impl.Const.toList_eq_toListModel_map, List.map_map]
    rfl

/-- A model is determined by its schema. -/
lemma Model.eq_of_schema_eq {m m' : Model} (h : m.schema = m'.schema) : m = m' := by
  have hm := ofSchema_eq_ok_iff.mpr (rfl : m.schema = m.schema)
  rw [h, ofSchema_eq_ok_iff.mpr rfl, Except.ok.injEq] at hm
  exact hm.symm

namespace Catalogue

variable {c c' : Catalogue} {s : Scope} {names names' : List String}

lemma ext_find? (h : ∀ name, c.find? name = c'.find? name) : c = c' := by
  rcases c with ⟨m⟩
  rcases c' with ⟨m'⟩
  rw [mk.injEq]
  exact Std.ExtTreeMap.ext_getElem? h

lemma find?_insert (c : Catalogue) (own name : String) (m : Model) :
    find? ⟨c.byName.insert own m⟩ name = if own = name then some m else c.find? name := by
  simp [find?, Std.ExtTreeMap.getElem?_insert]

/-- A model is added when its name is free. -/
lemma register_eq_ok_iff {m : Model} :
    c.register m = .ok c' ↔ c.find? m.name = none ∧ c' = ⟨c.byName.insert m.name m⟩ := by
  unfold register
  rw [contains_eq_isSome]
  cases c.find? m.name <;> simp [eq_comm]

/-- A model is refused when its name is taken. -/
lemma register_eq_error_iff {m : Model} {e : ModelError} :
    c.register m = .error e ↔ (∃ m', c.find? m.name = some m') ∧ e = .duplicateModel m.name := by
  unfold register
  rw [contains_eq_isSome]
  cases c.find? m.name <;> simp [eq_comm]

lemma mem_names_iff {name : String} : name ∈ c.names ↔ ∃ m, c.find? name = some m := by
  rw [names, Std.ExtTreeMap.mem_keys, Std.ExtTreeMap.mem_iff_isSome_getElem?,
    Option.isSome_iff_exists]
  rfl

/-- The names are in ascending order. -/
lemma pairwise_names (c : Catalogue) : c.names.Pairwise (· < ·) :=
  Std.ExtTreeMap.ordered_keys.imp compare_eq_lt_iff.mp

/-- If each model is kept under its own name, the models are in the order of the names. -/
lemma map_name_models (h : ∀ name m, c.find? name = some m → m.name = name) :
    c.models.map (·.name) = c.names := by
  rw [models, names, values_eq_map_toList, ← Std.ExtTreeMap.map_fst_toList_eq_keys, List.map_map]
  refine List.map_congr_left fun entry hentry => ?_
  rcases entry with ⟨name, m⟩
  exact h name m (Std.ExtTreeMap.mem_toList_iff_getElem?_eq_some.mp hentry)

/-! ## The catalogue of listed names -/

/-- The catalogue has exactly the listed names, each with the model that the scope makes of it. -/
structure Lists (c : Catalogue) (s : Scope) (names : List String) : Prop where
  /-- There are no other names. -/
  mem_names : ∀ name, name ∈ c.names ↔ name ∈ names
  /-- The names are in ascending order. -/
  sorted : c.names.Pairwise (· < ·)
  /-- The models are in the order of the names, and each has its own name. -/
  models : c.models.map (·.name) = c.names
  /-- Each model has the schema that its name is resolved to. -/
  schema : ∀ name m, c.find? name = some m → m.name = name ∧ s.resolveNamed name = .ok m.schema

/-- Which names are listed and what they are resolved to determines the catalogue. -/
lemma Lists.unique (h : c.Lists s names) (h' : c'.Lists s names')
    (hnames : ∀ name, name ∈ names ↔ name ∈ names') : c = c' := by
  have hmem : ∀ name, (∃ m, c.find? name = some m) ↔ ∃ m, c'.find? name = some m := by
    intro name
    rw [← mem_names_iff, ← mem_names_iff, h.mem_names, h'.mem_names, hnames]
  refine ext_find? fun name => ?_
  cases hfind : c.find? name with
  | none =>
    cases hfind' : c'.find? name with
    | none => rfl
    | some m' =>
      obtain ⟨m, hm⟩ := (hmem name).mpr ⟨m', hfind'⟩
      rw [hfind] at hm
      cases hm
  | some m =>
    obtain ⟨m', hfind'⟩ := (hmem name).mp ⟨m, hfind⟩
    have hschema : m.schema = m'.schema :=
      Except.ok.inj ((h.schema name m hfind).2.symm.trans (h'.schema name m' hfind').2)
    rw [hfind', Option.some.injEq]
    exact Model.eq_of_schema_eq hschema

end Catalogue

end WordPacking
