/-
# Loading documents

What a document comes to depends on its lists only through what is in them.  The types of a
document are registered when they are structs and enums of distinct names, and then each of them
is found under its name.  The models are made when the listed names are distinct and each is
resolved to a struct with a key, and then the catalogue has one model for each listed name.

That a model has the name that was asked for rests on an invariant of the definitions: each of
them is kept under the name that it declares (`Definitions.Keyed`).
-/
import WordPacking.Proofs.Bundle.WiderWords
import WordPacking.Proofs.Catalogue.Listing
import WordPacking.Proofs.Definitions.Run
import WordPacking.Report

namespace WordPacking

/-! ## Models of a bundle -/

/-- The schema is a struct, and some member of it is part of the key. -/
def Schema.HasKey (schema : Schema) : Prop :=
  ∃ name attrs members, schema.root = .struct name attrs members ∧
    ∃ m ∈ members, m.attrs.isKey = true

/-- The schemas of models are the structs with a key. -/
lemma Schema.hasKey_iff {schema : Schema} : schema.HasKey ↔ ∃ m : Model, schema = m.schema := by
  constructor
  · rintro ⟨name, attrs, members, hroot, hkey⟩
    refine ⟨⟨name, attrs, members, schema.wordBits, List.any_eq_true.mpr hkey⟩, ?_⟩
    rw [Model.schema, ← hroot]
  · rintro ⟨m, rfl⟩
    exact ⟨m.name, m.attrs, m.members, rfl, List.any_eq_true.mp m.hasKey⟩

/-- A definition has the name that it is registered under, so what a reference is resolved to has
the name of the reference. -/
lemma Scope.root_of_resolveNamed {s : Scope} (hkeyed : s.definitions.Keyed) {name : String}
    {schema : Schema} (h : s.resolveNamed name = .ok schema) :
    (∃ attrs members, schema.root = .struct name attrs members) ∨
      ∃ variants, schema.root = .enum name variants := by
  obtain ⟨t, ht, -, rfl⟩ := resolve_eq_ok_iff.mp h
  cases ht with
  | named hd ht =>
    have hown := hkeyed _ _ hd
    cases ht with
    | primitive | named | array => cases hown
    | struct =>
      obtain rfl := Option.some.inj hown
      exact .inl ⟨_, _, rfl⟩
    | enum =>
      obtain rfl := Option.some.inj hown
      exact .inr ⟨_, rfl⟩

namespace Bundle

variable {b : Bundle} {c c' : Catalogue} {names : List String}

lemma model_eq_ok_iff {name : String} {m : Model} :
    b.model name = .ok m ↔ b.scope.resolveNamed name = .ok m.schema :=
  Model.ofDecl_eq_ok_iff

lemma exists_model_iff {name : String} :
    (∃ m, b.model name = .ok m) ↔
      ∃ schema, b.scope.resolveNamed name = .ok schema ∧ schema.HasKey := by
  simp only [model_eq_ok_iff, Schema.hasKey_iff]
  constructor
  · rintro ⟨m, hm⟩
    exact ⟨m.schema, hm, m, rfl⟩
  · rintro ⟨_, hschema, m, rfl⟩
    exact ⟨m, hschema⟩

/-- A model has the name of the reference that it is made of. -/
lemma name_of_model (hkeyed : b.types.Keyed) {name : String} {m : Model}
    (h : b.model name = .ok m) : m.name = name := by
  rcases Scope.root_of_resolveNamed hkeyed (model_eq_ok_iff.mp h) with
    ⟨attrs, members, hroot⟩ | ⟨variants, hroot⟩
  · rw [Model.schema, Shape.struct.injEq] at hroot
    exact hroot.1
  · rw [Model.schema] at hroot
    cases hroot

/-- One more model is made if its name is free, and is then found under this name. -/
lemma addModel_eq_ok_iff (hkeyed : b.types.Keyed) {name : String} :
    b.addModel c name = .ok c' ↔ ∃ m, b.model name = .ok m ∧ c.find? name = none ∧
      c' = ⟨c.byName.insert name m⟩ := by
  unfold addModel
  cases hm : b.model name with
  | error e => simp
  | ok m => simp [Catalogue.register_eq_ok_iff, name_of_model hkeyed hm]

/-- Models that have been made one after the other have distinct names that were free before, and
are found under these names. -/
lemma of_foldlM_addModel (hkeyed : b.types.Keyed) (h : names.foldlM b.addModel c = .ok c') :
    names.Nodup ∧ (∀ name ∈ names, c.find? name = none ∧ ∃ m, b.model name = .ok m) ∧
      ∀ name m, c'.find? name = some m ↔
        c.find? name = some m ∨ name ∈ names ∧ b.model name = .ok m := by
  induction names generalizing c with
  | nil =>
    cases h
    simp
  | cons first names ih =>
    rw [List.foldlM_cons] at h
    cases hadd : b.addModel c first with
    | error e =>
      rw [hadd] at h
      cases h
    | ok next =>
      rw [hadd] at h
      obtain ⟨m₀, hm₀, hfree, hinsert⟩ := (addModel_eq_ok_iff hkeyed).mp hadd
      have hnext : ∀ name, next.find? name = if first = name then some m₀ else c.find? name := by
        intro name
        rw [hinsert, Catalogue.find?_insert]
      obtain ⟨hnodup, hnames, hfind⟩ := ih h
      -- the first name is not free any more when the others are added
      have hne : ∀ name ∈ names, first ≠ name := by
        intro name hname heq
        have hnone := (hnames name hname).1
        rw [hnext, if_pos heq] at hnone
        cases hnone
      refine ⟨?_, ?_, fun name m => ?_⟩
      · exact List.nodup_cons.mpr ⟨fun hfirst => hne first hfirst rfl, hnodup⟩
      · refine List.forall_mem_cons.mpr ⟨⟨hfree, m₀, hm₀⟩, fun name hname => ?_⟩
        obtain ⟨hnone, hmodel⟩ := hnames name hname
        rw [hnext, if_neg (hne name hname)] at hnone
        exact ⟨hnone, hmodel⟩
      · rw [hfind, hnext, List.mem_cons]
        by_cases heq : first = name
        · subst heq
          simp [hfree, hm₀]
        · simp [heq, Ne.symm heq]

lemma find?_eq_some_iff_of_models (hkeyed : b.types.Keyed) (h : b.models = .ok c) {name : String}
    {m : Model} : c.find? name = some m ↔ name ∈ b.modelNames ∧ b.model name = .ok m := by
  obtain ⟨-, -, hfind⟩ := of_foldlM_addModel hkeyed h
  simp [hfind]

/-- The models are made exactly when their names are distinct and each of them can be made. -/
lemma exists_models_iff (hkeyed : b.types.Keyed) :
    (∃ c, b.models = .ok c) ↔
      b.modelNames.Nodup ∧ ∀ name ∈ b.modelNames, ∃ m, b.model name = .ok m := by
  constructor
  · rintro ⟨c, h⟩
    obtain ⟨hnodup, hnames, -⟩ := of_foldlM_addModel hkeyed h
    exact ⟨hnodup, fun name hname => (hnames name hname).2⟩
  · rintro ⟨hnodup, hall⟩
    cases h : b.models with
    | ok c => exact ⟨c, rfl⟩
    | error e =>
      -- the run would stop at a name that is not among those before it
      obtain ⟨before, name, after, c, hsplit, hbefore, hadd⟩ := foldlM_eq_error_iff.mp h
      obtain ⟨-, -, hfind⟩ := of_foldlM_addModel hkeyed hbefore
      rw [hsplit] at hnodup hall
      obtain ⟨m, hm⟩ := hall name (by simp)
      have hnew : name ∉ before := fun hname =>
        (List.nodup_append.mp hnodup).2.2 name hname name List.mem_cons_self rfl
      have hfree : c.find? name = none := by
        rw [Option.eq_none_iff_forall_ne_some]
        simp [hfind, hnew]
      rw [(addModel_eq_ok_iff hkeyed).mpr ⟨m, hm, hfree, rfl⟩] at hadd
      cases hadd

/-- One more model fails because it cannot be made, or because its name is taken. -/
lemma addModel_eq_error_iff (hkeyed : b.types.Keyed) {name : String} {e : ModelError} :
    b.addModel c name = .error e ↔ b.model name = .error e ∨
      (∃ m, b.model name = .ok m) ∧ (∃ m, c.find? name = some m) ∧ e = .duplicateModel name := by
  unfold addModel
  cases hm : b.model name with
  | error e' => simp
  | ok m => simp [Catalogue.register_eq_error_iff, name_of_model hkeyed hm]

/-- The models cannot be made because of the first name in the list whose model cannot be made, or
which has been there before. -/
lemma models_eq_error_iff (hkeyed : b.types.Keyed) {e : ModelError} :
    b.models = .error e ↔ ∃ before name after, b.modelNames = before ++ name :: after ∧
      before.Nodup ∧ (∀ other ∈ before, ∃ m, b.model other = .ok m) ∧
      (b.model name = .error e ∨ name ∈ before ∧ e = .duplicateModel name) := by
  -- what a name is a model of does not depend on the list
  have hmade : ∀ before : List String, (∃ c, before.foldlM b.addModel .empty = .ok c) ↔
      before.Nodup ∧ ∀ other ∈ before, ∃ m, b.model other = .ok m := fun before =>
    exists_models_iff (b := { b with modelNames := before }) hkeyed
  have htaken : ∀ (before : List String) (c : Catalogue),
      before.foldlM b.addModel .empty = .ok c → ∀ name,
        (∃ m, c.find? name = some m) ↔ name ∈ before ∧ ∃ m, b.model name = .ok m := by
    intro before c hc name
    obtain ⟨-, -, hfind⟩ := of_foldlM_addModel hkeyed hc
    simp [hfind]
  rw [models, foldlM_eq_error_iff]
  constructor
  · rintro ⟨before, name, after, c, hsplit, hc, hadd⟩
    obtain ⟨hnodup, hbefore⟩ := (hmade before).mp ⟨c, hc⟩
    refine ⟨before, name, after, hsplit, hnodup, hbefore, ?_⟩
    rcases (addModel_eq_error_iff hkeyed).mp hadd with he | ⟨-, hfind, rfl⟩
    · exact .inl he
    · exact .inr ⟨((htaken before c hc name).mp hfind).1, rfl⟩
  · rintro ⟨before, name, after, hsplit, hnodup, hbefore, hname⟩
    obtain ⟨c, hc⟩ := (hmade before).mpr ⟨hnodup, hbefore⟩
    refine ⟨before, name, after, c, hsplit, hc, (addModel_eq_error_iff hkeyed).mpr ?_⟩
    refine hname.imp id fun ⟨hmem, he⟩ => ?_
    exact ⟨hbefore name hmem, (htaken before c hc name).mpr ⟨hmem, hbefore name hmem⟩, he⟩

/-- The catalogue has just the listed names, each with its model. -/
lemma lists_of_models (hkeyed : b.types.Keyed) (h : b.models = .ok c) :
    c.Lists b.scope b.modelNames := by
  have hmodel : ∀ name m, c.find? name = some m → b.model name = .ok m := fun name m hm =>
    ((find?_eq_some_iff_of_models hkeyed h).mp hm).2
  have hname : ∀ name m, c.find? name = some m → m.name = name := fun name m hm =>
    name_of_model hkeyed (hmodel name m hm)
  refine ⟨fun name => ?_, c.pairwise_names, Catalogue.map_name_models hname, fun name m hm => ?_⟩
  · rw [Catalogue.mem_names_iff]
    constructor
    · rintro ⟨m, hm⟩
      exact ((find?_eq_some_iff_of_models hkeyed h).mp hm).1
    · intro hlisted
      obtain ⟨m, hm⟩ := ((exists_models_iff hkeyed).mp ⟨c, h⟩).2 name hlisted
      exact ⟨m, (find?_eq_some_iff_of_models hkeyed h).mpr ⟨hlisted, hm⟩⟩
  · exact ⟨hname name m hm, model_eq_ok_iff.mp (hmodel name m hm)⟩

/-! ## The bundle of a document -/

variable {text : String} {d : Document}

lemma ofText_eq_ok_iff (h : Document.ofText? text = some d) :
    ofText text = .ok b ↔ Definitions.Distinct d.types ∧
      b = ⟨d.wordBits.getD fieldElementBits, d.primitives, .offerAll .empty d.types, d.models,
        defaultMaxDepth⟩ := by
  rw [ofText, h]
  simp only [ofDocument]
  cases hall : Definitions.empty.registerAll d.types with
  | error cause =>
    have hnot : ¬ Definitions.Distinct d.types := by
      intro hdistinct
      rw [Definitions.registerAll_empty_eq_ok_iff.mpr ⟨hdistinct, rfl⟩] at hall
      cases hall
    simp [Except.mapError, hnot]
  | ok types =>
    obtain ⟨hdistinct, rfl⟩ := Definitions.registerAll_empty_eq_ok_iff.mp hall
    simp [Except.mapError, hdistinct, eq_comm]

/-- A loaded bundle keeps each definition under the name that it declares. -/
lemma keyed_of_ofText (h : ofText text = .ok b) : b.types.Keyed := by
  cases hd : Document.ofText? text with
  | none =>
    rw [ofText, hd] at h
    cases h
  | some d =>
    obtain ⟨-, rfl⟩ := (ofText_eq_ok_iff hd).mp h
    exact Definitions.keyed_offerAll_empty d.types

lemma ofText_eq_error_iff (h : Document.ofText? text = some d) {e : LoadError} :
    ofText text = .error e ↔ ∃ before t after cause, d.types = before ++ t :: after ∧
      Definitions.Distinct before ∧ Definitions.Refused before t cause ∧ e = .register cause := by
  rw [ofText, h]
  simp only [ofDocument]
  cases hall : Definitions.empty.registerAll d.types with
  | error cause =>
    obtain ⟨before, t, after, hsplit, hbefore, ht⟩ :=
      Definitions.registerAll_empty_eq_error_iff.mp hall
    simp only [Except.mapError, Except.error.injEq]
    constructor
    · rintro rfl
      exact ⟨before, t, after, cause, hsplit, hbefore, ht, rfl⟩
    · rintro ⟨before', t', after', cause', hsplit', hbefore', ht', rfl⟩
      have hall' := Definitions.registerAll_empty_eq_error_iff.mpr
        ⟨before', t', after', hsplit', hbefore', ht'⟩
      rw [hall, Except.error.injEq] at hall'
      rw [hall']
  | ok types =>
    simp only [Except.mapError, reduceCtorEq, false_iff]
    rintro ⟨before, t, after, cause, hsplit, hbefore, ht, -⟩
    rw [Definitions.registerAll_empty_eq_error_iff.mpr ⟨before, t, after, hsplit, hbefore, ht⟩]
      at hall
    cases hall

/-- What is listed as a model and can be made is registered. -/
lemma exists_definition_of_resolveNamed {s : Scope} {name : String} {schema : Schema}
    (h : s.resolveNamed name = .ok schema) :
    ∃ definition, s.definitions.get? name = some definition := by
  obtain ⟨t, ht, -⟩ := Scope.resolve_eq_ok_iff.mp h
  cases ht with
  | named hd => exact ⟨_, hd⟩

/-- **Loading a document is exact and does not depend on the order of its lists.**  A document
comes to a bundle exactly when its types are structs and enums with distinct names; otherwise the
error is that of the first type that is anonymous or has the name of one before it.  Each type is
then found under its name, and nothing else is.  The models can be made exactly when the listed
names are distinct and each is registered and resolved to a struct with a key; then the catalogue
has just these names, each with its own model.  A document that lists the same types and the same
models in another order comes to the same definitions, the same models and the same report, or
fails as well. -/
theorem loading_exact (h : Document.ofText? text = some d) :
    ((∃ b, ofText text = .ok b) ↔ Definitions.Distinct d.types) ∧
    (∀ e, ofText text = .error e ↔ ∃ before t after cause, d.types = before ++ t :: after ∧
      Definitions.Distinct before ∧ Definitions.Refused before t cause ∧ e = .register cause) ∧
    (∀ b, ofText text = .ok b →
      (∀ name t, b.types.get? name = some t ↔ t ∈ d.types ∧ t.ownName? = some name) ∧
      ((∃ c, b.models = .ok c) ↔ d.models.Nodup ∧ ∀ name ∈ d.models,
        (∃ t, b.types.get? name = some t) ∧
          ∃ schema, b.scope.resolveNamed name = .ok schema ∧ schema.HasKey) ∧
      ∀ c, b.models = .ok c → c.Lists b.scope d.models) ∧
    ∀ text' d', Document.ofText? text' = some d' → d'.wordBits = d.wordBits →
      d'.primitives = d.primitives → d.types.Perm d'.types → d.models.Perm d'.models →
      ((∃ b, ofText text = .ok b) ↔ ∃ b', ofText text' = .ok b') ∧
      ∀ b b', ofText text = .ok b → ofText text' = .ok b' →
        b'.types = b.types ∧ ((∃ c, b.models = .ok c) ↔ ∃ c', b'.models = .ok c') ∧
        ∀ c c', b.models = .ok c → b'.models = .ok c' → c' = c ∧
          Report.layouts b' = Report.layouts b ∧
          ∀ name, Report.layoutOf b' name = Report.layoutOf b name := by
  have hloads : ∀ {text d}, Document.ofText? text = some d →
      ((∃ b, ofText text = .ok b) ↔ Definitions.Distinct d.types) := by
    intro text d h
    simp [ofText_eq_ok_iff h]
  refine ⟨hloads h, fun e => ofText_eq_error_iff h, ?_, ?_⟩
  · intro b hb
    obtain ⟨hdistinct, rfl⟩ := (ofText_eq_ok_iff h).mp hb
    have hkeyed := Definitions.keyed_offerAll_empty d.types
    refine ⟨fun name t => ?_, ?_, fun c hc => lists_of_models hkeyed hc⟩
    · rw [Definitions.get?_offerAll_empty, Definitions.find?_ownName_iff hdistinct]
    · rw [exists_models_iff hkeyed]
      refine and_congr_right fun _ => forall₂_congr fun name _ => ?_
      rw [exists_model_iff]
      constructor
      · rintro ⟨schema, hschema, hkey⟩
        exact ⟨exists_definition_of_resolveNamed hschema, schema, hschema, hkey⟩
      · exact fun hname => hname.2
  · intro text' d' h' hbits hprimitives htypes hmodels
    refine ⟨?_, fun b b' hb hb' => ?_⟩
    · rw [hloads h, hloads h']
      exact ⟨fun hd => hd.perm htypes, fun hd => hd.perm htypes.symm⟩
    · obtain ⟨hdistinct, rfl⟩ := (ofText_eq_ok_iff h).mp hb
      obtain ⟨-, rfl⟩ := (ofText_eq_ok_iff h').mp hb'
      have hkeyed := Definitions.keyed_offerAll_empty d.types
      rw [hbits, hprimitives, ← Definitions.offerAll_empty_perm hdistinct htypes]
      -- the two bundles differ in the order of the names of their models only
      refine ⟨rfl, ?_, fun c c' hc hc' => ?_⟩
      · rw [exists_models_iff hkeyed, exists_models_iff hkeyed]
        refine and_congr hmodels.nodup_iff (forall_congr' fun name => ?_)
        exact imp_congr hmodels.mem_iff Iff.rfl
      · have hlists := lists_of_models hkeyed hc
        have hlists' := lists_of_models hkeyed hc'
        have hsame : c' = c := hlists'.unique hlists fun name => hmodels.mem_iff.symm
        subst hsame
        refine ⟨rfl, ?_, fun name => ?_⟩
        · rw [Report.layouts, Report.layouts, hc, hc']
        · rw [Report.layoutOf, Report.layoutOf, hc, hc']

/-- A document with one type, which is its only model. -/
theorem moves_document_loaded :
    let text := "[64,\x7b\x7d,[[\"struct\",\"Moves\",\"\",[[\"player\",[\"primitive\",\"u64\"],\"KEY\"]]]]," ++
      "[\"Moves\"]]"
    let moves : Decl := .struct "Moves" .empty [⟨"player", Decl.primitive "u64", .key⟩]
    Document.ofText? text = some ⟨some 64, ∅, [moves], ["Moves"]⟩ ∧
      ∃ b c, ofText text = .ok b ∧ b.types.get? "Moves" = some moves ∧ b.models = .ok c ∧
        c.Lists b.scope ["Moves"] := by
  intro text moves
  have htext : Document.ofText? text = some ⟨some 64, ∅, [moves], ["Moves"]⟩ := by
    decide +kernel
  obtain ⟨hloads, -, hbundle, -⟩ := loading_exact htext
  have hdistinct : Definitions.Distinct [moves] := by
    simp [Definitions.Distinct, moves, Decl.ownName?]
  obtain ⟨b, hb⟩ := hloads.mpr hdistinct
  obtain ⟨htypes, hmodels, hlists⟩ := hbundle b hb
  have hget : b.types.get? "Moves" = some moves :=
    (htypes "Moves" moves).mpr ⟨List.mem_singleton_self moves, rfl⟩
  have htable : b.scope.table = .standardFor 64 := by
    obtain ⟨-, rfl⟩ := (ofText_eq_ok_iff htext).mp hb
    exact table_of_primitives_eq_empty rfl
  let root : Tree := .struct "Moves" .empty [⟨"player", .leaf ⟨"u64", 64⟩, .key⟩]
  have hroot : b.scope.expand [] 0 (Decl.named "Moves") = .ok root := by
    rw [Decl.named, Scope.expand_named List.not_mem_nil hget]
    simp only [moves, Decl.primitive, Scope.expand, Scope.expandMembers, htable]
    obtain ⟨-, rfl⟩ := (ofText_eq_ok_iff htext).mp hb
    rfl
  have hresolve : b.scope.resolveNamed "Moves" = .ok ⟨root, b.scope.table.wordBits⟩ :=
    Scope.resolve_of_expand_eq_ok hroot
  obtain ⟨c, hc⟩ := hmodels.mpr ⟨List.nodup_singleton "Moves", fun name hname => by
    obtain rfl := List.mem_singleton.mp hname
    exact ⟨⟨moves, hget⟩, _, hresolve, "Moves", .empty, _, rfl, _, List.mem_singleton_self _, rfl⟩⟩
  exact ⟨htext, b, c, hb, hget, hc, hlists c hc⟩

end Bundle

end WordPacking
