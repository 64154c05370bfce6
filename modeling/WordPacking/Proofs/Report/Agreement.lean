/-
# Reports that agree

The reports on a bundle all begin by making its models.  If that fails they fail with it, whichever
model is asked for.  Otherwise a report on one model is refused only because its name is not listed
(`reportOn_eq_error_iff`), and the report on all models is made of the reports on each of them.

The two reports on a model come to their figures in different ways.  The one counts slots and words
without placing anything, and the other goes by the plan; that the figures agree is what is known of
the plan of a layout.  They are compared as they stand in the texts.
-/
import WordPacking.Proofs.Catalogue.Registration
import WordPacking.Proofs.Model.Refusal
import WordPacking.Proofs.Plan.Density
import WordPacking.Proofs.Report.Figures

namespace WordPacking

namespace Catalogue

variable {c : Catalogue}

lemma get_eq_error_iff {name : String} {e : ModelError} :
    c.get name = .error e ↔ c.find? name = none ∧ e = .unknownModel name := by
  unfold get
  cases c.find? name <;> simp [eq_comm]

/-- The models that are listed are those that are found under a name. -/
lemma mem_models_iff {m : Model} : m ∈ c.models ↔ ∃ name, c.find? name = some m := by
  rw [models, values_eq_map_toList, List.mem_map]
  constructor
  · rintro ⟨⟨name, m⟩, hentry, rfl⟩
    exact ⟨name, Std.ExtTreeMap.mem_toList_iff_getElem?_eq_some.mp hentry⟩
  · rintro ⟨name, hfind⟩
    exact ⟨(name, m), Std.ExtTreeMap.mem_toList_iff_getElem?_eq_some.mpr hfind, rfl⟩

end Catalogue

namespace Report

/-! ## The figures of a model -/

variable {m : Model}

/-- What the report on the layout of a model says. -/
def layoutFigures (m : Model) : LayoutFigures :=
  ⟨m.layout.widths, m.unpackedSize, m.keySize, m.valueSize, m.packedSize⟩

/-- What the report on the words of a model says. -/
def planFigures (m : Model) : PlanFigures :=
  ⟨m.unpackedSize, m.plan.wordCount, m.plan.wordBits,
    m.plan.words.mapIdx fun index group => ⟨(m.plan.usedBits index).getD 0, group⟩,
    m.plan.paddingBits⟩

lemma modelLayout_eq (m : Model) : modelLayout m = (layoutFigures m).text m.name := by
  have hopen : "  layout:        " ++ "[" = "  layout:        [" := by decide
  simp only [modelLayout, layoutLines, LayoutFigures.text, layoutFigures, Layout.text,
    ← String.append_assoc, hopen]

lemma modelPlan_eq (m : Model) : modelPlan m = (planFigures m).text m.name := by
  have hlines : m.plan.words.mapIdx (wordLine m.plan) =
      (planFigures m).words.mapIdx (WordFigures.line m.plan.wordBits) := by
    rw [planFigures, List.mapIdx_mapIdx]
    rfl
  rw [modelPlan, planLines, hlines]
  rfl

/-- The bits that are taken in a word are those of its slots. -/
lemma words_planFigures (m : Model) :
    (planFigures m).words = m.plan.words.map fun group => ⟨total group, group⟩ := by
  refine List.ext_getElem (by simp [planFigures]) fun index hindex hindex' => ?_
  have hword : index < m.plan.words.length := by simpa using hindex'
  have hused : m.plan.usedBits index = some (total m.plan.words[index]) := by
    rw [Plan.usedBits, List.getElem?_eq_getElem hword, Option.map_some]
  simp only [planFigures, List.getElem_mapIdx, List.getElem_map, hused, Option.getD_some]

/-- The figures of two reports on one model agree: the numbers of slots and words are the same, each
slot has a width, each word has a line, the lines have the slots of the layout, and all bits of the
words are taken or left free. -/
structure Agree (l : LayoutFigures) (p : PlanFigures) : Prop where
  /-- There are as many slots. -/
  slots : p.slots = l.slots
  /-- There is a width for each slot. -/
  listed : l.widths.length = l.slots
  /-- There are as many words. -/
  wordCount : p.wordCount = l.words
  /-- There is a line for each word. -/
  lines : p.words.length = l.words
  /-- The slots of the words are, one word after the other, those of the layout. -/
  widths : (p.words.map (·.widths)).flatten = l.widths
  /-- The bits that are taken and those left free are the bits of all words. -/
  bits : total (p.words.map (·.used)) + p.padding = l.words * p.wordBits

lemma agree_figures (hm : m.layout.Valid) : Agree (layoutFigures m) (planFigures m) where
  slots := rfl
  listed := m.schema.size_layout
  wordCount := (Layout.packedSize_eq_wordCount hm).symm
  lines := by
    rw [words_planFigures, List.length_map]
    exact (Layout.packedSize_eq_wordCount hm).symm
  widths := by
    rw [words_planFigures, List.map_map]
    show (m.plan.words.map id).flatten = m.layout.widths
    rw [List.map_id]
    exact m.layout.flatten_words_plan
  bits := by
    rw [words_planFigures, List.map_map]
    show total (m.plan.words.map total) + m.plan.paddingBits = m.packedSize * m.layout.wordBits
    rw [Model.packedSize, Layout.packedSize_mul_wordBits hm, Layout.totalBits_eq_total_words]
    rfl

/-! ## Reports on one model -/

section One

variable {b : Bundle} {c : Catalogue} {describe : Model → String} {name text : String}
  {e : ModelError}

/-- A report on one model of a bundle. -/
def reportOn (describe : Model → String) (b : Bundle) (name : String) :
    Except ModelError String := do
  let catalogue ← b.models
  let model ← catalogue.get name
  return describe model

lemma layoutOf_eq (b : Bundle) : layoutOf b = reportOn modelLayout b := rfl

lemma planOf_eq (b : Bundle) : planOf b = reportOn modelPlan b := rfl

lemma reportOn_of_models_eq_error (h : b.models = .error e) :
    reportOn describe b name = .error e := by
  rw [reportOn, h]
  rfl

lemma reportOn_of_models_eq_ok (h : b.models = .ok c) :
    reportOn describe b name = (c.get name).map describe := by
  rw [reportOn, h]
  show (c.get name >>= fun m => pure (describe m)) = (c.get name).map describe
  cases c.get name <;> rfl

/-- Once the models are made, a report on one of them is refused only because its name is not
listed. -/
lemma reportOn_eq_error_iff (hkeyed : b.types.Keyed) (h : b.models = .ok c) :
    reportOn describe b name = .error e ↔ name ∉ b.modelNames ∧ e = .unknownModel name := by
  rw [reportOn_of_models_eq_ok h, except_map_eq_error_iff, Catalogue.get_eq_error_iff,
    ← (Bundle.lists_of_models hkeyed h).mem_names, Catalogue.mem_names_iff, not_exists,
    Option.eq_none_iff_forall_ne_some]

/-- The report on a listed model is that on the model of this name. -/
lemma exists_reportOn_eq_ok (hkeyed : b.types.Keyed) (h : b.models = .ok c)
    (hname : name ∈ b.modelNames) : ∃ m, b.model name = .ok m ∧ m.name = name ∧
      ∀ describe, reportOn describe b name = .ok (describe m) := by
  obtain ⟨m, hm⟩ := ((Bundle.exists_models_iff hkeyed).mp ⟨c, h⟩).2 name hname
  refine ⟨m, hm, Bundle.name_of_model hkeyed hm, fun describe => ?_⟩
  have hget : c.get name = .ok m :=
    Catalogue.get_eq_ok_iff.mpr ((Bundle.find?_eq_some_iff_of_models hkeyed h).mpr ⟨hname, hm⟩)
  rw [reportOn_of_models_eq_ok h, hget]
  rfl

end One

/-! ## The report on all models -/

variable {b : Bundle} {c : Catalogue}

lemma layouts_of_models_eq_ok (h : b.models = .ok c) :
    layouts b = .ok ("\n".intercalate (c.models.map modelLayout)) := by
  rw [layouts, h]
  rfl

/-- The reports on the models by name are those on the models in the order of their names. -/
lemma map_layoutOf_names (hkeyed : b.types.Keyed) (h : b.models = .ok c) :
    c.names.map (layoutOf b) = (c.models.map modelLayout).map .ok := by
  have hlists := Bundle.lists_of_models hkeyed h
  rw [← hlists.models, List.map_map, List.map_map]
  refine List.map_congr_left fun m hm => ?_
  obtain ⟨name, hfind⟩ := Catalogue.mem_models_iff.mp hm
  obtain rfl := (hlists.schema name m hfind).1
  show layoutOf b m.name = .ok (modelLayout m)
  rw [layoutOf_eq, reportOn_of_models_eq_ok h, Catalogue.get_eq_ok_iff.mpr hfind]
  rfl

/-- **The reports on a bundle agree.**  If its models cannot be made, that is the error of every
report, whichever model it is about.  If they can, the report on all models is made of those on each
listed model, in ascending order of the names and with an empty line between two of them.  A report
on one model is refused only because the name is not listed, and then for that.  On a listed model
there are both reports, and their texts agree: they say the same number of slots and of words, the
words have a line each, with the widths of the layout one after the other, and the bits that are
taken and those left free make up all words.  For this each definition has to be kept under the name
that it declares, as it is in a bundle that has been loaded. -/
theorem reports_agree (hkeyed : b.types.Keyed) :
    (∀ e, b.models = .error e → layouts b = .error e ∧
      ∀ name, layoutOf b name = .error e ∧ planOf b name = .error e) ∧
    ∀ c, b.models = .ok c →
      (∃ names texts : List String, names.Perm b.modelNames ∧ names.Pairwise (· < ·) ∧
        names.map (layoutOf b) = texts.map .ok ∧ layouts b = .ok ("\n".intercalate texts)) ∧
      (∀ name e, layoutOf b name = .error e ↔ name ∉ b.modelNames ∧ e = .unknownModel name) ∧
      (∀ name e, planOf b name = .error e ↔ name ∉ b.modelNames ∧ e = .unknownModel name) ∧
      ∀ name ∈ b.modelNames,
        (∃ (l : LayoutFigures) (p : PlanFigures),
          layoutOf b name = .ok (l.text name) ∧ planOf b name = .ok (p.text name)) ∧
        ∀ (l : LayoutFigures) (p : PlanFigures), layoutOf b name = .ok (l.text name) →
          planOf b name = .ok (p.text name) → Agree l p := by
  refine ⟨fun e he => ⟨?_, fun name =>
    ⟨reportOn_of_models_eq_error he, reportOn_of_models_eq_error he⟩⟩,
    fun c hc => ⟨?_, fun name e => reportOn_eq_error_iff hkeyed hc,
      fun name e => reportOn_eq_error_iff hkeyed hc, fun name hname => ?_⟩⟩
  · rw [layouts, he]
    rfl
  · have hlists := Bundle.lists_of_models hkeyed hc
    have hnodup := ((Bundle.exists_models_iff hkeyed).mp ⟨c, hc⟩).1
    have hperm : c.names.Perm b.modelNames :=
      (List.perm_ext_iff_of_nodup Std.ExtTreeMap.nodup_keys hnodup).mpr hlists.mem_names
    exact ⟨c.names, c.models.map modelLayout, hperm, hlists.sorted, map_layoutOf_names hkeyed hc,
      layouts_of_models_eq_ok hc⟩
  · obtain ⟨m, hm, rfl, hreport⟩ := exists_reportOn_eq_ok hkeyed hc hname
    have hlayout := hreport modelLayout
    have hplan := hreport modelPlan
    rw [modelLayout_eq, ← layoutOf_eq] at hlayout
    rw [modelPlan_eq, ← planOf_eq] at hplan
    refine ⟨⟨_, _, hlayout, hplan⟩, fun l p hl hp => ?_⟩
    -- the figures that are read are those that have been written
    obtain rfl := LayoutFigures.text_inj (Except.ok.inj (hlayout.symm.trans hl))
    obtain rfl := PlanFigures.text_inj (Except.ok.inj (hplan.symm.trans hp))
    exact agree_figures (Model.valid_layout_of_ofDecl hm)

/-- Four slots in three words in the one report, and three lines with these slots in the other.
There is no report on a model that is registered and not listed. -/
theorem three_words_in_both_reports :
    let moves : Decl := .struct "Moves" .empty [
      ⟨"player", Decl.primitive "u64", .key⟩,
      ⟨"last", .array 2 (Decl.primitive "u32"), .empty⟩,
      ⟨"facing", Decl.primitive "u8", .empty⟩]
    let step : Decl := .struct "Step" .empty [⟨"player", Decl.primitive "u64", .key⟩]
    let b : Bundle := ⟨64, ∅, Definitions.empty.offerAll [moves, step], ["Moves"], 64⟩
    let l : LayoutFigures := ⟨[64, 32, 32, 8], 4, 1, 3, 3⟩
    let p : PlanFigures := ⟨4, 3, 64, [⟨64, [64]⟩, ⟨64, [32, 32]⟩, ⟨8, [8]⟩], 56⟩
    ∃ c, b.types.Keyed ∧ b.models = .ok c ∧ "Moves" ∈ b.modelNames ∧
      layoutOf b "Moves" = .ok (l.text "Moves") ∧ planOf b "Moves" = .ok (p.text "Moves") ∧
      Agree l p ∧ layouts b = .ok (l.text "Moves") ∧
      planOf b "Step" = .error (.unknownModel "Step") := by
  intro moves step b l p
  let m : Model := ⟨"Moves", .empty, [
    ⟨"player", .leaf ⟨"u64", 64⟩, .key⟩,
    ⟨"last", .array 2 (.leaf ⟨"u32", 32⟩), .empty⟩,
    ⟨"facing", .leaf ⟨"u8", 8⟩, .empty⟩], 64, rfl⟩
  let c : Catalogue := ⟨(∅ : Std.ExtTreeMap String Model).insert "Moves" m⟩
  have hkeyed : b.types.Keyed := Definitions.keyed_offerAll_empty [moves, step]
  have hget : b.types.get? "Moves" = some moves := Definitions.get?_offerAll_empty _ _
  have htable : b.table = .standardFor 64 := Bundle.table_of_primitives_eq_empty rfl
  have hroot : Scope.expand ⟨.standardFor 64, b.types, 64⟩ [] 0 (Decl.named "Moves") =
      .ok m.schema.root := by
    rw [Decl.named, Scope.expand_named List.not_mem_nil hget]
    simp only [moves, Decl.primitive, Scope.expand, Scope.expandMembers]
    rfl
  have hresolve : b.scope.resolve (Decl.named "Moves") = .ok m.schema := by
    rw [Bundle.scope, htable]
    exact Scope.resolve_of_expand_eq_ok hroot
  have hadd : b.addModel .empty "Moves" = .ok c := by
    rw [Bundle.addModel, Bundle.model, Model.ofDecl_eq_ok_iff.mpr hresolve]
    rfl
  have hmodels : b.models = .ok c := by
    show ["Moves"].foldlM b.addModel .empty = .ok c
    rw [List.foldlM_cons, hadd]
    rfl
  have hfind : c.get "Moves" = .ok m := Catalogue.get_eq_ok_iff.mpr (by simp [c, Catalogue.find?])
  have hlayout : layoutOf b "Moves" = .ok (l.text "Moves") := by
    rw [layoutOf_eq, reportOn_of_models_eq_ok hmodels, hfind]
    exact congrArg Except.ok (modelLayout_eq m)
  have hplan : planOf b "Moves" = .ok (p.text "Moves") := by
    rw [planOf_eq, reportOn_of_models_eq_ok hmodels, hfind]
    exact congrArg Except.ok (modelPlan_eq m)
  obtain ⟨⟨names, texts, hperm, -, htexts, hlayouts⟩, -, hunlisted, hagree⟩ :=
    (reports_agree hkeyed).2 c hmodels
  obtain rfl : names = ["Moves"] := List.perm_singleton.mp hperm
  obtain rfl : texts = [l.text "Moves"] := by
    refine (List.map_inj_right (f := (Except.ok : String → Except ModelError String))
      fun _ _ => Except.ok.inj).mp ?_
    rw [← htexts, List.map_singleton, List.map_singleton, hlayout]
  refine ⟨c, hkeyed, hmodels, List.mem_singleton_self _, hlayout, hplan,
    (hagree "Moves" (List.mem_singleton_self _)).2 l p hlayout hplan, hlayouts,
    (hunlisted "Step" _).mpr ⟨by decide, rfl⟩⟩

end Report

end WordPacking
