/-
# The stages of a run

A run that reports on a schema file goes through stages: the options are scanned, the model that is
asked for has to be named where there is no report without one, the file is found and read, its
document is taken apart, the types are registered, the models are made, and the report is written.
What can be wrong at a stage is said for each stage alone, together with what is printed about it
(`Fault`), so a run can have faults at several of them.  It prints the report if it has none, and
otherwise only what there is to say about the first stage that has one (`FirstFault`).

What is wrong is said of the arguments, the bytes of the file and its document, and what is printed
is written out, so nothing here is said by means of what the program itself makes of them.
-/
import WordPacking.Proofs.CommandLine.Items
import WordPacking.Proofs.CommandLine.Sentences
import WordPacking.Proofs.Report.Agreement

namespace WordPacking.CommandLine

/-! ## Commands and what they read -/

/-- The commands that report on a schema file. -/
inductive ReportCommand where
  /-- The report on layouts. -/
  | layout
  /-- The report on the words of a model. -/
  | plan
deriving DecidableEq, Repr

namespace ReportCommand

/-- The argument that stands for the command. -/
def word : ReportCommand → String
  | layout => "layout"
  | plan => "plan"

/-- The report of a command, on all models or on the one that is asked for.  There is no plan of all
models. -/
def report? : ReportCommand → Option String → Option (Bundle → Except ModelError String)
  | layout, none => some Report.layouts
  | layout, some name => some fun b => Report.layoutOf b name
  | plan, some name => some fun b => Report.planOf b name
  | plan, none => none

end ReportCommand

variable {w : Surroundings} {command : ReportCommand} {arguments : List String} {o : Options}
  {b : Bundle} {asked : Option String} {report : Bundle → Except ModelError String}
  {stage : Stage} {message : String} {e : ModelError}

/-- The arguments give options, and the file that these name has the bytes of a text. -/
def Reads (w : Surroundings) (arguments : List String) (o : Options) (text : String) : Prop :=
  Options.Given arguments o ∧ ∃ path, o.path = some path ∧ w.files path = .bytes text.toUTF8

/-- The file that the arguments name holds a bundle, and this is the same with the word size and the
nesting limit of the options in place of its own. -/
def Loads (w : Surroundings) (arguments : List String) (o : Options) (b : Bundle) : Prop :=
  ∃ text loaded, Reads w arguments o text ∧ Bundle.ofText text = .ok loaded ∧
    b = { loaded with
      wordBits := o.wordBits.getD loaded.wordBits
      maxDepth := o.maxDepth.getD loaded.maxDepth }

/-- The machine has room for the layouts that a report is about, those of all listed models or that
of the one that is asked for. -/
def HasRoomFor (w : Surroundings) (b : Bundle) (asked : Option String) : Prop :=
  ∀ name ∈ b.modelNames, (asked = none ∨ asked = some name) →
    ∀ m, b.model name = .ok m → m.unpackedSize < w.room

/-! ## Stages -/

/-- The stages of a run. -/
inductive Stage where
  /-- The options are scanned. -/
  | options
  /-- One model is asked for, where this has to be. -/
  | model
  /-- There is a path. -/
  | path
  /-- The file is read. -/
  | file
  /-- The text of the file is taken for a document. -/
  | document
  /-- The types of the document are registered. -/
  | types
  /-- The models of the document are made. -/
  | models
  /-- The model that is asked for is looked up. -/
  | requested
deriving DecidableEq, Repr

/-- The number of stages before a stage. -/
def Stage.rank : Stage → Nat
  | options => 0
  | model => 1
  | path => 2
  | file => 3
  | document => 4
  | types => 5
  | models => 6
  | requested => 7

/-- What is wrong with a run at a stage, and what is printed about it.  Nothing is said about other
stages, but that they have come to what this stage is about. -/
inductive Fault (w : Surroundings) (command : ReportCommand) (arguments : List String) :
    Stage → String → Prop
  /-- An argument after some items begins no item. -/
  | options {cause : OptionError} {sentence : String}
    (hrefused : Options.Refused arguments cause) (hsentence : cause.Says sentence) :
    Fault w command arguments .options ("error: " ++ sentence ++ "\n")
  /-- A plan is asked for, and no model. -/
  | model {o : Options} (hgiven : Options.Given arguments o) (hplan : command = .plan)
    (hmodel : o.model = none) : Fault w command arguments .model
      "error: missing --model\nUsage: strata plan <schema.json> --model <name>\n"
  /-- There is no positional argument. -/
  | path {o : Options} (hgiven : Options.Given arguments o) (hpath : o.path = none) :
    Fault w command arguments .path
      "error: missing schema file\nUsage: strata <layout|plan> <schema.json> [options]\n"
  /-- There is no text at the path. -/
  | file {o : Options} {path reason : String} (hgiven : Options.Given arguments o)
    (hpath : o.path = some path) (hfile : (w.files path).Unreadable reason) :
    Fault w command arguments .file ("error: cannot read `" ++ path ++ "`: " ++ reason ++ "\n")
  /-- The text is no document. -/
  | document {o : Options} {text : String} (hreads : Reads w arguments o text)
    (hdocument : Document.ofText? text = none) : Fault w command arguments .document
      ("error: invalid schema document: " ++ w.explain text ++ "\n")
  /-- A type of the document is anonymous, or has the name of one before it. -/
  | types {o : Options} {text : String} {d : Document} {before after : List Decl} {t : Decl}
    {cause : RegisterError} {sentence : String} (hreads : Reads w arguments o text)
    (hdocument : Document.ofText? text = some d) (htypes : d.types = before ++ t :: after)
    (hbefore : Definitions.Distinct before) (hrefused : Definitions.Refused before t cause)
    (hsentence : cause.Says sentence) :
    Fault w command arguments .types ("error: " ++ sentence ++ "\n")
  /-- A listed name has no model, or stands for the second time in the list. -/
  | models {o : Options} {b : Bundle} {before after : List String} {name : String}
    {cause : ModelError} {sentence : String} (hloads : Loads w arguments o b)
    (hnames : b.modelNames = before ++ name :: after) (hdistinct : before.Nodup)
    (hbefore : ∀ other ∈ before, ∃ m, b.model other = .ok m)
    (hname : b.model name = .error cause ∨ name ∈ before ∧ cause = .duplicateModel name)
    (hsentence : cause.Says sentence) :
    Fault w command arguments .models ("error: " ++ sentence ++ "\n")
  /-- The model that is asked for is not listed. -/
  | requested {o : Options} {b : Bundle} {name : String} (hloads : Loads w arguments o b)
    (hmodel : o.model = some name) (hname : name ∉ b.modelNames) :
    Fault w command arguments .requested ("error: " ++ ("unknown model `" ++ name ++ "`") ++ "\n")

/-- What is wrong at the first stage at which something is wrong. -/
structure FirstFault (w : Surroundings) (command : ReportCommand) (arguments : List String)
    (stage : Stage) (message : String) : Prop where
  /-- It is wrong at this stage. -/
  fault : Fault w command arguments stage message
  /-- Nothing is wrong at an earlier stage. -/
  first : ∀ earlier : Stage, earlier.rank < stage.rank →
    ∀ other, ¬ Fault w command arguments earlier other

/-- If something is wrong, then something is wrong first. -/
lemma Fault.exists_firstFault (h : Fault w command arguments stage message) :
    ∃ stage message, FirstFault w command arguments stage message := by
  induction hn : stage.rank using Nat.strongRecOn generalizing stage message with
  | ind n ih =>
    by_cases hearlier : ∃ earlier : Stage, earlier.rank < stage.rank ∧
        ∃ other, Fault w command arguments earlier other
    · obtain ⟨earlier, hlt, other, hother⟩ := hearlier
      exact ih earlier.rank (hn ▸ hlt) hother rfl
    · refine ⟨stage, message, h, ?_⟩
      intro earlier hlt other hother
      exact hearlier ⟨earlier, hlt, other, hother⟩

/-! ## What a run comes to -/

/-- The report of a command, or why there is none. -/
def result (w : Surroundings) (command : ReportCommand) (arguments : List String) :
    Except Failure String :=
  match command with
  | .layout => layout w arguments
  | .plan => plan w arguments

lemma run_eq (w : Surroundings) (command : ReportCommand) (arguments : List String) :
    run w (command.word :: arguments) = .ofReport w (result w command arguments) := by
  cases command with
  | layout =>
    rw [ReportCommand.word, run, if_pos rfl, result]
  | plan =>
    rw [ReportCommand.word, run, if_neg (by decide), if_pos rfl, result]

lemma result_of_refused {cause : OptionError} (h : Options.Refused arguments cause) :
    result w command arguments = .error (.options cause) := by
  cases command <;> simp only [result, layout, plan, Options.scan_eq_error_iff.mpr h]

/-- The report of a command is that on all models, or one on the model that is asked for. -/
lemma report?_cases (h : command.report? asked = some report) :
    asked = none ∧ report = Report.layouts ∨
      ∃ name describe, asked = some name ∧ report = fun b => Report.reportOn describe b name := by
  cases command <;> cases asked <;>
    simp only [ReportCommand.report?, Option.some.injEq, reduceCtorEq] at h <;> subst h
  · exact .inl ⟨rfl, rfl⟩
  · exact .inr ⟨_, Report.modelLayout, rfl, rfl⟩
  · exact .inr ⟨_, Report.modelPlan, rfl, rfl⟩

lemma report?_eq_none_iff : command.report? asked = none ↔ command = .plan ∧ asked = none := by
  cases command <;> cases asked <;> simp [ReportCommand.report?]

lemma result_of_given (hgiven : Options.Given arguments o)
    (hreport : command.report? o.model = some report) :
    result w command arguments =
      (loadBundle w o).bind fun b => w.reportOn b o.model report := by
  have hscan := Options.scan_eq_ok_iff.mpr hgiven
  cases command <;> cases hmodel : o.model <;>
    simp only [ReportCommand.report?, hmodel, Option.some.injEq, reduceCtorEq] at hreport <;>
    subst hreport <;> simp only [result, layout, plan, hscan, hmodel] <;>
    cases loadBundle w o <;> rfl

/-- A report on a bundle whose models cannot be made fails as they do. -/
lemma report_of_models_eq_error (hreport : command.report? asked = some report)
    (h : b.models = .error e) : report b = .error e := by
  rcases report?_cases hreport with ⟨-, rfl⟩ | ⟨name, describe, -, rfl⟩
  · rw [Report.layouts, h]
    rfl
  · exact Report.reportOn_of_models_eq_error h

/-- A report on a bundle whose models can be made fails when the one that is asked for is not
listed. -/
lemma report_eq_error_iff (hreport : command.report? asked = some report)
    (hkeyed : b.types.Keyed) {c : Catalogue} (h : b.models = .ok c) :
    report b = .error e ↔ ∃ name, asked = some name ∧ name ∉ b.modelNames ∧
      e = .unknownModel name := by
  rcases report?_cases hreport with ⟨rfl, rfl⟩ | ⟨name, describe, rfl, rfl⟩
  · simp [Report.layouts_of_models_eq_ok h]
  · simp [Report.reportOn_eq_error_iff hkeyed h]

/-! ## Loading -/

lemma loadBundle_of_reads {text : String} {loaded : Bundle} (h : Reads w arguments o text)
    (hloaded : Bundle.ofText text = .ok loaded) : loadBundle w o = .ok (o.override loaded) := by
  obtain ⟨-, path, hpath, hfile⟩ := h
  simp only [loadBundle, hpath, FileContents.text_eq_ok_iff.mpr hfile, hloaded]

lemma override_eq (o : Options) (b : Bundle) :
    o.override b = { b with
      wordBits := o.wordBits.getD b.wordBits
      maxDepth := o.maxDepth.getD b.maxDepth } := by
  unfold Options.override
  cases o.wordBits <;> cases o.maxDepth <;> rfl

lemma Loads.loadBundle_eq (h : Loads w arguments o b) : loadBundle w o = .ok b := by
  obtain ⟨text, loaded, hreads, hloaded, rfl⟩ := h
  rw [loadBundle_of_reads hreads hloaded, override_eq]

lemma Loads.given (h : Loads w arguments o b) : Options.Given arguments o := by
  obtain ⟨text, loaded, hreads, -, -⟩ := h
  exact hreads.1

lemma Loads.keyed (h : Loads w arguments o b) : b.types.Keyed := by
  obtain ⟨text, loaded, -, hloaded, rfl⟩ := h
  show loaded.types.Keyed
  exact Bundle.keyed_of_ofText hloaded

/-- On a bundle that is loaded, a run comes to what the report comes to, if there is room. -/
lemma Loads.result_eq (h : Loads w arguments o b)
    (hreport : command.report? o.model = some report) :
    result w command arguments = w.reportOn b o.model report := by
  rw [result_of_given h.given hreport, h.loadBundle_eq]
  rfl

/-! ## Room -/

lemma hasRoom_of_models_eq_error (h : b.models = .error e) : w.hasRoom b asked = true := by
  rw [Surroundings.hasRoom, h]
  rfl

/-- There is room for the models that are made when there is room for the listed ones. -/
lemma hasRoom_iff (hkeyed : b.types.Keyed) {c : Catalogue} (h : b.models = .ok c) :
    w.hasRoom b asked = true ↔ HasRoomFor w b asked := by
  have hfind : ∀ {name m}, c.find? name = some m ↔ name ∈ b.modelNames ∧ b.model name = .ok m :=
    Bundle.find?_eq_some_iff_of_models hkeyed h
  have hasked : ∀ name : String,
      asked.all (· = name) = true ↔ asked = none ∨ asked = some name := by
    intro name
    cases asked <;> simp
  have hroom : w.hasRoom b asked = true ↔
      ∀ m ∈ c.models, (asked = none ∨ asked = some m.name) → m.unpackedSize < w.room := by
    simp only [Surroundings.hasRoom, h, Except.toOption, Option.all_some, List.all_eq_true,
      Bool.or_eq_true, Bool.not_eq_true', ← Bool.not_eq_true, hasked, decide_eq_true_eq,
      Decidable.imp_iff_not_or]
  rw [hroom]
  constructor
  · intro hmodels name hname hmodel m hm
    obtain rfl := Bundle.name_of_model hkeyed hm
    exact hmodels m (Catalogue.mem_models_iff.mpr ⟨_, hfind.mpr ⟨hname, hm⟩⟩) hmodel
  · intro hlisted m hm hmodel
    obtain ⟨name, hname, hm⟩ := (Catalogue.mem_models_iff.mp hm).imp fun _ => hfind.mp
    obtain rfl := Bundle.name_of_model hkeyed hm
    exact hlisted _ hname hmodel m hm

/-- The report on a bundle that is loaded is printed, if there is room for the layouts in it. -/
lemma Loads.run_of_report (h : Loads w arguments o b) {text : String}
    (hreport : command.report? o.model = some report) (htext : report b = .ok text) :
    (HasRoomFor w b o.model → run w (command.word :: arguments) = ⟨0, w.log ++ text, ""⟩) ∧
      (¬ HasRoomFor w b o.model → run w (command.word :: arguments) = w.stopped) := by
  have hmodels : ∃ c, b.models = .ok c := by
    cases hmodels : b.models with
    | ok c => exact ⟨c, rfl⟩
    | error e =>
      rw [report_of_models_eq_error hreport hmodels] at htext
      cases htext
  obtain ⟨c, hmodels⟩ := hmodels
  rw [run_eq, h.result_eq hreport, Surroundings.reportOn, ← hasRoom_iff h.keyed hmodels, htext]
  constructor
  · intro hroom
    rw [if_pos hroom]
    rfl
  · intro hroom
    rw [if_neg hroom]
    rfl

/-! ## The first fault -/

/-- If the models of a bundle that is loaded cannot be made, that is a fault. -/
lemma Loads.fault_of_models (h : Loads w arguments o b) (hmodels : b.models = .error e) :
    Fault w command arguments .models ("error: " ++ e.message ++ "\n") := by
  obtain ⟨before, name, after, hnames, hdistinct, hbefore, hname⟩ :=
    (Bundle.models_eq_error_iff h.keyed).mp hmodels
  refine .models h hnames hdistinct hbefore hname ?_
  rcases hname with hmodel | ⟨-, rfl⟩
  · exact ModelError.says_message_of_model hmodel
  · exact .duplicateModel

/-- There is something wrong with a run, or it has a report. -/
lemma exists_fault_or_report (w : Surroundings) (command : ReportCommand)
    (arguments : List String) : (∃ stage message, Fault w command arguments stage message) ∨
      ∃ o b report text, Loads w arguments o b ∧ command.report? o.model = some report ∧
        report b = .ok text := by
  cases hscan : Options.scan {} arguments with
  | error cause =>
    exact .inl ⟨_, _, .options (Options.scan_eq_error_iff.mp hscan) (OptionError.says_iff.mpr rfl)⟩
  | ok o =>
  have hgiven := Options.scan_eq_ok_iff.mp hscan
  cases hreport : command.report? o.model with
  | none =>
    obtain ⟨hplan, hmodel⟩ := report?_eq_none_iff.mp hreport
    exact .inl ⟨_, _, .model hgiven hplan hmodel⟩
  | some report =>
  cases hpath : o.path with
  | none => exact .inl ⟨_, _, .path hgiven hpath⟩
  | some path =>
  cases hfile : (w.files path).text with
  | error reason => exact .inl ⟨_, _, .file hgiven hpath (FileContents.text_eq_error_iff.mp hfile)⟩
  | ok text =>
  have hreads : Reads w arguments o text :=
    ⟨hgiven, path, hpath, FileContents.text_eq_ok_iff.mp hfile⟩
  cases hdocument : Document.ofText? text with
  | none => exact .inl ⟨_, _, .document hreads hdocument⟩
  | some d =>
  cases hloaded : Bundle.ofText text with
  | error cause =>
    obtain ⟨before, t, after, cause, htypes, hbefore, hrefused, rfl⟩ :=
      (Bundle.ofText_eq_error_iff hdocument).mp hloaded
    exact .inl ⟨_, _, .types hreads hdocument htypes hbefore hrefused
      (RegisterError.says_iff.mpr rfl)⟩
  | ok loaded =>
  have hloads : Loads w arguments o (o.override loaded) :=
    ⟨text, loaded, hreads, hloaded, override_eq o loaded⟩
  cases hmodels : (o.override loaded).models with
  | error e => exact .inl ⟨_, _, hloads.fault_of_models hmodels⟩
  | ok c =>
  cases hprinted : report (o.override loaded) with
  | error e =>
    obtain ⟨name, hmodel, hname, -⟩ :=
      (report_eq_error_iff hreport hloads.keyed hmodels).mp hprinted
    exact .inl ⟨_, _, .requested hloads hmodel hname⟩
  | ok printed => exact .inr ⟨o, _, report, printed, hloads, hreport, hprinted⟩

/-- If a later stage than the second one is the first with a fault, the command has a report. -/
lemma FirstFault.exists_report (h : FirstFault w command arguments stage message)
    (hgiven : Options.Given arguments o) (hlate : Stage.model.rank < stage.rank) :
    ∃ report, command.report? o.model = some report := by
  cases hreport : command.report? o.model with
  | none =>
    obtain ⟨hplan, hmodel⟩ := report?_eq_none_iff.mp hreport
    exact absurd (.model hgiven hplan hmodel) (h.first .model hlate _)
  | some report => exact ⟨report, rfl⟩

lemma FirstFault.result_of_loadBundle {failure : Failure}
    (h : FirstFault w command arguments stage message) (hgiven : Options.Given arguments o)
    (hlate : Stage.model.rank < stage.rank) (hload : loadBundle w o = .error failure) :
    result w command arguments = .error failure := by
  obtain ⟨report, hreport⟩ := h.exists_report hgiven hlate
  rw [result_of_given hgiven hreport, hload]
  rfl

/-- Where the report on a bundle that is loaded fails with an error, and there is room, so does the
run. -/
lemma Loads.result_of_report (h : Loads w arguments o b)
    (hreport : command.report? o.model = some report) (hroom : w.hasRoom b o.model = true)
    (he : report b = .error e) : result w command arguments = .error (.model e) := by
  rw [h.result_eq hreport, Surroundings.reportOn, if_pos hroom, he]
  rfl

/-- A run fails with the first thing that is wrong, and what is said about the failure is printed
about it. -/
lemma FirstFault.exists_result (h : FirstFault w command arguments stage message) :
    ∃ failure, result w command arguments = .error failure ∧
      Outcome.ofReport w (.error failure) = ⟨1, w.log, message⟩ := by
  cases h.fault with
  | options hrefused hsentence =>
    obtain rfl := OptionError.says_iff.mp hsentence
    exact ⟨_, result_of_refused hrefused, rfl⟩
  | model hgiven hplan hmodel =>
    refine ⟨.missingModel, ?_, rfl⟩
    subst hplan
    simp only [result, plan, Options.scan_eq_ok_iff.mpr hgiven, hmodel]
  | path hgiven hpath =>
    refine ⟨.missingPath, h.result_of_loadBundle hgiven (by decide) ?_, rfl⟩
    rw [loadBundle, hpath]
  | @file o path reason hgiven hpath hfile =>
    refine ⟨.unreadable path reason, h.result_of_loadBundle hgiven (by decide) ?_, rfl⟩
    simp only [loadBundle, hpath, FileContents.text_eq_error_iff.mpr hfile]
  | @document o text hreads hdocument =>
    obtain ⟨hgiven, path, hpath, hfile⟩ := hreads
    refine ⟨.invalidDocument (w.explain text), h.result_of_loadBundle hgiven (by decide) ?_, rfl⟩
    simp only [loadBundle, hpath, FileContents.text_eq_ok_iff.mpr hfile, Bundle.ofText, hdocument]
  | @types _ text _ _ _ _ cause _ hreads hdocument htypes hbefore hrefused hsentence =>
    obtain rfl := RegisterError.says_iff.mp hsentence
    obtain ⟨hgiven, path, hpath, hfile⟩ := hreads
    have hloaded : Bundle.ofText text = .error (.register cause) :=
      (Bundle.ofText_eq_error_iff hdocument).mpr ⟨_, _, _, _, htypes, hbefore, hrefused, rfl⟩
    refine ⟨.register cause, h.result_of_loadBundle hgiven (by decide) ?_, rfl⟩
    simp only [loadBundle, hpath, FileContents.text_eq_ok_iff.mpr hfile, hloaded]
  | @models o b _ _ _ cause _ hloads hnames hdistinct hbefore hname hsentence =>
    obtain rfl := hsentence.eq_message
    obtain ⟨report, hreport⟩ := h.exists_report hloads.given (by decide)
    have hmodels : b.models = .error cause := (Bundle.models_eq_error_iff hloads.keyed).mpr
      ⟨_, _, _, hnames, hdistinct, hbefore, hname⟩
    exact ⟨.model cause, hloads.result_of_report hreport (hasRoom_of_models_eq_error hmodels)
      (report_of_models_eq_error hreport hmodels), rfl⟩
  | @requested o b name hloads hmodel hname =>
    obtain ⟨report, hreport⟩ := h.exists_report hloads.given (by decide)
    cases hmodels : b.models with
    | error e => exact absurd (hloads.fault_of_models hmodels) (h.first .models (by decide) _)
    | ok c =>
      -- no listed model is asked for, so there is none to have room for
      have hroom : w.hasRoom b o.model = true := by
        refine (hasRoom_iff hloads.keyed hmodels).mpr ?_
        rintro listed hlisted (hnone | hasked) m -
        · cases hmodel.symm.trans hnone
        · obtain rfl := Option.some.inj (hmodel.symm.trans hasked)
          exact absurd hlisted hname
      have herror : report b = .error (.unknownModel name) :=
        (report_eq_error_iff hreport hloads.keyed hmodels).mpr ⟨name, hmodel, hname, rfl⟩
      exact ⟨_, hloads.result_of_report hreport hroom herror, rfl⟩

/-- What is printed about the first thing that is wrong is all that is printed. -/
lemma FirstFault.run_eq (h : FirstFault w command arguments stage message) :
    run w (command.word :: arguments) = ⟨1, w.log, message⟩ := by
  obtain ⟨failure, hresult, houtcome⟩ := h.exists_result
  rw [CommandLine.run_eq, hresult, houtcome]

/-! ## The main result -/

/-- A struct with a slot for a key and two slots for values. -/
def moves : Decl := .struct "Moves" .empty [⟨"player", Decl.primitive "u64", .key⟩,
  ⟨"last", .array 2 (Decl.primitive "u32"), .empty⟩]

/-- A document with this struct, which is its only model. -/
def movesText : String :=
  "[251,\x7b\x7d,[[\"struct\",\"Moves\",\"\",[[\"player\",[\"primitive\",\"u64\"],\"KEY\"]," ++
    "[\"last\",[\"array\",2,[\"primitive\",\"u32\"]]]]]],[\"Moves\"]]"

/-- The bundle of the document, for words of a given size. -/
def movesBundle (wordBits : Nat) : Bundle :=
  ⟨wordBits, ∅, .offerAll .empty [moves], ["Moves"], defaultMaxDepth⟩

lemma ofText_movesText : Bundle.ofText movesText = .ok (movesBundle 251) := by
  have htext : Document.ofText? movesText = some ⟨some 251, ∅, [moves], ["Moves"]⟩ := by
    decide +kernel
  have hdistinct : Definitions.Distinct [moves] := by
    simp [Definitions.Distinct, moves, Decl.ownName?]
  exact (Bundle.ofText_eq_ok_iff htext).mpr ⟨hdistinct, rfl⟩

lemma model_movesBundle : (movesBundle 64).model "Moves" = .ok ⟨"Moves", .empty, [
    ⟨"player", .leaf ⟨"u64", 64⟩, .key⟩, ⟨"last", .array 2 (.leaf ⟨"u32", 32⟩), .empty⟩], 64,
      rfl⟩ := by
  have hget : (movesBundle 64).types.get? "Moves" = some moves :=
    Definitions.get?_offerAll_empty _ _
  have htable : (movesBundle 64).table = .standardFor 64 :=
    Bundle.table_of_primitives_eq_empty rfl
  have hroot : Scope.expand ⟨.standardFor 64, (movesBundle 64).types, defaultMaxDepth⟩ [] 0
      (Decl.named "Moves") = .ok (.struct "Moves" .empty [⟨"player", .leaf ⟨"u64", 64⟩, .key⟩,
        ⟨"last", .array 2 (.leaf ⟨"u32", 32⟩), .empty⟩]) := by
    rw [Decl.named, Scope.expand_named List.not_mem_nil hget]
    simp only [moves, Decl.primitive, Scope.expand, Scope.expandMembers]
    rfl
  refine Model.ofDecl_eq_ok_iff.mpr ?_
  rw [Bundle.scope, htable]
  exact Scope.resolve_of_expand_eq_ok hroot

lemma layoutOf_movesBundle :
    Report.layoutOf (movesBundle 64) "Moves" = .ok ("Moves\n  layout:        [64, 32, 32]\n" ++
      "  unpacked size: 3 (1 key, 2 value)\n  packed size:   2\n") := by
  have hkeyed : (movesBundle 64).types.Keyed := Definitions.keyed_offerAll_empty [moves]
  obtain ⟨c, hmodels⟩ := (Bundle.exists_models_iff hkeyed).mpr
    ⟨List.nodup_singleton "Moves", fun name hname => by
      obtain rfl := List.mem_singleton.mp hname
      exact ⟨_, model_movesBundle⟩⟩
  obtain ⟨m, hm, -, hreport⟩ :=
    Report.exists_reportOn_eq_ok hkeyed hmodels (List.mem_singleton_self "Moves")
  obtain rfl := Except.ok.inj (model_movesBundle.symm.trans hm)
  rw [Report.layoutOf_eq, hreport, Except.ok.injEq]
  decide +kernel

lemma loads_movesBundle (hfile : w.files "moves.json" = .bytes movesText.toUTF8) :
    Loads w ["-m", "Moves", "--word-bits", "64", "moves.json"]
      ⟨some "moves.json", some "Moves", some 64, none⟩ (movesBundle 64) := by
  have hgiven : Options.Given ["-m", "Moves", "--word-bits", "64", "moves.json"]
      ⟨some "moves.json", some "Moves", some 64, none⟩ :=
    Options.scan_eq_ok_iff.mp (by decide)
  exact ⟨movesText, _, ⟨hgiven, "moves.json", rfl, hfile⟩, ofText_movesText, rfl⟩

lemma hasRoomFor_movesBundle :
    HasRoomFor w (movesBundle 64) (some "Moves") ↔ 3 < w.room := by
  constructor
  · intro h
    exact h "Moves" (List.mem_singleton_self _) (.inr rfl) _ model_movesBundle
  · rintro hroom name hname - m hm
    obtain rfl := List.mem_singleton.mp hname
    obtain rfl := Except.ok.inj (model_movesBundle.symm.trans hm)
    exact hroom

end WordPacking.CommandLine
