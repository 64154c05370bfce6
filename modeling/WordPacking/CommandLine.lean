/-
# The command line

What a run with given arguments prints and which exit code it has, as a function of the arguments
and of its surroundings: what is found at the path of the schema file, what the reader of documents
says about a text that it refuses, what is logged, and how much room the machine has.  Only two
commands read a file; they either print their report, or nothing but one error.
-/
import WordPacking.Report

namespace WordPacking

namespace CommandLine

/-! ## Options -/

/-- The options of the commands that read a schema file. -/
structure Options where
  /-- The path of the schema file. -/
  path : Option String := none
  /-- The name of the one model that is asked for. -/
  model : Option String := none
  /-- A word size in place of that of the document. -/
  wordBits : Option Nat := none
  /-- A nesting limit in place of the default one. -/
  maxDepth : Option Nat := none
deriving DecidableEq, Repr

/-- Why arguments are no options. -/
inductive OptionError where
  /-- There is no such option, or its value is missing. -/
  | unknown (argument : String)
  /-- The value of an option is no number, or too large. -/
  | notANumber (option : String)
deriving DecidableEq, Repr

/-- The number that an argument stands for, if it is below a bound.  It may have a plus in
front. -/
def number? (bound : Nat) (argument : String) : Option Nat :=
  (Text.decimal? (Text.dropPlus argument.toList)).filter (· < bound)

/-- The bound of word sizes. -/
def wordBitsBound : Nat := UInt16.size

/-- The bound of nesting limits. -/
def maxDepthBound : Nat := UInt64.size

/-- Whether an argument looks like an option. -/
def isOption (argument : String) : Bool := argument.toList.head? = some '-'

namespace Options

/-- Takes a positional argument: the first one is the path, and further ones are passed over. -/
def withPositional (o : Options) (argument : String) : Options :=
  { o with path := o.path.or (some argument) }

/-- Takes the arguments from left to right.  An option takes the argument after it as its value,
whatever it looks like, and of an option that is there twice the later value stands. -/
def scan (o : Options) : List String → Except OptionError Options
  | [] => .ok o
  | [argument] =>
    if isOption argument then .error (.unknown argument) else .ok (o.withPositional argument)
  | argument :: value :: rest =>
    if argument = "--model" ∨ argument = "-m" then scan { o with model := some value } rest
    else if argument = "--word-bits" then
      match number? wordBitsBound value with
      | some n => scan { o with wordBits := some n } rest
      | none => .error (.notANumber argument)
    else if argument = "--max-depth" then
      match number? maxDepthBound value with
      | some n => scan { o with maxDepth := some n } rest
      | none => .error (.notANumber argument)
    else if isOption argument then .error (.unknown argument)
    else scan (o.withPositional argument) (value :: rest)

/-- The bundle with the overrides that the options ask for. -/
def override (o : Options) (b : Bundle) : Bundle :=
  let b := match o.wordBits with
    | some wordBits => b.withWordBits wordBits
    | none => b
  match o.maxDepth with
  | some maxDepth => b.withMaxDepth maxDepth
  | none => b

end Options

/-! ## Files -/

/-- What is found at a path. -/
inductive FileContents where
  /-- A file with these bytes. -/
  | bytes (contents : ByteArray)
  /-- Nothing. -/
  | missing
  /-- A directory. -/
  | directory
  /-- Something that cannot be read, for a reason that the system gives. -/
  | unreadable (reason : String)

/-- The text of a file, or why there is none. -/
def FileContents.text : FileContents → Except String String
  | bytes contents =>
    match String.fromUTF8? contents with
    | some text => .ok text
    | none => .error "stream did not contain valid UTF-8"
  | missing => .error "No such file or directory (os error 2)"
  | directory => .error "Is a directory (os error 21)"
  | unreadable reason => .error reason

/-! ## What a run depends on -/

/-- What a run leaves behind. -/
structure Outcome where
  /-- The exit code. -/
  exitCode : Nat
  /-- What is printed. -/
  stdout : String
  /-- What is printed about errors. -/
  stderr : String
deriving DecidableEq, Repr

/-- What a run depends on besides its arguments. -/
structure Surroundings where
  /-- What is found at each path. -/
  files : String → FileContents
  /-- What the reader of documents says about a text that it refuses.  By default this is left
  open. -/
  explain : String → String := fun _ => "..."
  /-- What is logged while a report is made.  It goes where the report goes, and before it.  Nothing
  is logged unless it is asked for. -/
  log : String := ""
  /-- The number of slots from which on the machine has no room for a layout.  The widths of the
  slots have 16 bits each, and no list has as many as 2 ^ 63 bytes, so this is 2 ^ 62 at most. -/
  room : Nat := 4611686018427387904
  /-- What a run leaves behind that the machine stops for want of room. -/
  stopped : Outcome := ⟨101, "", ""⟩

instance : Coe (String → FileContents) Surroundings := ⟨fun files => { files }⟩

/-! ## Reports on a schema file -/

/-- Why there is no report. -/
inductive Failure where
  /-- The arguments are no options. -/
  | options (cause : OptionError)
  /-- One model has to be named and is not. -/
  | missingModel
  /-- No path is given. -/
  | missingPath
  /-- The schema file cannot be read. -/
  | unreadable (path reason : String)
  /-- The schema file holds no document, as the reader explains. -/
  | invalidDocument (explanation : String)
  /-- A type of the document cannot be registered. -/
  | register (cause : RegisterError)
  /-- The models cannot be made, or the one that is asked for is not there. -/
  | model (cause : ModelError)
  /-- The machine has no room for a layout. -/
  | noRoom
deriving DecidableEq, Repr

/-- The text of an error in the options. -/
def OptionError.message : OptionError → String
  | unknown argument => "unknown or incomplete option `" ++ argument ++ "`"
  | notANumber option => "`" ++ option ++ "` expects a number"

/-- What the program says about a failure.  It is stopped for want of room before it says
anything. -/
def Failure.text : Failure → String
  | options cause => "error: " ++ cause.message ++ "\n"
  | missingModel =>
    "error: missing --model\nUsage: strata plan <schema.json> --model <name>\n"
  | missingPath =>
    "error: missing schema file\nUsage: strata <layout|plan> <schema.json> [options]\n"
  | unreadable path reason => "error: cannot read `" ++ path ++ "`: " ++ reason ++ "\n"
  | invalidDocument explanation => "error: invalid schema document: " ++ explanation ++ "\n"
  | register cause => "error: " ++ cause.message ++ "\n"
  | model cause => "error: " ++ cause.message ++ "\n"
  | noRoom => ""

/-- The bundle of the schema file, with the overrides that the options ask for. -/
def loadBundle (w : Surroundings) (o : Options) : Except Failure Bundle :=
  match o.path with
  | none => .error .missingPath
  | some path =>
    match (w.files path).text with
    | .error reason => .error (.unreadable path reason)
    | .ok text =>
      match Bundle.ofText text with
      | .error .invalidDocument => .error (.invalidDocument (w.explain text))
      | .error (.register cause) => .error (.register cause)
      | .ok bundle => .ok (o.override bundle)

/-- Whether there is room for the layouts that a report is about: that of the one model which is
asked for, or those of all models. -/
def Surroundings.hasRoom (w : Surroundings) (b : Bundle) (asked : Option String) : Bool :=
  b.models.toOption.all fun catalogue => catalogue.models.all fun model =>
    !asked.all (· = model.name) || model.unpackedSize < w.room

/-- A report on a bundle, if there is room for the layouts in it. -/
def Surroundings.reportOn (w : Surroundings) (b : Bundle) (asked : Option String)
    (report : Bundle → Except ModelError String) : Except Failure String :=
  if w.hasRoom b asked then (report b).mapError .model else .error .noRoom

/-- The report of the command `layout`, on one model or on all. -/
def layout (w : Surroundings) (arguments : List String) : Except Failure String :=
  match Options.scan {} arguments with
  | .error cause => .error (.options cause)
  | .ok o =>
    match loadBundle w o with
    | .error failure => .error failure
    | .ok bundle =>
      match o.model with
      | some name => w.reportOn bundle (some name) fun bundle => Report.layoutOf bundle name
      | none => w.reportOn bundle none Report.layouts

/-- The report of the command `plan`, on one model. -/
def plan (w : Surroundings) (arguments : List String) : Except Failure String :=
  match Options.scan {} arguments with
  | .error cause => .error (.options cause)
  | .ok o =>
    match o.model with
    | none => .error .missingModel
    | some name =>
      match loadBundle w o with
      | .error failure => .error failure
      | .ok bundle => w.reportOn bundle (some name) fun bundle => Report.planOf bundle name

/-! ## Runs -/

/-- The outcome of a report: its text, or one error and no text.  What is logged stands before the
text. -/
def Outcome.ofReport (w : Surroundings) : Except Failure String → Outcome
  | .ok text => ⟨0, w.log ++ text, ""⟩
  | .error .noRoom => w.stopped
  | .error failure => ⟨1, w.log, failure.text⟩

/-- How the program is used. -/
def usage : String := Report.unlines [
  "Strata word packing inspector",
  "",
  "Usage: strata <command> [options]",
  "",
  "Commands:",
  "  layout <schema.json>   Show layout and sizes of every model",
  "  plan <schema.json>     Show which word each slot lands in",
  "  primitives             List the standard primitive widths",
  "  help                   Show this message",
  "  version                Show version",
  "",
  "Options:",
  "  -m, --model <name>     Select one model (required for plan)",
  "  --word-bits <n>        Override the storage word width",
  "  --max-depth <n>        Override the schema nesting ceiling",
  "",
  "Set RUST_LOG=strata=debug for diagnostics."]

/-- The name and the version of the program. -/
def version : String := "strata 0.1.0-alpha.1\n"

/-- The outcome of a run.  The arguments are texts: if one of them is none, the machine stops the
run before it begins.  The stack is taken to be as deep as the types are nested. -/
def run (w : Surroundings) : List String → Outcome
  | [] => ⟨0, usage, ""⟩
  | command :: arguments =>
    if command = "layout" then .ofReport w (layout w arguments)
    else if command = "plan" then .ofReport w (plan w arguments)
    else if command = "primitives" then ⟨0, Report.primitives .standard, ""⟩
    else if command = "help" ∨ command = "--help" ∨ command = "-h" then ⟨0, usage, ""⟩
    else if command = "version" ∨ command = "--version" ∨ command = "-V" then ⟨0, version, ""⟩
    else ⟨1, usage, "Unknown command: " ++ command ++ "\n\n"⟩

/-- The path that a run reads, if it comes to reading one. -/
def pathRead? : List String → Option String
  | [] => none
  | command :: arguments =>
    match Options.scan {} arguments with
    | .error _ => none
    | .ok o =>
      if command = "layout" ∨ (command = "plan" ∧ o.model.isSome) then o.path else none

end CommandLine

end WordPacking
