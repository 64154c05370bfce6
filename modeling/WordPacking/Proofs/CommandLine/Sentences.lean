/-
# What is printed about errors

The sentences of errors, with their words and figures written out.  A run prints the sentence of one
error at most, so what is said about its outcome is said about these texts, and not about the errors
that the program passes on inside.

Why a file cannot be read is said in the same way, from the bytes that are found there.
-/
import Mathlib.Tactic.Common
import WordPacking.CommandLine

namespace WordPacking

/-! ## Registering types -/

/-- The word for what a type is. -/
inductive Kind.Word : Kind → String → Prop
  | primitive : Word .primitive "primitive"
  | struct : Word .struct "struct"
  | array : Word .array "array"
  | enum : Word .enum "enum"
  | named : Word .named "named"

lemma Kind.word_iff {kind : Kind} {s : String} : kind.Word s ↔ s = kind.text := by
  constructor
  · intro h
    cases h <;> rfl
  · rintro rfl
    cases kind <;> constructor

/-- The sentence about a type that cannot be registered. -/
inductive RegisterError.Says : RegisterError → String → Prop
  | anonymous {kind : Kind} {word : String} (hword : kind.Word word) :
    Says (.anonymous kind) ("cannot register an anonymous " ++ word ++ " type")
  | duplicate {name : String} :
    Says (.duplicate name) ("type `" ++ name ++ "` is already registered")

lemma RegisterError.says_iff {e : RegisterError} {s : String} : e.Says s ↔ s = e.message := by
  constructor
  · intro h
    cases h with
    | anonymous hword =>
      rw [Kind.word_iff.mp hword]
      rfl
    | duplicate => rfl
  · rintro rfl
    cases e with
    | anonymous kind => exact .anonymous (Kind.word_iff.mpr rfl)
    | duplicate name => exact .duplicate

/-! ## Making models -/

/-- The sentence about a type that cannot be resolved.  A discriminant has 8 bits, so it tells 256
variants apart. -/
inductive ResolveError.Says : ResolveError → String → Prop
  | unknownPrimitive {name : String} :
    Says (.width (.unknown name)) ("unknown primitive `" ++ name ++ "`")
  | zeroWidth {name : String} :
    Says (.width (.zero name)) ("`" ++ name ++ "` has a width of zero bits")
  | oversized {name : String} {width wordBits : Nat} :
    Says (.width (.oversized name width wordBits)) ("`" ++ name ++ "` is " ++ toString width ++
      " bits wide but a word holds only " ++ toString wordBits ++ " bits")
  | wideDiscriminant {enum : String} {wordBits : Nat} :
    Says (.wideDiscriminant enum wordBits) ("`" ++ enum ++
      "::<discriminant>` is 8 bits wide but a word holds only " ++ toString wordBits ++ " bits")
  | tooManyVariants {enum : String} {count : Nat} :
    Says (.tooManyVariants enum count) ("enum `" ++ enum ++ "` has " ++ toString count ++
      " variants, the discriminant addresses at most 256")
  | unknownType {name : String} : Says (.unknownType name) ("unknown type `" ++ name ++ "`")
  | cyclic {path : List String} :
    Says (.cyclic path) ("cyclic schema: " ++ " -> ".intercalate path)
  | tooDeep {limit : Nat} :
    Says (.tooDeep limit) ("schema nesting exceeds the depth limit of " ++ toString limit)
  | tooLarge {name : String} : Says (.tooLarge (some name))
    ("schema `" ++ name ++ "` has more scalar slots than can be addressed")
  | tooLargeArray :
    Says (.tooLarge none) "schema `<array>` has more scalar slots than can be addressed"

/-- The largest number of variants is the one that the discriminant has room for. -/
lemma ResolveError.message_tooManyVariants (enum : String) (count : Nat) :
    (tooManyVariants enum count).message = "enum `" ++ enum ++ "` has " ++ toString count ++
      " variants, the discriminant addresses at most 256" := by
  have hmax : " variants, the discriminant addresses at most " ++ toString maxVariants =
      " variants, the discriminant addresses at most 256" := by decide +kernel
  rw [← hmax, ← String.append_assoc]
  rfl

lemma ResolveError.message_wideDiscriminant (enum : String) (wordBits : Nat) :
    (wideDiscriminant enum wordBits).message = "`" ++ enum ++
      "::<discriminant>` is 8 bits wide but a word holds only " ++ toString wordBits ++
        " bits" := by
  show oversizedText (enum ++ "::<discriminant>") discriminantBits wordBits = _
  have hopen : "::<discriminant>" ++ ("` is " ++ (toString discriminantBits ++
      " bits wide but a word holds only ")) =
      "::<discriminant>` is 8 bits wide but a word holds only " := by decide +kernel
  simp only [oversizedText, String.append_assoc, ← hopen]

lemma ResolveError.says_iff {e : ResolveError} {s : String} : e.Says s ↔ s = e.message := by
  constructor
  · intro h
    cases h with
    | wideDiscriminant => exact (message_wideDiscriminant _ _).symm
    | tooManyVariants => exact (message_tooManyVariants _ _).symm
    | _ => rfl
  · rintro rfl
    cases e with
    | width cause => cases cause <;> constructor
    | wideDiscriminant enum wordBits =>
      rw [message_wideDiscriminant]
      exact .wideDiscriminant
    | tooManyVariants enum count =>
      rw [message_tooManyVariants]
      exact .tooManyVariants
    | unknownType name => exact .unknownType
    | cyclic path => exact .cyclic
    | tooDeep limit => exact .tooDeep
    | tooLarge name =>
      cases name with
      | none => exact .tooLargeArray
      | some name => exact .tooLarge

/-- The sentence about a model that cannot be made or is not there. -/
inductive ModelError.Says : ModelError → String → Prop
  | resolve {cause : ResolveError} {s : String} (hcause : cause.Says s) : Says (.resolve cause) s
  | missingKey {name : String} :
    Says (.missingKey name) ("model `" ++ name ++ "` has no key members")
  | notAStruct {kind : Kind} {word : String} (hword : kind.Word word) :
    Says (.notAStruct kind) ("a model must be a struct, found " ++ word)
  | duplicateModel {name : String} :
    Says (.duplicateModel name) ("model `" ++ name ++ "` is already registered")
  | unknownModel {name : String} : Says (.unknownModel name) ("unknown model `" ++ name ++ "`")

lemma ModelError.Says.eq_message {e : ModelError} {s : String} (h : e.Says s) : s = e.message := by
  cases h with
  | resolve hcause => exact ResolveError.says_iff.mp hcause
  | notAStruct hword =>
    rw [Kind.word_iff.mp hword]
    rfl
  | _ => rfl

/-- There is a sentence about each error that making a model can end with. -/
lemma ModelError.says_message_of_model {b : Bundle} {name : String} {e : ModelError}
    (h : b.model name = .error e) : e.Says e.message := by
  unfold Bundle.model Model.ofDecl at h
  cases hresolve : b.scope.resolve (Decl.named name) with
  | error cause =>
    rw [hresolve] at h
    cases h
    exact .resolve (ResolveError.says_iff.mpr rfl)
  | ok schema =>
    rw [hresolve] at h
    simp only [Model.ofSchema] at h
    split at h
    · split at h
      · cases h
      · cases h
        exact .missingKey
    · cases h
      exact .notAStruct (Kind.word_iff.mpr rfl)

namespace CommandLine

/-! ## Options -/

/-- The sentence about an argument that is no option. -/
inductive OptionError.Says : OptionError → String → Prop
  | unknown {argument : String} :
    Says (.unknown argument) ("unknown or incomplete option `" ++ argument ++ "`")
  | notANumber {option : String} :
    Says (.notANumber option) ("`" ++ option ++ "` expects a number")

lemma OptionError.says_iff {e : OptionError} {s : String} : e.Says s ↔ s = e.message := by
  constructor
  · intro h
    cases h <;> rfl
  · rintro rfl
    cases e with
    | unknown argument => exact .unknown
    | notANumber option => exact .notANumber

/-! ## Files -/

/-- Why there is no text in what is found at a path. -/
inductive FileContents.Unreadable : FileContents → String → Prop
  /-- The bytes are those of no text. -/
  | notText {contents : ByteArray} (h : ∀ text : String, text.toUTF8 ≠ contents) :
    Unreadable (.bytes contents) "stream did not contain valid UTF-8"
  | missing : Unreadable .missing "No such file or directory (os error 2)"
  | directory : Unreadable .directory "Is a directory (os error 21)"
  | other {reason : String} : Unreadable (.unreadable reason) reason

lemma fromUTF8?_eq_some_iff {contents : ByteArray} {text : String} :
    String.fromUTF8? contents = some text ↔ text.toUTF8 = contents := by
  unfold String.fromUTF8?
  constructor
  · intro h
    split at h
    · cases h
      rfl
    · cases h
  · rintro rfl
    rw [String.toUTF8_eq_toByteArray, dif_pos text.isValidUTF8]
    rfl

/-- The text of a file is the one whose bytes are in it. -/
lemma FileContents.text_eq_ok_iff {contents : FileContents} {text : String} :
    contents.text = .ok text ↔ contents = .bytes text.toUTF8 := by
  cases contents with
  | bytes contents =>
    rw [FileContents.text, FileContents.bytes.injEq, eq_comm (a := contents),
      ← fromUTF8?_eq_some_iff]
    cases String.fromUTF8? contents <;> simp
  | _ => simp [FileContents.text]

lemma FileContents.text_eq_error_iff {contents : FileContents} {reason : String} :
    contents.text = .error reason ↔ contents.Unreadable reason := by
  constructor
  · intro h
    cases contents with
    | bytes contents =>
      rw [FileContents.text] at h
      cases htext : String.fromUTF8? contents with
      | some text =>
        rw [htext] at h
        cases h
      | none =>
        rw [htext] at h
        cases h
        refine .notText fun text hbytes => ?_
        rw [fromUTF8?_eq_some_iff.mpr hbytes] at htext
        cases htext
    | missing =>
      cases h
      exact .missing
    | directory =>
      cases h
      exact .directory
    | unreadable reason =>
      cases h
      exact .other
  · intro h
    cases h with
    | @notText contents htext =>
      have hnone : String.fromUTF8? contents = none := by
        rw [Option.eq_none_iff_forall_ne_some]
        intro text hsome
        exact htext text (fromUTF8?_eq_some_iff.mp hsome)
      rw [FileContents.text, hnone]
    | _ => rfl

end CommandLine

end WordPacking
