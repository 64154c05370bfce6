/-
# Arguments as items

The arguments that are scanned for options are a row of items: an item is a positional argument, or
an option together with the argument after it, which is its value whatever it looks like.  If the
row can be followed to the end of the arguments, the scan succeeds, and what it comes to is said for
each setting alone: the path is the first positional argument, and every other setting has the value
of the last option for it (`Given`).  Otherwise the row ends at an argument that begins no item, and
the scan fails with what is wrong there (`Refused`).  Both are said of the characters of the
arguments, and not by means of the scan.

The value of a setting depends on the items for this setting and on their order only.  So two
neighbours for different settings can be exchanged (`StandFor.swap`).
-/
import Mathlib.Tactic.Common
import WordPacking.CommandLine

namespace WordPacking.CommandLine

/-! ## Numbers -/

/-- The text stands for a number in decimal digits, with a plus in front or without. -/
def Spells (text : String) (n : Nat) : Prop :=
  ∃ digits : List Char, digits ≠ [] ∧ (∀ c ∈ digits, c.isDigit = true) ∧
    Nat.ofDigitChars 10 digits 0 = n ∧ (text.toList = digits ∨ text.toList = '+' :: digits)

lemma decimal?_eq_some_iff {digits : List Char} {n : Nat} : Text.decimal? digits = some n ↔
    digits ≠ [] ∧ (∀ c ∈ digits, c.isDigit = true) ∧ Nat.ofDigitChars 10 digits 0 = n := by
  simp [Text.decimal?, and_assoc]

lemma spells_iff {text : String} {n : Nat} :
    Spells text n ↔ Text.decimal? (Text.dropPlus text.toList) = some n := by
  constructor
  · rintro ⟨digits, hne, hdigits, hn, htext | htext⟩
    · -- digits are kept, as none of them is a plus
      have hkept : Text.dropPlus digits = digits := by
        cases digits with
        | nil => rfl
        | cons c digits =>
          have hc := hdigits c List.mem_cons_self
          have hplus : c ≠ '+' := by
            rintro rfl
            cases hc
          simp [Text.dropPlus, hplus]
      rw [htext, hkept]
      exact decimal?_eq_some_iff.mpr ⟨hne, hdigits, hn⟩
    · rw [htext]
      exact decimal?_eq_some_iff.mpr ⟨hne, hdigits, hn⟩
  · intro h
    obtain ⟨hne, hdigits, hn⟩ := decimal?_eq_some_iff.mp h
    refine ⟨_, hne, hdigits, hn, ?_⟩
    unfold Text.dropPlus
    split
    · next digits htext => exact .inr htext
    · exact .inl rfl

lemma number?_eq_some_iff {bound n : Nat} {text : String} :
    number? bound text = some n ↔ Spells text n ∧ n < bound := by
  rw [number?, Option.filter_eq_some_iff, spells_iff, decide_eq_true_eq]

/-- A text stands for one number at most. -/
lemma Spells.unique {text : String} {n n' : Nat} (h : Spells text n) (h' : Spells text n') :
    n = n' :=
  Option.some.inj ((spells_iff.mp h).symm.trans (spells_iff.mp h'))

/-! ## Items -/

/-- What an option sets. -/
inductive Setting where
  /-- The model that is asked for. -/
  | model
  /-- The size of a word. -/
  | wordBits
  /-- The nesting limit. -/
  | maxDepth
deriving DecidableEq, Repr

namespace Setting

/-- The options for a setting. -/
def flags : Setting → List String
  | model => ["--model", "-m"]
  | wordBits => ["--word-bits"]
  | maxDepth => ["--max-depth"]

/-- The bound of the numbers for a setting, if its values are numbers. -/
def bound? : Setting → Option Nat
  | model => none
  | wordBits => some 65536
  | maxDepth => some 18446744073709551616

/-- An option for the setting can have this value: a name can be any text, and a number has to be
one below its bound. -/
def Takes (s : Setting) (value : String) : Prop :=
  ∀ bound ∈ s.bound?, ∃ n, Spells value n ∧ n < bound

lemma takes_iff {s : Setting} {value : String} :
    s.Takes value ↔ ∀ bound ∈ s.bound?, (number? bound value).isSome = true := by
  simp only [Takes, ← number?_eq_some_iff, Option.isSome_iff_exists]

instance (s : Setting) (value : String) : Decidable (s.Takes value) :=
  decidable_of_iff _ takes_iff.symm

lemma isOption_of_mem_flags {s : Setting} {flag : String} (h : flag ∈ s.flags) :
    isOption flag = true := by
  cases s <;> simp only [flags, List.mem_cons, List.not_mem_nil, or_false] at h
  · rcases h with rfl | rfl <;> rfl
  · subst h
    rfl
  · subst h
    rfl

end Setting

/-- A part of the arguments that is taken at once. -/
inductive Item where
  /-- An argument that is neither an option nor the value of one. -/
  | positional (argument : String)
  /-- An option for a setting, and its value. -/
  | option (setting : Setting) (flag value : String)
deriving DecidableEq, Repr

namespace Item

/-- The arguments of an item. -/
def arguments : Item → List String
  | positional argument => [argument]
  | option _ flag value => [flag, value]

/-- A positional argument does not begin with a dash, and an option is one for its setting and has a
value for it. -/
def Fits : Item → Prop
  | positional argument => argument.toList.head? ≠ some '-'
  | option setting flag value => flag ∈ setting.flags ∧ setting.Takes value

instance : (item : Item) → Decidable item.Fits
  | positional argument => inferInstanceAs (Decidable (argument.toList.head? ≠ some '-'))
  | option setting flag value =>
    inferInstanceAs (Decidable (flag ∈ setting.flags ∧ setting.Takes value))

/-- The setting that an item is for, if it is an option. -/
def setting? : Item → Option Setting
  | positional _ => none
  | option setting _ _ => some setting

/-- The argument of a positional item. -/
def positional? : Item → Option String
  | positional argument => some argument
  | option _ _ _ => none

/-- The value of an item, if it is an option for this setting. -/
def valueFor? (s : Setting) : Item → Option String
  | positional _ => none
  | option setting _ value => if setting = s then some value else none

end Item

namespace Options

variable {o : Options} {items before after : List Item} {item x y : Item} {rest : List String}
  {e : OptionError}

/-- The value of the last option for a setting. -/
def lastFor? (s : Setting) (items : List Item) : Option String :=
  (items.filterMap (Item.valueFor? s)).getLast?

/-- The options that items stand for: the path is the first positional argument, and every other
setting has the value of the last option for it. -/
structure StandFor (items : List Item) (o : Options) : Prop where
  path : o.path = (items.filterMap Item.positional?).head?
  model : o.model = lastFor? .model items
  wordBits : Option.Rel Spells (lastFor? .wordBits items) o.wordBits
  maxDepth : Option.Rel Spells (lastFor? .maxDepth items) o.maxDepth

/-- The options of arguments that are a row of items. -/
def Given (arguments : List String) (o : Options) : Prop :=
  ∃ items : List Item, (∀ item ∈ items, item.Fits) ∧
    arguments = items.flatMap Item.arguments ∧ StandFor items o

/-- The options that items stand for, with the numbers as they are read. -/
def ofItems (items : List Item) : Options where
  path := (items.filterMap Item.positional?).head?
  model := lastFor? .model items
  wordBits := (lastFor? .wordBits items).bind (number? wordBitsBound)
  maxDepth := (lastFor? .maxDepth items).bind (number? maxDepthBound)

/-- The options after one more item. -/
def withItem (o : Options) : Item → Options
  | .positional argument => o.withPositional argument
  | .option .model _ value => { o with model := some value }
  | .option .wordBits _ value => { o with wordBits := number? wordBitsBound value }
  | .option .maxDepth _ value => { o with maxDepth := number? maxDepthBound value }

lemma lastFor?_cons (s : Setting) (item : Item) (items : List Item) :
    lastFor? s (item :: items) = (lastFor? s items).or (item.valueFor? s) := by
  unfold lastFor?
  rw [List.filterMap_cons]
  cases item.valueFor? s with
  | none => simp
  | some value =>
    rw [List.getLast?_cons]
    cases (items.filterMap (Item.valueFor? s)).getLast? <;> rfl

/-- One item after the other: the path stays once it is there, and a later value replaces the one
before it. -/
lemma foldl_withItem (o : Options) (items : List Item) : items.foldl withItem o =
    ⟨o.path.or (items.filterMap Item.positional?).head?, (lastFor? .model items).or o.model,
      (lastFor? .wordBits items).elim o.wordBits (number? wordBitsBound),
      (lastFor? .maxDepth items).elim o.maxDepth (number? maxDepthBound)⟩ := by
  induction items generalizing o with
  | nil => simp [lastFor?]
  | cons item items ih =>
    rw [List.foldl_cons, ih]
    simp only [lastFor?_cons, List.filterMap_cons]
    cases item with
    | positional argument => simp [withItem, withPositional, Item.positional?, Item.valueFor?]
    | option s flag value =>
      cases s with
      | model => simp [withItem, Item.positional?, Item.valueFor?]
      | wordBits =>
        cases hlast : lastFor? .wordBits items <;>
          simp [withItem, Item.positional?, Item.valueFor?]
      | maxDepth =>
        cases hlast : lastFor? .maxDepth items <;>
          simp [withItem, Item.positional?, Item.valueFor?]

lemma foldl_withItem_eq_ofItems (items : List Item) : items.foldl withItem {} = ofItems items := by
  rw [foldl_withItem, ofItems]
  cases lastFor? .wordBits items <;> cases lastFor? .maxDepth items <;> simp

lemma takes_of_lastFor? {s : Setting} {value : String} (hitems : ∀ item ∈ items, item.Fits)
    (h : value ∈ lastFor? s items) : s.Takes value := by
  obtain ⟨item, hitem, hvalue⟩ := List.mem_filterMap.mp (List.mem_of_getLast? h)
  have hfits := hitems item hitem
  cases item with
  | positional argument => cases hvalue
  | option setting flag value' =>
    simp only [Item.valueFor?, Option.ite_none_right_eq_some, Option.some.injEq] at hvalue
    obtain ⟨rfl, rfl⟩ := hvalue
    exact hfits.2

/-- A number is spelled by the last value for it, if this is one that the option can have. -/
lemma rel_spells_iff {value? : Option String} {n? : Option Nat} {bound : Nat}
    (h : ∀ value ∈ value?, ∃ n, Spells value n ∧ n < bound) :
    Option.Rel Spells value? n? ↔ n? = value?.bind (number? bound) := by
  cases value? with
  | none => cases n? <;> simp
  | some value =>
    obtain ⟨n, hspells, hbound⟩ := h value rfl
    rw [Option.bind_some, number?_eq_some_iff.mpr ⟨hspells, hbound⟩]
    constructor
    · rintro ⟨hother⟩
      rw [hspells.unique ‹_›]
    · rintro rfl
      exact .some hspells

lemma standFor_iff (hitems : ∀ item ∈ items, item.Fits) :
    StandFor items o ↔ o = ofItems items := by
  have hbits : Option.Rel Spells (lastFor? .wordBits items) o.wordBits ↔
      o.wordBits = (lastFor? .wordBits items).bind (number? wordBitsBound) :=
    rel_spells_iff fun value hvalue => takes_of_lastFor? hitems hvalue _ rfl
  have hdepth : Option.Rel Spells (lastFor? .maxDepth items) o.maxDepth ↔
      o.maxDepth = (lastFor? .maxDepth items).bind (number? maxDepthBound) :=
    rel_spells_iff fun value hvalue => takes_of_lastFor? hitems hvalue _ rfl
  constructor
  · intro h
    cases o
    simp only [ofItems, mk.injEq]
    exact ⟨h.path, h.model, hbits.mp h.wordBits, hdepth.mp h.maxDepth⟩
  · rintro rfl
    exact ⟨rfl, rfl, hbits.mpr rfl, hdepth.mpr rfl⟩

/-! ## The scan -/

/-- An argument that is no option is refused if it looks like one. -/
lemma scan_cons_of_forall_not_mem_flags {argument : String}
    (h : ∀ s : Setting, argument ∉ s.flags) :
    scan o (argument :: rest) =
      if isOption argument then .error (.unknown argument)
      else scan (o.withPositional argument) rest := by
  have hmodel := h .model
  have hbits := h .wordBits
  have hdepth := h .maxDepth
  simp only [Setting.flags, List.mem_cons, List.not_mem_nil, or_false] at hmodel hbits hdepth
  cases rest with
  | nil => rfl
  | cons value rest => rw [scan, if_neg hmodel, if_neg hbits, if_neg hdepth]

/-- An argument that does not look like an option is not taken for one. -/
lemma scan_positional_cons {argument : String} (h : argument.toList.head? ≠ some '-') :
    scan o (argument :: rest) = scan (o.withPositional argument) rest := by
  have hoption : ¬ isOption argument = true := by simpa [isOption] using h
  have hne : ∀ s : Setting, argument ∉ s.flags :=
    fun s hflag => hoption (Setting.isOption_of_mem_flags hflag)
  rw [scan_cons_of_forall_not_mem_flags hne, if_neg hoption]

/-- An option takes the argument after it. -/
lemma scan_option_cons {s : Setting} {flag value : String} (hflag : flag ∈ s.flags) :
    scan o (flag :: value :: rest) =
      if s.Takes value then scan (o.withItem (.option s flag value)) rest
      else .error (.notANumber flag) := by
  cases s with
  | model =>
    have hmodel : flag = "--model" ∨ flag = "-m" := by simpa [Setting.flags] using hflag
    rw [scan, if_pos hmodel]
    have htakes : Setting.model.Takes value := fun bound hbound => by cases hbound
    exact (if_pos htakes).symm
  | wordBits =>
    obtain rfl : flag = "--word-bits" := by simpa [Setting.flags] using hflag
    have htakes : Setting.wordBits.Takes value ↔ (number? wordBitsBound value).isSome = true :=
      Setting.takes_iff.trans (by simp [Setting.bound?, wordBitsBound, UInt16.size])
    rw [scan, if_neg (by decide), if_pos rfl]
    cases hn : number? wordBitsBound value <;> simp [htakes, withItem, hn]
  | maxDepth =>
    obtain rfl : flag = "--max-depth" := by simpa [Setting.flags] using hflag
    have htakes : Setting.maxDepth.Takes value ↔ (number? maxDepthBound value).isSome = true :=
      Setting.takes_iff.trans (by simp [Setting.bound?, maxDepthBound, UInt64.size])
    rw [scan, if_neg (by decide), if_neg (by decide), if_pos rfl]
    cases hn : number? maxDepthBound value <;> simp [htakes, withItem, hn]

/-- The scan takes one item at once. -/
lemma scan_item_append (hitem : item.Fits) :
    scan o (item.arguments ++ rest) = scan (o.withItem item) rest := by
  cases item with
  | positional argument => exact scan_positional_cons hitem
  | option s flag value =>
    obtain ⟨hflag, hvalue⟩ := hitem
    exact (scan_option_cons hflag).trans (if_pos hvalue)

lemma scan_items_append (hitems : ∀ item ∈ items, item.Fits) :
    scan o (items.flatMap Item.arguments ++ rest) = scan (items.foldl withItem o) rest := by
  induction items generalizing o with
  | nil => rfl
  | cons item items ih =>
    obtain ⟨hitem, hitems⟩ := List.forall_mem_cons.mp hitems
    rw [List.flatMap_cons, List.append_assoc, scan_item_append hitem, ih hitems, List.foldl_cons]

/-- Arguments that begin with no item, and what is wrong with the first one. -/
inductive Stuck : List String → OptionError → Prop
  /-- It looks like an option, but there is no such option. -/
  | unknown {argument : String} {rest : List String} (hdash : argument.toList.head? = some '-')
    (hunknown : ∀ s : Setting, argument ∉ s.flags) : Stuck (argument :: rest) (.unknown argument)
  /-- It is an option, but there is no argument after it. -/
  | incomplete {flag : String} {s : Setting} (hflag : flag ∈ s.flags) :
    Stuck [flag] (.unknown flag)
  /-- It is an option for a number, but its value is none. -/
  | notANumber {flag value : String} {rest : List String} {s : Setting} (hflag : flag ∈ s.flags)
    (hvalue : ¬ s.Takes value) : Stuck (flag :: value :: rest) (.notANumber flag)

/-- What is wrong with arguments that are a row of items up to one that begins no item. -/
def Refused (arguments : List String) (e : OptionError) : Prop :=
  ∃ (items : List Item) (rest : List String), (∀ item ∈ items, item.Fits) ∧
    arguments = items.flatMap Item.arguments ++ rest ∧ Stuck rest e

lemma scan_of_stuck (h : Stuck rest e) : scan o rest = .error e := by
  cases h with
  | unknown hdash hunknown =>
    rw [scan_cons_of_forall_not_mem_flags hunknown]
    exact if_pos (decide_eq_true hdash)
  | incomplete hflag => simp [scan, Setting.isOption_of_mem_flags hflag]
  | notANumber hflag hvalue => exact (scan_option_cons hflag).trans (if_neg hvalue)

/-- Arguments begin with an item, if there are any, or they are stuck. -/
lemma exists_item_append_or_stuck (argument : String) (arguments : List String) :
    (∃ (item : Item) (rest : List String), item.Fits ∧
      argument :: arguments = item.arguments ++ rest) ∨ ∃ e, Stuck (argument :: arguments) e := by
  by_cases hflag : ∃ s : Setting, argument ∈ s.flags
  · obtain ⟨s, hflag⟩ := hflag
    cases arguments with
    | nil => exact .inr ⟨_, .incomplete hflag⟩
    | cons value rest =>
      by_cases hvalue : s.Takes value
      · exact .inl ⟨.option s argument value, rest, ⟨hflag, hvalue⟩, rfl⟩
      · exact .inr ⟨_, .notANumber hflag hvalue⟩
  · by_cases hdash : argument.toList.head? = some '-'
    · exact .inr ⟨_, .unknown hdash (not_exists.mp hflag)⟩
    · exact .inl ⟨.positional argument, arguments, hdash, rfl⟩

/-- The arguments are a row of items, up to one that begins no item. -/
lemma exists_items (arguments : List String) : ∃ (items : List Item) (rest : List String),
    (∀ item ∈ items, item.Fits) ∧ arguments = items.flatMap Item.arguments ++ rest ∧
      (rest = [] ∨ ∃ e, Stuck rest e) := by
  induction hn : arguments.length using Nat.strongRecOn generalizing arguments with
  | ind n ih =>
    cases arguments with
    | nil => exact ⟨[], [], by simp, rfl, .inl rfl⟩
    | cons argument arguments =>
      rcases exists_item_append_or_stuck argument arguments with ⟨item, next, hitem, heq⟩ | hstuck
      · have hshorter : next.length < n := by
          rw [← hn, heq, List.length_append]
          cases item <;> simp [Item.arguments]
        obtain ⟨items, rest, hitems, rfl, hrest⟩ := ih _ hshorter next rfl
        refine ⟨item :: items, rest, List.forall_mem_cons.mpr ⟨hitem, hitems⟩, ?_, hrest⟩
        rw [heq, List.flatMap_cons, List.append_assoc]
      · exact ⟨[], argument :: arguments, by simp, rfl, .inr hstuck⟩

lemma scan_items (hitems : ∀ item ∈ items, item.Fits) :
    scan {} (items.flatMap Item.arguments) = .ok (ofItems items) := by
  have hscan : scan {} (items.flatMap Item.arguments ++ []) = scan (items.foldl withItem {}) [] :=
    scan_items_append hitems
  rw [List.append_nil, foldl_withItem_eq_ofItems] at hscan
  exact hscan

/-- The scan succeeds when the arguments are items, and comes to what these stand for. -/
theorem scan_eq_ok_iff {arguments : List String} :
    scan {} arguments = .ok o ↔ Given arguments o := by
  constructor
  · intro h
    obtain ⟨items, rest, hitems, rfl, rfl | ⟨e, hstuck⟩⟩ := exists_items arguments
    · rw [List.append_nil, scan_items hitems] at h
      rw [List.append_nil]
      exact ⟨items, hitems, rfl, (standFor_iff hitems).mpr (Except.ok.inj h).symm⟩
    · rw [scan_items_append hitems, scan_of_stuck hstuck] at h
      cases h
  · rintro ⟨items, hitems, rfl, hstand⟩
    rw [scan_items hitems, (standFor_iff hitems).mp hstand]

/-- A value may look like an option, and it is none then. -/
example : scan {} ["a.json", "-m", "--max-depth", "b.json"] =
    .ok { path := some "a.json", model := some "--max-depth" } := by
  decide

/-- The scan fails at the first argument that begins no item. -/
theorem scan_eq_error_iff {arguments : List String} :
    scan {} arguments = .error e ↔ Refused arguments e := by
  constructor
  · intro h
    obtain ⟨items, rest, hitems, rfl, rfl | ⟨e', hstuck⟩⟩ := exists_items arguments
    · rw [List.append_nil, scan_items hitems] at h
      cases h
    · rw [scan_items_append hitems, scan_of_stuck hstuck] at h
      cases h
      exact ⟨items, rest, hitems, rfl, hstuck⟩
  · rintro ⟨items, rest, hitems, rfl, hstuck⟩
    rw [scan_items_append hitems, scan_of_stuck hstuck]

/-- The arguments determine the options. -/
lemma Given.unique {arguments : List String} {o' : Options} (h : Given arguments o)
    (h' : Given arguments o') : o = o' :=
  Except.ok.inj ((scan_eq_ok_iff.mpr h).symm.trans (scan_eq_ok_iff.mpr h'))

lemma Given.not_refused {arguments : List String} (h : Given arguments o) :
    ¬ Refused arguments e := by
  intro hrefused
  have herror := scan_eq_error_iff.mpr hrefused
  rw [scan_eq_ok_iff.mpr h] at herror
  cases herror

/-! ## The order of items -/

/-- Neighbours of which a function keeps one at most can be exchanged. -/
lemma filterMap_swap {f : Item → Option String} (h : f x = none ∨ f y = none) :
    (before ++ y :: x :: after).filterMap f = (before ++ x :: y :: after).filterMap f := by
  rw [List.filterMap_append, List.filterMap_append]
  congr 1
  rcases h with h | h <;> simp only [List.filterMap_cons, h]

/-- Neighbours for different settings can be exchanged. -/
theorem StandFor.swap (hstand : StandFor (before ++ x :: y :: after) o)
    (h : x.setting? ≠ y.setting?) : StandFor (before ++ y :: x :: after) o := by
  have hpath : x.positional? = none ∨ y.positional? = none := by
    cases x <;> cases y <;> simp_all [Item.setting?, Item.positional?]
  have hvalue : ∀ s, x.valueFor? s = none ∨ y.valueFor? s = none := by
    intro s
    cases x <;> cases y <;> grind [Item.setting?, Item.valueFor?]
  have hlast : ∀ s, lastFor? s (before ++ y :: x :: after) =
      lastFor? s (before ++ x :: y :: after) :=
    fun s => congrArg List.getLast? (filterMap_swap (hvalue s))
  refine ⟨?_, ?_, ?_, ?_⟩
  · rw [filterMap_swap hpath]
    exact hstand.path
  · rw [hlast]
    exact hstand.model
  · rw [hlast]
    exact hstand.wordBits
  · rw [hlast]
    exact hstand.maxDepth

lemma Fits.swap (h : ∀ item ∈ before ++ x :: y :: after, item.Fits) :
    ∀ item ∈ before ++ y :: x :: after, item.Fits := by
  intro item hitem
  refine h item ?_
  simp only [List.mem_append, List.mem_cons] at hitem ⊢
  tauto

/-- The scan comes to the same for arguments whose items are exchanged in this way. -/
theorem scan_swap (hitems : ∀ item ∈ before ++ x :: y :: after, item.Fits)
    (h : x.setting? ≠ y.setting?) :
    scan {} ((before ++ y :: x :: after).flatMap Item.arguments) =
      scan {} ((before ++ x :: y :: after).flatMap Item.arguments) := by
  have hstand : StandFor (before ++ x :: y :: after) (ofItems (before ++ x :: y :: after)) :=
    (standFor_iff hitems).mpr rfl
  rw [scan_items hitems]
  exact scan_eq_ok_iff.mpr ⟨_, Fits.swap hitems, rfl, hstand.swap h⟩

end Options

end WordPacking.CommandLine
