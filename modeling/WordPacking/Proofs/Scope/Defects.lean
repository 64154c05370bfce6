/-
# What errors say

An error of resolving is about a place that the walk comes to (`Scope.exists_defect_of_resolve`).
Such a place is a part of the type, or of a definition that the type leads to: a step into an
element, a member or a variant stays inside the same declaration, and a reference goes on to a
definition whose name is reached (`uses_of_steps`).  So each error can be read as a statement on the
declared type, the width table and the definitions, without the walk (`Scope.Faults`).

Which of several defects is reported does depend on the walk: it is the first one.
-/
import WordPacking.Proofs.Schema.SlotCounts

namespace WordPacking

/-! ## Texts -/

/-- What an error says to be wider than a word, with its width and the size of a word. -/
def ResolveError.oversized? : ResolveError → Option (String × Nat × Nat)
  | .width (.oversized name bits wordBits) => some (name, bits, wordBits)
  | .wideDiscriminant enum wordBits => some (enum ++ "::<discriminant>", discriminantBits, wordBits)
  | _ => none

/-- Primitives and discriminants are reported in the same words. -/
lemma ResolveError.message_of_oversized? {e : ResolveError} {name : String} {bits wordBits : Nat}
    (h : e.oversized? = some (name, bits, wordBits)) :
    e.message = oversizedText name bits wordBits := by
  unfold oversized? at h
  split at h <;> cases h <;> rfl

/-- A text begins in one of several ways. -/
def OpensWith (openings : List String) (text : String) : Prop :=
  ∃ opening ∈ openings, ∃ rest, text = opening ++ rest

namespace OpensWith

variable {openings : List String} {text : String}

lemma of_mem {opening : String} (h : opening ∈ openings) (rest : String) :
    OpensWith openings (opening ++ rest) := ⟨opening, h, rest, rfl⟩

lemma append (h : OpensWith openings text) (more : String) :
    OpensWith openings (text ++ more) := by
  obtain ⟨opening, hopening, rest, rfl⟩ := h
  exact ⟨opening, hopening, rest ++ more, String.append_assoc ..⟩

end OpensWith

/-- How the texts of the errors of resolving begin. -/
def ResolveError.openings : List String :=
  ["unknown primitive `", "`", "enum `", "unknown type `", "cyclic schema: ",
    "schema nesting exceeds the depth limit of ", "schema `"]

/-- How the texts of the errors of registering begin. -/
def RegisterError.openings : List String := ["cannot register an anonymous ", "type `"]

lemma opensWith_oversizedText (name : String) (bits wordBits : Nat) :
    OpensWith ResolveError.openings (oversizedText name bits wordBits) :=
  (((((OpensWith.of_mem (by simp [ResolveError.openings]) name).append _).append _).append _).append
    _).append _

lemma ResolveError.opensWith_message (e : ResolveError) : OpensWith openings e.message := by
  cases e with
  | width cause =>
    cases cause with
    | unknown name => exact (OpensWith.of_mem (by simp [openings]) name).append _
    | zero name => exact (OpensWith.of_mem (by simp [openings]) name).append _
    | oversized name bits wordBits => exact opensWith_oversizedText name bits wordBits
  | wideDiscriminant enum wordBits => exact opensWith_oversizedText _ discriminantBits wordBits
  | tooManyVariants enum count =>
    exact ((((OpensWith.of_mem (by simp [openings]) enum).append _).append _).append _).append _
  | unknownType name => exact (OpensWith.of_mem (by simp [openings]) name).append _
  | cyclic path => exact OpensWith.of_mem (by simp [openings]) _
  | tooDeep limit => exact OpensWith.of_mem (by simp [openings]) _
  | tooLarge name => exact (OpensWith.of_mem (by simp [openings]) _).append _

lemma RegisterError.opensWith_message (e : RegisterError) : OpensWith openings e.message := by
  cases e with
  | anonymous kind => exact (OpensWith.of_mem (by simp [openings]) _).append _
  | duplicate name => exact (OpensWith.of_mem (by simp [openings]) name).append _

/-- No error of resolving reads like one of registering. -/
lemma ResolveError.message_ne (e : ResolveError) (r : RegisterError) : e.message ≠ r.message := by
  have hapart : ∀ a ∈ ResolveError.openings, ∀ b ∈ RegisterError.openings,
      ¬ a.toList <+: b.toList ∧ ¬ b.toList <+: a.toList := by decide +kernel
  obtain ⟨a, ha, x, hx⟩ := e.opensWith_message
  obtain ⟨b, hb, y, hy⟩ := r.opensWith_message
  obtain ⟨hab, hba⟩ := hapart a ha b hb
  intro h
  have hsame : a.toList ++ x.toList = b.toList ++ y.toList := by
    rw [← String.toList_append, ← String.toList_append, ← hx, ← hy, h]
  have hleft : a.toList <+: a.toList ++ x.toList := List.prefix_append _ _
  have hright : b.toList <+: a.toList ++ x.toList := hsame ▸ List.prefix_append _ _
  exact (List.prefix_or_prefix_of_prefix hleft hright).elim hab hba

/-! ## Widths -/

lemma WidthTable.widthOf_eq_error_iff {t : WidthTable} {name : String} {cause : WidthError} :
    t.widthOf name = .error cause ↔
      (t.get? name = none ∧ cause = .unknown name) ∨
      (t.get? name = some 0 ∧ cause = .zero name) ∨
      ∃ width, t.get? name = some width ∧ t.wordBits < width ∧
        cause = .oversized name width t.wordBits := by
  unfold widthOf
  cases hget : t.get? name with
  | none => simp [eq_comm]
  | some width =>
    rcases Nat.eq_zero_or_pos width with rfl | hpos
    · simp [eq_comm]
    · have hne : width ≠ 0 := Nat.ne_of_gt hpos
      by_cases hlt : t.wordBits < width
      · simp [hne, hlt, eq_comm]
      · simp [hne, hlt]

/-! ## Declarations -/

namespace Definitions

/-- A type has a part in it, or a definition that the type leads to does. -/
def Uses (ds : Definitions) (d part : Decl) : Prop :=
  part.PartOf d ∨ ∃ n definition, ds.Reaches d n ∧ ds.get? n = some definition ∧
    part.PartOf definition

end Definitions

namespace Scope

variable {s : Scope} {d : Decl}

/-- The parts of the types at all places are used. -/
lemma uses_of_steps {v : Visit} {part : Decl} (h : Relation.ReflTransGen s.Step ⟨[], 0, d⟩ v)
    (hpart : part.PartOf v.type) : s.definitions.Uses d part := by
  induction h with
  | refl => exact Or.inl hpart
  | tail hsteps hstep ih =>
    cases hstep with
    | @reference path depth name definition hname hd =>
      have hreach := (trail_of_steps hsteps).reached name (by simp)
      exact Or.inr ⟨name, definition, hreach, hd, hpart⟩
    | element => exact ih (.element hpart)
    | member hm => exact ih (.member hm hpart)
    | variant hv => exact ih (.variant hv hpart)

/-- What an error says about a type, in terms of what is declared. -/
def Faults (s : Scope) (d : Decl) : ResolveError → Prop
  | .width (.unknown n) => s.definitions.Uses d (Decl.primitive n) ∧ s.table.get? n = none
  | .width (.zero n) => s.definitions.Uses d (Decl.primitive n) ∧ s.table.get? n = some 0
  | .width (.oversized n bits wordBits) =>
    s.definitions.Uses d (Decl.primitive n) ∧ s.table.get? n = some bits ∧
      wordBits = s.table.wordBits ∧ wordBits < bits
  | .wideDiscriminant n wordBits =>
    (∃ variants, s.definitions.Uses d (.enum n variants)) ∧ wordBits = s.table.wordBits ∧
      wordBits < 8
  | .tooManyVariants n count =>
    maxVariants = 256 ∧ 256 < count ∧
      ∃ variants, s.definitions.Uses d (.enum n variants) ∧ variants.length = count
  | .unknownType n => s.definitions.Reaches d n ∧ s.definitions.get? n = none
  | .cyclic names => s.definitions.Cycle d names
  | .tooDeep limit =>
    limit = s.maxDepth ∧ ∃ v, Relation.ReflTransGen s.Step ⟨[], 0, d⟩ v ∧ v.path.Nodup ∧
      limit ≤ v.depth ∧ 0 < v.type.nesting
  | .tooLarge name => ∃ t : Shape String, s.definitions.Expands d t ∧ name = t.name? id ∧
      ∃ p : Shape String, p.PartOf t ∧ 2 ^ 64 ≤ p.size

/-- A defect of a place that the walk comes to is a fault of the type. -/
lemma faults_of_defect {v : Visit} {e : ResolveError}
    (h : Relation.ReflTransGen s.Step ⟨[], 0, d⟩ v) (hdefect : s.Defect v e) : s.Faults d e := by
  have htrail := trail_of_steps h
  cases hdefect with
  | @width path depth name cause hwidth =>
    have huses : s.definitions.Uses d (Decl.primitive name) := uses_of_steps h .self
    rcases WidthTable.widthOf_eq_error_iff.mp hwidth with ⟨hget, rfl⟩ | ⟨hget, rfl⟩ |
      ⟨width, hget, hlt, rfl⟩
    · exact ⟨huses, hget⟩
    · exact ⟨huses, hget⟩
    · exact ⟨huses, hget, rfl, hlt⟩
  | cyclic hname => exact htrail.cycle hname
  | unknownType hd => exact ⟨htrail.reached _ (by simp), hd⟩
  | tooManyVariants hcount => exact ⟨rfl, hcount, _, uses_of_steps h .self, rfl⟩
  | wideDiscriminant hbits => exact ⟨⟨_, uses_of_steps h .self⟩, rfl, hbits⟩
  | tooDeep hdeep hnesting => exact ⟨rfl, _, h, htrail.nodup, hdeep, hnesting⟩

/-- Every error of resolving names a fault of the type. -/
lemma faults_of_resolve {e : ResolveError} (h : s.resolve d = .error e) : s.Faults d e := by
  by_cases hsize : ∃ name, e = .tooLarge name
  · obtain ⟨name, rfl⟩ := hsize
    obtain ⟨t, ht, -, -, hlarge, hname⟩ := resolve_eq_tooLarge_iff.mp h
    exact ⟨t, ht, hname, Shape.not_addressable_iff.mp hlarge⟩
  · obtain ⟨v, hv, hdefect⟩ := exists_defect_of_resolve h (not_exists.mp hsize)
    exact faults_of_defect hv hdefect

/-- What is reported is the first defect along the places, unless the type is too large. -/
lemma resolve_eq_first_defect_iff {e : ResolveError} :
    (s.resolve d = .error e ∧ ∀ name, e ≠ .tooLarge name) ↔
      ∃ before v after, s.visits ⟨[], 0, d⟩ = before ++ v :: after ∧
        (∀ u ∈ before, s.defect? u = none) ∧ s.defect? v = some e := by
  have hfirst : s.expand [] 0 d = .error e ↔
      ∃ before v after, s.visits ⟨[], 0, d⟩ = before ++ v :: after ∧
        (∀ u ∈ before, s.defect? u = none) ∧ s.defect? v = some e := by
    rw [← errorOf_eq_some_iff, errorOf_expand, List.findSome?_eq_some_iff]
    simp only [and_comm]
  rw [← hfirst]
  constructor
  · rintro ⟨h, hsize⟩
    exact expand_of_resolve_eq_error h hsize
  · intro h
    refine ⟨resolve_of_expand_eq_error h, ?_⟩
    rintro name rfl
    obtain ⟨v, -, hdefect⟩ := exists_defect_of_expand h
    cases hdefect

/-- **Every error names a real defect, the first one that there is.**  What an error of resolving
says is true of the declared type, of the definitions that it leads to, and of the width table.
What is reported as wider than a word is so: a primitive with this entry that is used, or the eight
bits of the discriminant of an enum that is used.  No error reads as if a type could not be
registered.  And of several defects the one that is reported is the first one along the places of
the type, where each place is followed by those inside it in declaration order, and the checks of an
enum on itself come before that of its depth; only a type without a defect can be too large. -/
theorem resolve_errors_exact (s : Scope) (d : Decl) :
    (∀ e, s.resolve d = .error e → s.Faults d e) ∧
    (∀ e n bits wordBits, s.resolve d = .error e → e.oversized? = some (n, bits, wordBits) →
      e.message = oversizedText n bits wordBits ∧ wordBits = s.table.wordBits ∧ wordBits < bits ∧
        (s.definitions.Uses d (Decl.primitive n) ∧ s.table.get? n = some bits ∨
          bits = 8 ∧ ∃ enum variants, n = enum ++ "::<discriminant>" ∧
            s.definitions.Uses d (.enum enum variants))) ∧
    (∀ e (r : RegisterError), s.resolve d = .error e → e.message ≠ r.message) ∧
    ∀ e, (s.resolve d = .error e ∧ ∀ name, e ≠ .tooLarge name) ↔
      ∃ before v after, s.visits ⟨[], 0, d⟩ = before ++ v :: after ∧
        (∀ u ∈ before, s.defect? u = none) ∧ s.defect? v = some e := by
  refine ⟨fun e => faults_of_resolve, ?_, fun e r _ => e.message_ne r,
    fun e => resolve_eq_first_defect_iff⟩
  intro e n bits wordBits h hoversized
  refine ⟨ResolveError.message_of_oversized? hoversized, ?_⟩
  have hfaults := faults_of_resolve h
  unfold ResolveError.oversized? at hoversized
  split at hoversized
  · cases hoversized
    obtain ⟨huses, hget, hword, hlt⟩ := hfaults
    exact ⟨hword, hlt, Or.inl ⟨huses, hget⟩⟩
  · cases hoversized
    obtain ⟨⟨variants, huses⟩, hword, hlt⟩ := hfaults
    exact ⟨hword, hlt, Or.inr ⟨rfl, _, variants, rfl, huses⟩⟩
  · cases hoversized

/-- An enum that is too deep, has no room for its discriminant and has a variant without a width,
before a member of an unknown type.  Its discriminant is what is reported. -/
theorem resolve_errors_exact_state :
    let s : Scope := ⟨(WidthTable.empty 4).insert "none" 0, .empty, 1⟩
    let state : Decl := .enum "State" [⟨"On", Decl.primitive "none"⟩]
    let d : Decl := .struct "Cell" .empty [
      ⟨"state", state, .empty⟩, ⟨"next", Decl.named "Missing", .empty⟩]
    let e : ResolveError := .wideDiscriminant "State" 4
    s.resolve d = .error e ∧ s.Faults d e ∧
      e.oversized? = some ("State::<discriminant>", 8, 4) ∧ 4 < 8 ∧
      e.message ≠ (RegisterError.duplicate "State").message ∧
      ∃ before v after, s.visits ⟨[], 0, d⟩ = before ++ v :: after ∧
        (∀ u ∈ before, s.defect? u = none) ∧ s.defect? v = some e := by
  intro s state d e
  obtain ⟨hfaults, hoversized, hmessage, hfirst⟩ := resolve_errors_exact s d
  have he : s.resolve d = .error e := by
    simp only [d, state, Decl.primitive, Scope.resolve, Scope.expand, Scope.expandMembers,
      Scope.expandVariants]
    rfl
  have hview : e.oversized? = some ("State::<discriminant>", 8, 4) := rfl
  exact ⟨he, hfaults e he, hview, (hoversized e _ _ _ he hview).2.2.1, hmessage e _ he,
    (hfirst e).mp ⟨he, by simp [e]⟩⟩

end Scope

end WordPacking
