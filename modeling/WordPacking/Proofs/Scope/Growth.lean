/-
# What more definitions change

A type is resolved against what is known: widths, definitions, and how deeply types may be
nested.  When more becomes known, the walk over the type goes the same way as before, up to the
place where it asked for something that was not known.  So the only results that can change are
errors that say that something is missing (`resolve_of_grows`); every other result stays exactly
as it is, with all that an error says.

Definitions only ever grow, as a name is registered once and for all.  A width table grows by
entries of new names.
-/
import WordPacking.Proofs.Definitions.Run
import WordPacking.Proofs.Scope.Walk

namespace WordPacking

section Except

variable {ε α β : Type} {lost : ε → Prop}

/-- A result that is not one of the errors that may be lost. -/
def Kept (lost : ε → Prop) (x : Except ε α) : Prop := ∀ e, x = .error e → ¬ lost e

lemma kept_map_iff {x : Except ε α} {f : α → β} : Kept lost (x.map f) ↔ Kept lost x := by
  simp only [Kept, except_map_eq_error_iff]

lemma mapM_eq_of_kept {f g : α → Except ε β} {l : List α}
    (h : ∀ a ∈ l, Kept lost (f a) → g a = f a) (hl : Kept lost (l.mapM f)) :
    l.mapM g = l.mapM f := by
  induction l with
  | nil => rfl
  | cons a l ih =>
    obtain ⟨ha, htail⟩ := List.forall_mem_cons.mp h
    rw [List.mapM_cons] at hl
    rw [List.mapM_cons, List.mapM_cons]
    cases hf : f a with
    | error e =>
      have hkept : Kept lost (f a) := fun e' he' => hl e' (by rw [he']; rfl)
      rw [ha hkept, hf]
      rfl
    | ok b =>
      have hkept : Kept lost (f a) := by simp [Kept, hf]
      have hrest : Kept lost (l.mapM f) := fun e he => hl e (by rw [hf, he]; rfl)
      rw [ha hkept, hf, ih htail hrest]

end Except

namespace Scope

variable {lost : ResolveError → Prop} {s s' : Scope}

/-- `s'` knows more than `s`.  Where they differ, `s` has no width or definition or stops at its
limit, and the error that says so is one of those that may be lost. -/
structure Grows (lost : ResolveError → Prop) (s s' : Scope) : Prop where
  /-- Words are of the same size. -/
  wordBits : s'.table.wordBits = s.table.wordBits
  /-- Primitives with a usable width keep it. -/
  widths : ∀ name, s'.table.widthOf name = s.table.widthOf name ∨
    ∃ cause, s.table.widthOf name = .error cause ∧ lost (.width cause)
  /-- Names with a definition keep it. -/
  definitions : ∀ name, s'.definitions.get? name = s.definitions.get? name ∨
    s.definitions.get? name = none ∧ lost (.unknownType name)
  /-- The limit stays, or is raised. -/
  maxDepth : s'.maxDepth = s.maxDepth ∨
    s.maxDepth ≤ s'.maxDepth ∧ lost (.tooDeep s.maxDepth)

/-- A result below the nesting limit is the same when that limit grows. -/
lemma Grows.guard {α : Type} {depth : Nat} {x x' : Except ResolveError α} (h : s.Grows lost s')
    (hx : Kept lost x → x' = x)
    (hkept : Kept lost (if s.maxDepth ≤ depth then .error (.tooDeep s.maxDepth) else x)) :
    (if s'.maxDepth ≤ depth then .error (.tooDeep s'.maxDepth) else x') =
      if s.maxDepth ≤ depth then .error (.tooDeep s.maxDepth) else x := by
  by_cases hdepth : s.maxDepth ≤ depth
  · rw [if_pos hdepth] at hkept ⊢
    have hstays : ¬ lost (.tooDeep s.maxDepth) := hkept _ rfl
    have hsame : s'.maxDepth = s.maxDepth := h.maxDepth.resolve_right fun hlost => hstays hlost.2
    rw [hsame, if_pos hdepth]
  · have hdepth' : ¬ s'.maxDepth ≤ depth := by
      rcases h.maxDepth with hsame | ⟨hle, -⟩ <;> omega
    rw [if_neg hdepth] at hkept ⊢
    rw [if_neg hdepth', hx hkept]

/-- The walk goes the same way when more is known, unless it ends where something is missing. -/
theorem expand_of_grows (h : s.Grows lost s') {path : List String} {depth : Nat} {d : Decl}
    (hkept : Kept lost (s.expand path depth d)) :
    s'.expand path depth d = s.expand path depth d := by
  induction path, d using s.walk_induction generalizing depth with
  | primitive path name =>
    rw [expand_primitive] at hkept
    rw [expand_primitive, expand_primitive]
    rcases h.widths name with hsame | ⟨cause, hwidth, hlost⟩
    · rw [hsame]
    · rw [hwidth] at hkept
      exact absurd hlost (hkept _ rfl)
  | repeated path name hname => rw [expand_repeated hname, expand_repeated hname]
  | unknown path name hname hd =>
    rw [expand_unknown hname hd] at hkept ⊢
    rcases h.definitions name with hsame | ⟨-, hlost⟩
    · rw [expand_unknown hname (hsame.trans hd)]
    · exact absurd hlost (hkept _ rfl)
  | named path name definition hname hd ih =>
    have hd' : s'.definitions.get? name = some definition := by
      rcases h.definitions name with hsame | ⟨hnone, -⟩
      · exact hsame.trans hd
      · rw [hd] at hnone
        cases hnone
    rw [expand_named hname hd] at hkept ⊢
    rw [expand_named hname hd']
    exact ih hkept
  -- from here on the guards are the same, and the parts are walked over alike
  | array path capacity element ih =>
    rw [expand_array] at hkept
    rw [expand_array, expand_array]
    exact h.guard (fun hx => by rw [ih (kept_map_iff.mp hx)]) hkept
  | struct path name attrs members ih =>
    rw [expand_struct] at hkept
    rw [expand_struct, expand_struct]
    refine h.guard (fun hx => ?_) hkept
    rw [mapM_eq_of_kept (fun m hm hm' => ?_) (kept_map_iff.mp hx)]
    rw [expandMember, expandMember, ih m hm (kept_map_iff.mp hm')]
  | enum path name variants ih =>
    rw [expand_enum] at hkept
    rw [expand_enum, expand_enum, h.wordBits]
    split
    · rfl
    · next hcount =>
      rw [if_neg hcount] at hkept
      split
      · rfl
      · next hbits =>
        rw [if_neg hbits] at hkept
        refine h.guard (fun hx => ?_) hkept
        rw [mapM_eq_of_kept (fun v hv hv' => ?_) (kept_map_iff.mp hx)]
        rw [expandVariant, expandVariant, ih v hv (kept_map_iff.mp hv')]

/-- A type is resolved to the same result when more is known, unless something is missing. -/
theorem resolve_of_grows (h : s.Grows lost s') {d : Decl} (hkept : Kept lost (s.resolve d)) :
    s'.resolve d = s.resolve d := by
  cases hroot : s.expand [] 0 d with
  | error e =>
    have hresolve := resolve_of_expand_eq_error hroot
    have hwalk : Kept lost (s.expand [] 0 d) := by
      intro e' he'
      rw [hroot] at he'
      cases he'
      exact hkept e hresolve
    rw [hresolve]
    exact resolve_of_expand_eq_error ((expand_of_grows h hwalk).trans hroot)
  | ok root =>
    have hwalk : Kept lost (s.expand [] 0 d) := by simp [Kept, hroot]
    rw [resolve_of_expand_eq_ok hroot,
      resolve_of_expand_eq_ok ((expand_of_grows h hwalk).trans hroot), h.wordBits]

/-! ## Later definitions and later entries -/

/-- An error that says that a reference has no definition. -/
def IsUnknownType (e : ResolveError) : Prop := ∃ name, e = .unknownType name

/-- An error that says that a primitive has no entry. -/
def IsUnknownPrimitive (e : ResolveError) : Prop := ∃ name, e = .width (.unknown name)

lemma grows_offerAll (s : Scope) (types : List Decl) :
    s.Grows IsUnknownType { s with definitions := s.definitions.offerAll types } where
  wordBits := rfl
  widths _ := Or.inl rfl
  definitions name := by
    cases hd : s.definitions.get? name with
    | none => exact Or.inr ⟨rfl, name, rfl⟩
    | some definition => exact Or.inl (by rw [Definitions.get?_offerAll, hd, Option.some_or])
  maxDepth := Or.inl rfl

lemma grows_insertAll (s : Scope) {entries : List (String × Nat)}
    (hnew : ∀ e ∈ entries, s.table.contains e.1 = false) :
    s.Grows IsUnknownPrimitive { s with table := s.table.insertAll entries } where
  wordBits := s.table.wordBits_insertAll entries
  widths name := by
    cases hget : s.table.get? name with
    | none => exact Or.inr ⟨.unknown name, by rw [WidthTable.widthOf, hget], name, rfl⟩
    | some width =>
      have hfind : (entries.reverse.find? fun e => e.1 = name) = none := by
        rw [List.find?_eq_none]
        intro e he
        have hmissing := hnew e (List.mem_reverse.mp he)
        rw [WidthTable.contains_eq_isSome] at hmissing
        intro hname
        rw [of_decide_eq_true hname, hget] at hmissing
        cases hmissing
      have hsame : (s.table.insertAll entries).get? name = s.table.get? name := by
        rw [WidthTable.get?_insertAll, hfind, Option.map_none, Option.none_or]
      left
      rw [WidthTable.widthOf, WidthTable.widthOf, hsame, WidthTable.wordBits_insertAll]
  definitions _ := Or.inl rfl
  maxDepth := Or.inl rfl

/-- **Later definitions never change what already resolves.**  Registering further types leaves
the result for a type exactly as it is, unless the result was that some type is unknown, and so do
further entries of the width table with new names, unless a primitive was unknown.  So over a run
of registrations, whether accepted or refused, the first schema of a type is its schema for good,
and with the schema its layout. -/
theorem resolve_fixed_by_later (s : Scope) (d : Decl) :
    (∀ types definitions, s.definitions.registerAll types = .ok definitions →
      (∀ name, s.resolve d ≠ .error (.unknownType name)) →
        { s with definitions }.resolve d = s.resolve d) ∧
    (∀ entries : List (String × Nat), (∀ e ∈ entries, s.table.contains e.1 = false) →
      (∀ name, s.resolve d ≠ .error (.width (.unknown name))) →
        { s with table := s.table.insertAll entries }.resolve d = s.resolve d) ∧
    ∀ types types' schema,
      { s with definitions := s.definitions.offerAll types }.resolve d = .ok schema →
        { s with definitions := s.definitions.offerAll (types ++ types') }.resolve d =
          .ok schema := by
  refine ⟨?_, ?_, ?_⟩
  · intro types definitions h hknown
    obtain ⟨-, -, rfl⟩ := Definitions.registerAll_eq_ok_iff.mp h
    refine resolve_of_grows (s.grows_offerAll types) ?_
    rintro e he ⟨name, rfl⟩
    exact hknown name he
  · intro entries hnew hknown
    refine resolve_of_grows (s.grows_insertAll hnew) ?_
    rintro e he ⟨name, rfl⟩
    exact hknown name he
  · intro types types' schema h
    rw [Definitions.offerAll_append]
    refine (resolve_of_grows (grows_offerAll _ types') ?_).trans h
    intro e he
    rw [h] at he
    cases he

/-- A struct is resolved to the same schema after an enum and a primitive have been added, and after
an enum of its own name has been refused. -/
theorem half_resolved_for_good :
    let half : Decl := .struct "Half" .empty [⟨"x", Decl.primitive "u8", .key⟩]
    let other : Decl := .enum "Half" [⟨"None", Decl.unit⟩]
    let step : Decl := .enum "Step" [⟨"Left", Decl.unit⟩, ⟨"Right", Decl.unit⟩]
    let s : Scope := ⟨.standard, Definitions.empty.offerAll [half], 64⟩
    let schema : Schema := ⟨.struct "Half" .empty [⟨"x", .leaf ⟨"u8", 8⟩, .key⟩], 251⟩
    s.resolve (Decl.named "Half") = .ok schema ∧
      (∃ definitions, s.definitions.registerAll [step] = .ok definitions ∧
        { s with definitions }.resolve (Decl.named "Half") = .ok schema) ∧
      { s with table := s.table.insertAll [("u4", 4)] }.resolve (Decl.named "Half") = .ok schema ∧
      { s with definitions := Definitions.empty.offerAll ([half] ++ [other, step]) }.resolve
        (Decl.named "Half") = .ok schema := by
  intro half other step s schema
  have hget : s.definitions.get? "Half" = some half := Definitions.get?_offerAll_empty _ _
  have hroot : s.expand [] 0 (Decl.named "Half") = .ok schema.root := by
    rw [Decl.named, expand_named List.not_mem_nil hget]
    simp only [half, Decl.primitive, expand, expandMembers]
    rfl
  have hresolve : s.resolve (Decl.named "Half") = .ok schema := resolve_of_expand_eq_ok hroot
  have hknown : ∀ e, s.resolve (Decl.named "Half") ≠ .error e := by
    intro e he
    rw [hresolve] at he
    cases he
  obtain ⟨htypes, hentries, -⟩ := resolve_fixed_by_later s (Decl.named "Half")
  obtain ⟨-, -, hruns⟩ :=
    resolve_fixed_by_later { s with definitions := .empty } (Decl.named "Half")
  refine ⟨hresolve, ⟨_, rfl, ?_⟩, ?_, hruns [half] [other, step] schema hresolve⟩
  · rw [htypes [step] _ rfl fun name => hknown _, hresolve]
  · rw [hentries [("u4", 4)] (by decide) fun name => hknown _, hresolve]

end Scope

end WordPacking
