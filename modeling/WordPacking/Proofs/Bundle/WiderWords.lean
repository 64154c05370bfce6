/-
# Bundles for wider words

What resolves for words of one size resolves for wider words, to the same type: a width is only
ever compared with the word from below.  So the models of a bundle for wider words are those for
the narrower ones, each with the other word size and otherwise unchanged (`models_withWordBits`).
What follows from it for the number of words is said of the layouts of the models
(`Layout.packedSize_le_of_le`).
-/
import WordPacking.Bundle
import WordPacking.Proofs.Layout.WiderWords
import WordPacking.Proofs.Scope.Resolution

namespace WordPacking

/-! ## Everything but the word size -/

/-- The same entries for words of another size. -/
def WidthTable.withWordBits (t : WidthTable) (wordBits : Nat) : WidthTable := { t with wordBits }

def Scope.withWordBits (s : Scope) (wordBits : Nat) : Scope :=
  { s with table := s.table.withWordBits wordBits }

def Schema.withWordBits (schema : Schema) (wordBits : Nat) : Schema := { schema with wordBits }

def Model.withWordBits (m : Model) (wordBits : Nat) : Model := { m with wordBits }

def Catalogue.withWordBits (c : Catalogue) (wordBits : Nat) : Catalogue :=
  ⟨c.byName.map fun _ m => m.withWordBits wordBits⟩

variable {wordBits : Nat}

/-! ## Resolving -/

namespace Scope

variable {s : Scope}

lemma Admits.withWordBits {t : Shape String} (h : s.Admits t)
    (hle : s.table.wordBits ≤ wordBits) : (s.withWordBits wordBits).Admits t where
  widths name hname := by
    obtain ⟨width, hget, hpos, hwidth⟩ := h.widths name hname
    exact ⟨width, hget, hpos, Nat.le_trans hwidth hle⟩
  enums name variants hpart := by
    obtain ⟨hcount, hbits⟩ := h.enums name variants hpart
    exact ⟨hcount, Nat.le_trans hbits hle⟩
  nesting := h.nesting
  slots := h.slots

lemma resolve_withWordBits {d : Decl} {schema : Schema} (hle : s.table.wordBits ≤ wordBits)
    (h : s.resolve d = .ok schema) :
    (s.withWordBits wordBits).resolve d = .ok (schema.withWordBits wordBits) := by
  obtain ⟨t, ht, hadmits, rfl⟩ := resolve_eq_ok_iff.mp h
  exact resolve_eq_ok_iff.mpr ⟨t, ht, hadmits.withWordBits hle, rfl⟩

end Scope

/-! ## Models -/

namespace Model

lemma ofDecl_withWordBits {s : Scope} {d : Decl} {m : Model} (hle : s.table.wordBits ≤ wordBits)
    (h : ofDecl s d = .ok m) :
    ofDecl (s.withWordBits wordBits) d = .ok (m.withWordBits wordBits) := by
  rw [ofDecl_eq_ok_iff] at h ⊢
  exact Scope.resolve_withWordBits hle h

end Model

/-! ## Catalogues -/

namespace Catalogue

variable {c c' : Catalogue}

@[simp] lemma find?_withWordBits (c : Catalogue) (wordBits : Nat) (name : String) :
    (c.withWordBits wordBits).find? name =
      (c.find? name).map (Model.withWordBits · wordBits) := by
  simp [find?, withWordBits]

@[simp] lemma names_withWordBits (c : Catalogue) (wordBits : Nat) :
    (c.withWordBits wordBits).names = c.names := by
  simp [names, withWordBits]

lemma empty_withWordBits (wordBits : Nat) : empty.withWordBits wordBits = empty := by
  rw [withWordBits, empty, mk.injEq]
  exact Std.ExtTreeMap.ext_getElem? fun name => by simp

lemma register_withWordBits {m : Model} (h : c.register m = .ok c') :
    (c.withWordBits wordBits).register (m.withWordBits wordBits) =
      .ok (c'.withWordBits wordBits) := by
  unfold register at h ⊢
  have hcontains : (c.withWordBits wordBits).contains (m.withWordBits wordBits).name =
      c.contains m.name := by
    rw [contains_eq_isSome, contains_eq_isSome, find?_withWordBits, Option.isSome_map]
    rfl
  rw [hcontains]
  split at h
  · cases h
  · next hnew =>
    cases h
    rw [if_neg hnew, Except.ok.injEq, mk.injEq]
    refine Std.ExtTreeMap.ext_getElem? fun name => ?_
    simp only [withWordBits, Model.withWordBits, Std.ExtTreeMap.getElem?_insert,
      Std.ExtTreeMap.getElem?_map]
    split <;> rfl

end Catalogue

/-! ## Bundles -/

namespace Bundle

lemma insertAll_withWordBits (t : WidthTable) (entries : List (String × Nat)) (wordBits : Nat) :
    (t.withWordBits wordBits).insertAll entries = (t.insertAll entries).withWordBits wordBits := by
  induction entries generalizing t with
  | nil => rfl
  | cons e entries ih => exact ih (t.insert e.1 e.2)

variable {b : Bundle} {wordBits' : Nat} {c c' : Catalogue}

lemma scope_withWordBits (b : Bundle) (wordBits wordBits' : Nat) :
    (b.withWordBits wordBits').scope =
      (b.withWordBits wordBits).scope.withWordBits wordBits' := by
  -- entries are added whatever the word size is, so it can as well be set afterwards
  have htable : (b.withWordBits wordBits').table =
      (b.withWordBits wordBits).table.withWordBits wordBits' := by
    unfold table WidthTable.standardFor
    rw [← insertAll_withWordBits, ← insertAll_withWordBits]
    rfl
  rw [scope, htable]
  rfl

lemma addModel_withWordBits {name : String} (hle : wordBits ≤ wordBits')
    (h : (b.withWordBits wordBits).addModel c name = .ok c') :
    (b.withWordBits wordBits').addModel (c.withWordBits wordBits') name =
      .ok (c'.withWordBits wordBits') := by
  unfold addModel model at h ⊢
  have hbits : (b.withWordBits wordBits).scope.table.wordBits ≤ wordBits' := by
    simpa [scope, table, WidthTable.standardFor, WidthTable.empty, withWordBits] using hle
  rw [scope_withWordBits b wordBits wordBits']
  cases hm : Model.ofDecl (b.withWordBits wordBits).scope (Decl.named name) with
  | error e =>
    rw [hm] at h
    cases h
  | ok m =>
    rw [hm] at h
    rw [Model.ofDecl_withWordBits hbits hm]
    exact Catalogue.register_withWordBits h

lemma foldlM_addModel_withWordBits {names : List String} (hle : wordBits ≤ wordBits')
    (h : names.foldlM (b.withWordBits wordBits).addModel c = .ok c') :
    names.foldlM (b.withWordBits wordBits').addModel (c.withWordBits wordBits') =
      .ok (c'.withWordBits wordBits') := by
  -- the models so far are the same up to the word size, and each step adds one to both sides
  induction names generalizing c with
  | nil =>
    cases h
    rfl
  | cons name names ih =>
    rw [List.foldlM_cons] at h ⊢
    cases hadd : (b.withWordBits wordBits).addModel c name with
    | error e =>
      rw [hadd] at h
      cases h
    | ok next =>
      rw [hadd] at h
      rw [addModel_withWordBits hle hadd]
      exact ih h

lemma models_withWordBits (hle : wordBits ≤ wordBits')
    (h : (b.withWordBits wordBits).models = .ok c) :
    (b.withWordBits wordBits').models = .ok (c.withWordBits wordBits') := by
  have hmodels := foldlM_addModel_withWordBits hle h
  rwa [Catalogue.empty_withWordBits] at hmodels

lemma wordBits_of_models {name : String} {m : Model}
    (h : (b.withWordBits wordBits).models = .ok c) (hm : c.find? name = some m) :
    m.wordBits = wordBits := by
  -- made for their own word size once more, the models are the same as before
  have hagain : (b.withWordBits wordBits).models = .ok (c.withWordBits wordBits) :=
    models_withWordBits (Nat.le_refl wordBits) h
  have hsame : c = c.withWordBits wordBits := Except.ok.inj (h.symm.trans hagain)
  rw [hsame, Catalogue.find?_withWordBits, Option.map_eq_some_iff] at hm
  obtain ⟨_, -, rfl⟩ := hm
  rfl

/-- **Wider words are never worse.**  If the models of a bundle can be made for words of one size,
they can be made for wider words.  They have the same names, and each of them the same slots and
sizes; packed it takes no more words than before. -/
theorem models_of_wider_words (b : Bundle) {wordBits wordBits' : Nat} {c : Catalogue}
    (hle : wordBits ≤ wordBits') (h : (b.withWordBits wordBits).models = .ok c) :
    ∃ c', (b.withWordBits wordBits').models = .ok c' ∧ c'.names = c.names ∧
      ∀ name m, c.find? name = some m → ∃ m', c'.find? name = some m' ∧
        m'.layout.widths = m.layout.widths ∧ m'.unpackedSize = m.unpackedSize ∧
        m'.keySize = m.keySize ∧ m'.valueSize = m.valueSize ∧ m'.packedSize ≤ m.packedSize := by
  refine ⟨c.withWordBits wordBits', models_withWordBits hle h, c.names_withWordBits wordBits', ?_⟩
  intro name m hm
  have hfind : (c.withWordBits wordBits').find? name = some (m.withWordBits wordBits') := by
    rw [Catalogue.find?_withWordBits, hm]
    rfl
  have hbits : m.wordBits ≤ wordBits' := by
    rw [wordBits_of_models h hm]
    exact hle
  exact ⟨_, hfind, rfl, rfl, rfl, rfl, Layout.packedSize_le_of_le m.layout.widths hbits⟩

/-- Four slots in three words of 64 bits, and in no more words of 100 bits.  The wider words end
after other slots than the narrower ones. -/
theorem moves_in_wider_words :
    let moves : Decl := .struct "Moves" .empty [
      ⟨"player", Decl.primitive "u64", .key⟩,
      ⟨"last", .array 2 (Decl.primitive "u32"), .empty⟩,
      ⟨"facing", Decl.primitive "u8", .empty⟩]
    let b : Bundle :=
      ⟨251, ∅, ⟨(∅ : Std.ExtTreeMap String Decl).insert "Moves" moves⟩, ["Moves"], 64⟩
    ∃ c c' m m', 64 ≤ 100 ∧ (b.withWordBits 64).models = .ok c ∧
      (b.withWordBits 100).models = .ok c' ∧ c'.names = c.names ∧
      c.find? "Moves" = some m ∧ c'.find? "Moves" = some m' ∧
      m.layout.widths = [64, 32, 32, 8] ∧ m'.layout.widths = [64, 32, 32, 8] ∧
      m.packedSize = 3 ∧ m'.packedSize ≤ 3 := by
  intro moves b
  let m : Model := ⟨"Moves", .empty, [
    ⟨"player", .leaf ⟨"u64", 64⟩, .key⟩,
    ⟨"last", .array 2 (.leaf ⟨"u32", 32⟩), .empty⟩,
    ⟨"facing", .leaf ⟨"u8", 8⟩, .empty⟩], 64, rfl⟩
  let c : Catalogue := ⟨(∅ : Std.ExtTreeMap String Model).insert "Moves" m⟩
  -- the bundle declares no primitives of its own
  have htable : (b.withWordBits 64).table = .standardFor 64 := table_of_primitives_eq_empty rfl
  have hget : b.types.get? "Moves" = some moves := by simp [b, Definitions.get?]
  have hroot : Scope.expand ⟨.standardFor 64, b.types, 64⟩ [] 0 (Decl.named "Moves") =
      .ok m.schema.root := by
    rw [Decl.named, Scope.expand_named List.not_mem_nil hget]
    simp only [moves, Decl.primitive, Scope.expand, Scope.expandMembers]
    rfl
  have hresolve : (b.withWordBits 64).scope.resolve (Decl.named "Moves") = .ok m.schema := by
    rw [scope, htable]
    exact Scope.resolve_of_expand_eq_ok hroot
  have hadd : (b.withWordBits 64).addModel .empty "Moves" = .ok c := by
    rw [addModel, model, Model.ofDecl_eq_ok_iff.mpr hresolve]
    rfl
  have hmodels : (b.withWordBits 64).models = .ok c := by
    show ["Moves"].foldlM (b.withWordBits 64).addModel .empty = .ok c
    rw [List.foldlM_cons, hadd]
    rfl
  have hfind : c.find? "Moves" = some m := by simp [c, Catalogue.find?]
  obtain ⟨c', hmodels', hnames, hsame⟩ := models_of_wider_words b (by decide : 64 ≤ 100) hmodels
  obtain ⟨m', hfind', hwidths, -, -, -, hpacked⟩ := hsame "Moves" m hfind
  exact ⟨c, c', m, m', by decide, hmodels, hmodels', hnames, hfind, hfind', rfl, hwidths, rfl,
    hpacked⟩

end Bundle

end WordPacking
