/-
# Labels do not matter

Resolving looks at the labels of a type only to copy them, into the schema or into the report of
an error.  So it can as well be done on the bare type, in the scope with bare definitions: what
comes out is the bare result (`expand_bare`).  Two types that are the same up to labels have the
same bare type, so that their results are the same up to labels, and labels have no part in how a
schema is laid out.

The name under which a definition is registered is no label.  References go by it, and so does
the check for cycles, while the name of an inline struct or enum is never looked at.
-/
import WordPacking.Plan
import WordPacking.Proofs.Scope.Walk
import WordPacking.Proofs.Shape.Bare

namespace WordPacking

/-! ## Scopes and results without labels -/

/-- The same names with bare definitions. -/
def Definitions.bare (ds : Definitions) : Definitions := ⟨ds.byName.map fun _ d => d.bare⟩

@[simp] lemma Definitions.get?_bare (ds : Definitions) (name : String) :
    ds.bare.get? name = (ds.get? name).map Shape.bare := by
  simp [bare, get?]

/-- The error without the name of the enum or type that it is about.  Names of primitives and of
registered types stay. -/
def ResolveError.bare : ResolveError → ResolveError
  | width cause => width cause
  | wideDiscriminant _ wordBits => wideDiscriminant "" wordBits
  | tooManyVariants _ count => tooManyVariants "" count
  | unknownType name => unknownType name
  | cyclic path => cyclic path
  | tooDeep limit => tooDeep limit
  | tooLarge _ => tooLarge none

section Except

variable {ε α α' β β' : Type}

/-- A change of the elements and their results is a change of the list of results. -/
lemma mapM_map_eq {f : α → Except ε β} {g : α' → Except ε β'} {p : α → α'} {q : β → β'}
    {r : ε → ε} {l : List α} (h : ∀ a ∈ l, g (p a) = ((f a).map q).mapError r) :
    (l.map p).mapM g = ((l.mapM f).map (List.map q)).mapError r := by
  induction l with
  | nil => rfl
  | cons a l ih =>
    obtain ⟨ha, hl⟩ := List.forall_mem_cons.mp h
    rw [List.map_cons, List.mapM_cons, List.mapM_cons, ha, ih hl]
    cases f a with
    | error e => rfl
    | ok b => cases l.mapM f <;> rfl

end Except

namespace Scope

variable {s : Scope}

/-- The same scope with bare definitions. -/
def bare (s : Scope) : Scope := { s with definitions := s.definitions.bare }

@[simp] lemma table_bare (s : Scope) : s.bare.table = s.table := rfl

@[simp] lemma maxDepth_bare (s : Scope) : s.bare.maxDepth = s.maxDepth := rfl

/-- The bare result of a walk. -/
def bareResult (x : Except ResolveError Tree) : Except ResolveError Tree :=
  (x.map Shape.bare).mapError ResolveError.bare

@[simp] lemma bareResult_error (e : ResolveError) : bareResult (.error e) = .error e.bare := rfl

/-- The members of a bare struct are walked over as those of the struct are. -/
lemma mapM_expandMember_bare {path : List String} {depth : Nat} {members : List (Member Decl)}
    (h : ∀ m ∈ members, s.bare.expand path depth m.body.bare =
      bareResult (s.expand path depth m.body)) (name : String) (attrs : Attrs) :
    ((Shape.bareMembers members).mapM (s.bare.expandMember path depth)).map
        (.struct "" .empty) =
      bareResult ((members.mapM (s.expandMember path depth)).map (.struct name attrs)) := by
  have hmembers : (Shape.bareMembers members).mapM (s.bare.expandMember path depth) =
      ((members.mapM (s.expandMember path depth)).map Shape.bareMembers).mapError
        ResolveError.bare := by
    rw [Shape.bareMembers_eq_map, funext Shape.bareMembers_eq_map]
    refine mapM_map_eq fun m hm => ?_
    rw [expandMember, expandMember, h m hm]
    cases s.expand path depth m.body <;> rfl
  rw [hmembers]
  cases members.mapM (s.expandMember path depth) <;> rfl

/-- The variants of a bare enum are walked over as those of the enum are. -/
lemma mapM_expandVariant_bare {path : List String} {depth : Nat}
    {variants : List (Variant Decl)}
    (h : ∀ v ∈ variants, s.bare.expand path depth v.body.bare =
      bareResult (s.expand path depth v.body)) (name : String) :
    ((Shape.bareVariants variants).mapM (s.bare.expandVariant path depth)).map (.enum "") =
      bareResult ((variants.mapM (s.expandVariant path depth)).map (.enum name)) := by
  have hvariants : (Shape.bareVariants variants).mapM (s.bare.expandVariant path depth) =
      ((variants.mapM (s.expandVariant path depth)).map Shape.bareVariants).mapError
        ResolveError.bare := by
    rw [Shape.bareVariants_eq_map, funext Shape.bareVariants_eq_map]
    refine mapM_map_eq fun v hv => ?_
    rw [expandVariant, expandVariant, h v hv]
    cases s.expand path depth v.body <;> rfl
  rw [hvariants]
  cases variants.mapM (s.expandVariant path depth) <;> rfl

/-- The walk over the bare type gives the bare result of the walk over the type. -/
theorem expand_bare {path : List String} {depth : Nat} {d : Decl} :
    s.bare.expand path depth d.bare = bareResult (s.expand path depth d) := by
  induction path, d using s.walk_induction generalizing depth with
  | primitive path name =>
    rw [Shape.bare, expand_primitive, expand_primitive, table_bare]
    cases s.table.widthOf name <;> rfl
  | repeated path name hname =>
    rw [Shape.bare, expand_repeated hname, expand_repeated hname]
    rfl
  | unknown path name hname hd =>
    have hd' : s.bare.definitions.get? name = none := by simp [bare, hd]
    rw [Shape.bare, expand_unknown hname hd, expand_unknown hname hd']
    rfl
  | named path name definition hname hd ih =>
    have hd' : s.bare.definitions.get? name = some definition.bare := by simp [bare, hd]
    rw [Shape.bare, expand_named hname hd, expand_named hname hd', ih]
  -- from here on the guards are the same on both sides, and the parts come out bare
  | array path capacity element ih =>
    rw [Shape.bare, expand_array, expand_array, ih, maxDepth_bare, apply_ite bareResult]
    congr 1
    cases s.expand path (depth + 1) element <;> rfl
  | struct path name attrs members ih =>
    rw [Shape.bare, expand_struct, expand_struct, maxDepth_bare, apply_ite bareResult,
      mapM_expandMember_bare (fun m hm => ih m hm) name attrs]
    rfl
  | enum path name variants ih =>
    have hlength : (Shape.bareVariants variants).length = variants.length := by
      rw [Shape.bareVariants_eq_map, List.length_map]
    rw [Shape.bare, expand_enum, expand_enum, hlength, table_bare, maxDepth_bare,
      apply_ite bareResult, apply_ite bareResult, apply_ite bareResult,
      mapM_expandVariant_bare (fun v hv => ih v hv) name]
    rfl

/-! ## Types that are the same up to labels -/

/-- Types that are the same up to labels are walked over to the same bare result. -/
lemma bareResult_expand_congr {definitions : Definitions} {d d' : Decl} (hd : d.bare = d'.bare)
    (hds : ∀ name, (s.definitions.get? name).map Shape.bare =
      (definitions.get? name).map Shape.bare) :
    bareResult (s.expand [] 0 d) = bareResult ({ s with definitions }.expand [] 0 d') := by
  have hdefinitions : s.definitions.bare = definitions.bare := by
    rw [Definitions.bare, Definitions.bare, Definitions.mk.injEq]
    refine Std.ExtTreeMap.ext_getElem? fun name => ?_
    rw [Std.ExtTreeMap.getElem?_map, Std.ExtTreeMap.getElem?_map]
    exact hds name
  have hscope : s.bare = ({ s with definitions } : Scope).bare := by
    rw [bare, bare, hdefinitions]
  rw [← expand_bare, ← expand_bare, hscope, hd]

/-- **Labels do not matter.**  Take two types that are the same up to the names of structs, enums,
members and variants and up to all tags, in scopes that have the same table, the same limit and,
up to such labels, the same definition for each name.  Either both types are resolved, and they
have as many slots, the same layout, the same plan and the same number of words; or both are
refused with the same error, up to the name of the enum or type that it is about. -/
theorem resolve_up_to_labels (s : Scope) (definitions : Definitions) {d d' : Decl}
    (hd : d.bare = d'.bare)
    (hds : ∀ name, (s.definitions.get? name).map Shape.bare =
      (definitions.get? name).map Shape.bare) :
    (∃ schema schema', s.resolve d = .ok schema ∧
      { s with definitions }.resolve d' = .ok schema' ∧ schema.size = schema'.size ∧
      schema.layout = schema'.layout ∧ schema.layout.plan = schema'.layout.plan ∧
      schema.layout.packedSize = schema'.layout.packedSize) ∨
    ∃ e e', s.resolve d = .error e ∧ { s with definitions }.resolve d' = .error e' ∧
      e.bare = e'.bare := by
  have hwalk := bareResult_expand_congr hd hds
  cases hroot : s.expand [] 0 d with
  | error e =>
    cases hroot' : { s with definitions }.expand [] 0 d' with
    | ok root' =>
      rw [hroot, hroot'] at hwalk
      cases hwalk
    | error e' =>
      rw [hroot, hroot', bareResult_error, bareResult_error, Except.error.injEq] at hwalk
      exact Or.inr ⟨e, e', resolve_of_expand_eq_error hroot, resolve_of_expand_eq_error hroot',
        hwalk⟩
  | ok root =>
    cases hroot' : { s with definitions }.expand [] 0 d' with
    | error e' =>
      rw [hroot, hroot'] at hwalk
      cases hwalk
    | ok root' =>
      rw [hroot, hroot'] at hwalk
      have hbare : root.bare = root'.bare := Except.ok.inj hwalk
      have hchecked : root.checkedSize = root'.checkedSize := by
        rw [← root.checkedSize_bare, hbare, root'.checkedSize_bare]
      have hsize : root.size = root'.size := by
        rw [← root.size_bare, hbare, root'.size_bare]
      have hwidths : root.widths = root'.widths := by
        rw [← root.widths_bare, hbare, root'.widths_bare]
      rw [resolve_of_expand_eq_ok hroot, resolve_of_expand_eq_ok hroot', hchecked]
      cases root'.checkedSize with
      | none => exact Or.inr ⟨_, _, rfl, rfl, rfl⟩
      | some n =>
        have hlayout : (⟨root.widths, s.table.wordBits⟩ : Layout) =
            ⟨root'.widths, s.table.wordBits⟩ := by
          rw [hwidths]
        exact Or.inl ⟨_, _, rfl, rfl, hsize, hlayout, congrArg Layout.plan hlayout,
          congrArg Layout.packedSize hlayout⟩

/-- In the second type the other member is the key, and an inline struct has the name of the
registered type that it refers to. -/
theorem relabelled_moves :
    let vec (x y : String) (attrs : Attrs) : Decl := .struct "Vec" attrs
      [⟨x, Decl.primitive "u32", .empty⟩, ⟨y, Decl.primitive "u32", attrs⟩]
    let moves (player step : Attrs) (name : String) : Decl := .struct "Moves" .empty
      [⟨"player", Decl.primitive "u64", player⟩,
        ⟨"step", .struct name .empty [⟨"by", Decl.named "Vec", .empty⟩], step⟩]
    let s : Scope := ⟨((WidthTable.empty 64).insert "u32" 32).insert "u64" 64,
      ⟨(∅ : Std.ExtTreeMap String Decl).insert "Vec" (vec "x" "y" .empty)⟩, 64⟩
    let definitions : Definitions :=
      ⟨(∅ : Std.ExtTreeMap String Decl).insert "Vec" (vec "east" "north" .key)⟩
    (moves .key .empty "Delta").bare = (moves .empty .key "Vec").bare ∧
      (∀ name, (s.definitions.get? name).map Shape.bare =
        (definitions.get? name).map Shape.bare) ∧
      ∃ schema schema', s.resolve (moves .key .empty "Delta") = .ok schema ∧
        { s with definitions }.resolve (moves .empty .key "Vec") = .ok schema' ∧
        schema.layout = ⟨[64, 32, 32], 64⟩ ∧ schema'.layout = ⟨[64, 32, 32], 64⟩ ∧
        schema.layout.packedSize = 2 ∧ schema'.layout.packedSize = 2 := by
  intro vec moves s definitions
  have hd : (moves .key .empty "Delta").bare = (moves .empty .key "Vec").bare := rfl
  have hds : ∀ name, (s.definitions.get? name).map Shape.bare =
      (definitions.get? name).map Shape.bare := by
    intro name
    simp only [s, definitions, Definitions.get?, Std.ExtTreeMap.getElem?_insert]
    split <;> rfl
  have hresolve : s.resolve (moves .key .empty "Delta") = .ok ⟨.struct "Moves" .empty
      [⟨"player", .leaf ⟨"u64", 64⟩, .key⟩,
        ⟨"step", .struct "Delta" .empty [⟨"by", .struct "Vec" .empty
          [⟨"x", .leaf ⟨"u32", 32⟩, .empty⟩, ⟨"y", .leaf ⟨"u32", 32⟩, .empty⟩], .empty⟩],
          .empty⟩], 64⟩ := by
    cbv
  refine ⟨hd, hds, ?_⟩
  rcases resolve_up_to_labels s definitions hd hds with
    ⟨schema, schema', hschema, hschema', -, hlayout, -, hpacked⟩ | ⟨e, e', he, -⟩
  · rw [hresolve, Except.ok.injEq] at hschema
    subst hschema
    exact ⟨_, schema', hresolve, hschema', rfl, hlayout.symm, rfl, hpacked.symm⟩
  · rw [hresolve] at he
    cases he

end Scope

end WordPacking
