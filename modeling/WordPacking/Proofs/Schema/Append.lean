/-
# One more member

A struct that gets one more member at its end keeps all slots of the members that it has.  Members
are resolved one by one, each by itself, so those in front are resolved to what they were before,
as long as the names that they reach have the same definitions (`exists_expanded_member`).  Their
slots come first in the layout, and slots that come first are placed without a look at the others
(`Layout.extends_of_prefix`).

A struct that is registered changes by its definition.  The definitions of other names may refer to
it, but none of those that it reaches itself does, as it would be on a cycle then.
-/
import WordPacking.Model
import WordPacking.Proofs.Plan.Append
import WordPacking.Proofs.Scope.Resolution

namespace WordPacking

namespace Definitions

/-- Members that are expanded with one more behind them have the expansions that they have by
themselves. -/
lemma exists_expanded_member {ds : Definitions} {members : List (Member Decl)} {x : Member Decl}
    {ts ts' : List (Member (Shape String))} (h : ds.ExpandsMembers members ts)
    (h' : ds.ExpandsMembers (members ++ [x]) ts') :
    ∃ t, ts' = ts ++ [t] := by
  induction members generalizing ts ts' with
  | nil =>
    cases h
    cases h' with
    | cons _ hrest =>
      cases hrest
      exact ⟨_, rfl⟩
  | cons m members ih =>
    cases h with
    | cons hbody hrest =>
      cases h' with
      | cons hbody' hrest' =>
        obtain ⟨t, rfl⟩ := ih hrest hrest'
        rw [hbody.unique hbody']
        exact ⟨t, rfl⟩

end Definitions

/-- A schema has the slots of another one in the same places.  If that is a model, it is one as
well. -/
structure Schema.Extends (schema' schema : Schema) : Prop where
  /-- The layout of the other one is in its layout. -/
  layout : schema'.layout.Extends schema.layout
  /-- A model goes on being a model. -/
  model : ∀ m, Model.ofSchema schema = .ok m →
    ∃ m', Model.ofSchema schema' = .ok m' ∧ m'.layout.Extends m.layout

namespace Schema

variable {name : String} {attrs : Attrs} {members : List (Member Tree)} {wordBits : Nat}

lemma extends_append_member (x : Member Tree) :
    Extends ⟨.struct name attrs (members ++ [x]), wordBits⟩
      ⟨.struct name attrs members, wordBits⟩ := by
  have hlayout : (layout ⟨.struct name attrs (members ++ [x]), wordBits⟩).Extends
      (layout ⟨.struct name attrs members, wordBits⟩) := by
    refine Layout.extends_of_prefix ?_ rfl
    rw [layout, layout, Shape.widths_struct, Shape.widths_struct, List.flatMap_append]
    exact List.prefix_append _ _
  refine ⟨hlayout, fun m hm => ?_⟩
  obtain ⟨rfl, rfl, rfl, rfl⟩ : m.name = name ∧ m.attrs = attrs ∧ m.members = members ∧
      m.wordBits = wordBits := by
    have hschema := Model.ofSchema_eq_ok_iff.mp hm
    simp only [Model.schema, mk.injEq, Shape.struct.injEq] at hschema
    simp [hschema]
  have hkey : (m.members ++ [x]).any (·.attrs.isKey) = true := by
    rw [List.any_append, m.hasKey, Bool.true_or]
  exact ⟨⟨m.name, m.attrs, m.members ++ [x], m.wordBits, hkey⟩,
    Model.ofSchema_eq_ok_iff.mpr rfl, hlayout⟩

end Schema

namespace Scope

open Definitions

variable {s s' : Scope} {name : String} {attrs : Attrs} {members : List (Member Decl)}
  {x : Member Decl} {schema schema' : Schema}

/-- A struct with one more member is resolved to the same members and one more, if the table and
the definitions of the names that it reaches stay as they are. -/
lemma extends_of_resolve (htable : s'.table = s.table)
    (hkept : ∀ n definition, s.definitions.Reaches (.struct name attrs members) n →
      s.definitions.get? n = some definition → s'.definitions.get? n = some definition)
    (h : s.resolve (.struct name attrs members) = .ok schema)
    (h' : s'.resolve (.struct name attrs (members ++ [x])) = .ok schema') :
    schema'.Extends schema := by
  obtain ⟨t, ht, -, rfl⟩ := resolve_eq_ok_iff.mp h
  obtain ⟨t', ht', -, rfl⟩ := resolve_eq_ok_iff.mp h'
  obtain ⟨ts, hts, rfl⟩ := expands_struct_iff.mp (ht.of_kept hkept)
  obtain ⟨ts', hts', rfl⟩ := expands_struct_iff.mp ht'
  obtain ⟨y, rfl⟩ := exists_expanded_member hts hts'
  rw [htable, Shape.map, Shape.map, Shape.mapMembers_eq_map, Shape.mapMembers_eq_map,
    List.map_append]
  exact Schema.extends_append_member _

lemma resolveNamed_eq_ok_iff {n : String} {definition : Decl}
    (hd : s.definitions.get? n = some definition) :
    s.resolveNamed n = .ok schema ↔ s.resolve definition = .ok schema := by
  rw [resolveNamed, Decl.named, resolve_eq_ok_iff, resolve_eq_ok_iff]
  simp only [expands_named_iff hd]

/-- **More slots at the end move none.**  Widths that go on behind those of a layout leave its slots
where they are; its words have the same bits taken, up to the last, which may get more.  So a struct
with one more member at its end, resolved with the same widths, keeps every slot of the struct that
it was before in its place.  It may be written out, with further definitions added; or it may be
registered, and its own definition be replaced. -/
theorem appending_moves_no_slot :
    (∀ (a b : List Nat) (wordBits : Nat) (l : Layout),
      Layout.ofWidths (a ++ b) wordBits = .ok l →
        ∃ first, Layout.ofWidths a wordBits = .ok first ∧
          l.plan.slots.take a.length = first.plan.slots ∧
          (∀ word, word + 1 < first.plan.wordCount →
            l.plan.usedBits word = first.plan.usedBits word) ∧
          ∀ word, word + 1 = first.plan.wordCount → ∃ used used',
            first.plan.usedBits word = some used ∧ l.plan.usedBits word = some used' ∧
            used ≤ used') ∧
    (∀ (s s' : Scope) (name : String) (attrs : Attrs) (members : List (Member Decl))
      (x : Member Decl) (schema schema' : Schema), s'.table = s.table →
      (∀ n definition, s.definitions.get? n = some definition →
        s'.definitions.get? n = some definition) →
      s.resolve (.struct name attrs members) = .ok schema →
      s'.resolve (.struct name attrs (members ++ [x])) = .ok schema' → schema'.Extends schema) ∧
    ∀ (s s' : Scope) (n name : String) (attrs : Attrs) (members : List (Member Decl))
      (x : Member Decl) (schema schema' : Schema), s'.table = s.table →
      s.definitions.get? n = some (.struct name attrs members) →
      s'.definitions.get? n = some (.struct name attrs (members ++ [x])) →
      (∀ k definition, k ≠ n → s.definitions.get? k = some definition →
        s'.definitions.get? k = some definition) →
      s.resolveNamed n = .ok schema → s'.resolveNamed n = .ok schema' →
      schema'.Extends schema := by
  refine ⟨?_, ?_, ?_⟩
  · intro a b wordBits l hl
    obtain ⟨rfl, hvalid⟩ := Layout.ofWidths_eq_ok_iff.mp hl
    have hfirst : Layout.Valid ⟨a, wordBits⟩ := fun w hw => hvalid w (List.mem_append_left b hw)
    refine ⟨_, Layout.ofWidths_eq_ok_iff.mpr ⟨rfl, hfirst⟩, ?_,
      fun word hword => Layout.usedBits_append_of_lt hword b,
      fun word hword => Layout.usedBits_append_of_eq hword b⟩
    rw [Layout.take_slots_plan, List.take_left]
  · intro s s' name attrs members x schema schema' htable hkept h h'
    exact extends_of_resolve htable (fun n definition _ => hkept n definition) h h'
  · intro s s' n name attrs members x schema schema' htable hd hd' hkept h h'
    rw [resolveNamed_eq_ok_iff hd] at h
    rw [resolveNamed_eq_ok_iff hd'] at h'
    refine extends_of_resolve htable (fun k definition hreach => hkept k definition ?_) h h'
    -- the struct does not reach its own name, or it would be on a cycle
    rintro rfl
    obtain ⟨t, ht, -⟩ := resolve_eq_ok_iff.mp ((resolveNamed_eq_ok_iff hd).mpr h)
    exact (expandable_named_iff.mp ht.expandable).1 (onCycle_iff.mpr ⟨_, hd, hreach⟩)

/-- A registered struct in two words gets one more member.  Its two slots stay where they are, and
those of the new member go behind the second one. -/
theorem moves_with_one_more_member :
    let members : List (Member Decl) := [
      ⟨"player", Decl.primitive "u64", .key⟩, ⟨"last", Decl.primitive "u32", .empty⟩]
    let facing : Member Decl :=
      ⟨"facing", .enum "Facing" [⟨"Away", Decl.unit⟩, ⟨"To", Decl.primitive "u8"⟩], .empty⟩
    let scope (members : List (Member Decl)) : Scope := ⟨.standardFor 64,
      ⟨(∅ : Std.ExtTreeMap String Decl).insert "Moves" (.struct "Moves" .empty members)⟩, 64⟩
    ∃ schema schema',
      (scope members).resolveNamed "Moves" = .ok schema ∧
      (scope (members ++ [facing])).resolveNamed "Moves" = .ok schema' ∧
      schema.layout.plan.slots = [⟨0, 0, 64⟩, ⟨1, 0, 32⟩] ∧
      schema'.layout.plan.slots = [⟨0, 0, 64⟩, ⟨1, 0, 32⟩, ⟨1, 32, 8⟩, ⟨1, 40, 8⟩] ∧
      schema'.Extends schema := by
  intro members facing scope
  have hget : ∀ members, (scope members).definitions.get? "Moves" =
      some (.struct "Moves" .empty members) := by
    intro members
    simp [scope, Definitions.get?]
  have hother : ∀ k definition, k ≠ "Moves" → (scope members).definitions.get? k = some definition →
      (scope (members ++ [facing])).definitions.get? k = some definition := by
    intro k definition hk hd
    simp [scope, Definitions.get?, hk.symm] at hd
  have h : (scope members).resolveNamed "Moves" = .ok ⟨.struct "Moves" .empty [
      ⟨"player", .leaf ⟨"u64", 64⟩, .key⟩, ⟨"last", .leaf ⟨"u32", 32⟩, .empty⟩], 64⟩ := by
    rw [resolveNamed_eq_ok_iff (hget members)]
    simp only [scope, members, Decl.primitive, resolve, expand, expandMembers]
    rfl
  have h' : (scope (members ++ [facing])).resolveNamed "Moves" = .ok ⟨.struct "Moves" .empty [
      ⟨"player", .leaf ⟨"u64", 64⟩, .key⟩, ⟨"last", .leaf ⟨"u32", 32⟩, .empty⟩,
      ⟨"facing", .enum "Facing" [⟨"Away", .struct "()" .empty []⟩, ⟨"To", .leaf ⟨"u8", 8⟩⟩],
        .empty⟩], 64⟩ := by
    rw [resolveNamed_eq_ok_iff (hget (members ++ [facing]))]
    simp only [scope, members, facing, Decl.primitive, Decl.unit, List.cons_append,
      List.nil_append, resolve, expand, expandMembers, expandVariants]
    rfl
  have htable : (scope (members ++ [facing])).table = (scope members).table := rfl
  exact ⟨_, _, h, h', rfl, rfl, appending_moves_no_slot.2.2 _ _ _ _ _ _ _ _ _ htable
    (hget members) (hget (members ++ [facing])) hother h h'⟩

end Scope

end WordPacking
