/-
# Types and their texts

The only numbers in the text of a type are capacities, which have 32 bits, so all of them can be
read.  With this the reading of JSON texts gives the value that was written, or nothing if the text
nests too deeply, and from the value the type is read back.
-/
import WordPacking.Decl.Json
import WordPacking.Proofs.Json.Nesting

namespace WordPacking

namespace Decl

open Json (Readable ReadableItems ReadableFields)

mutual

/-- All numbers of a type are readable. -/
theorem readable_toJson : ∀ d : Decl, (toJson d).Readable
  | .leaf (.primitive _) => by simp [toJson, Readable, ReadableFields]
  | .leaf (.named _) => by simp [toJson, Readable, ReadableFields]
  | .array capacity element => by
    have hcapacity : (Json.ofNat capacity.toNat).Readable :=
      Json.readable_ofNat (Nat.lt_trans capacity.toNat_lt (by decide))
    simp [toJson, Readable, ReadableFields, hcapacity, readable_toJson element]
  | .struct _ _ members => by
    simp [toJson, Readable, ReadableFields, readable_membersToJson members]
  | .enum _ variants => by
    simp [toJson, Readable, ReadableFields, readable_variantsToJson variants]

theorem readable_membersToJson : ∀ members : List (Member Decl),
    ReadableItems (membersToJson members)
  | [] => trivial
  | ⟨_, body, _⟩ :: members => by
    simp [membersToJson, ReadableItems, Readable, ReadableFields, readable_toJson body,
      readable_membersToJson members]

theorem readable_variantsToJson : ∀ variants : List (Variant Decl),
    ReadableItems (variantsToJson variants)
  | [] => trivial
  | ⟨_, body⟩ :: variants => by
    simp [variantsToJson, ReadableItems, Readable, ReadableFields, readable_toJson body,
      readable_variantsToJson variants]

end

/-- The text of a type nests as deeply as its value. -/
lemma nesting_text (d : Decl) : Json.Text.nesting d.text = (toJson d).nesting :=
  (Json.spelledBy_text (readable_toJson d)).nesting_eq

/-- **A type is read back from its text, whatever its names, capacities and tags are, as long as
the text does not nest more than 127 levels deep.  Otherwise nothing is read.** -/
theorem reading_inverts_writing (d : Decl) :
    ofText? d.text = if Json.Text.nesting d.text ≤ 127 then some d else none := by
  have hread := Json.ofText?_text_eq_ite (readable_toJson d)
  rw [ofText?, text, hread, Json.maxNesting]
  split_ifs with h
  · rw [Option.bind_some, ofJson?_toJson]
  · rw [Option.bind_none]

/-- A text of a few levels is read back, and one of 128 levels is not. -/
theorem moves_read_and_deep_array_not :
    let moves : Decl := .struct "Moves" .empty [⟨"player", Decl.primitive "u64", .key⟩,
      ⟨"last", .array 2 (.enum "Step" [⟨"Left", Decl.named "Move"⟩]), ⟨5⟩⟩]
    let deep : Decl := Nat.repeat (Shape.array 1) 127 (Decl.primitive "u8")
    Json.Text.nesting moves.text = 8 ∧ ofText? moves.text = some moves ∧
      Json.Text.nesting deep.text = 128 ∧ ofText? deep.text = none := by
  intro moves deep
  have hmoves : Json.Text.nesting moves.text = 8 := (nesting_text moves).trans (by decide +kernel)
  have hdeep : Json.Text.nesting deep.text = 128 := (nesting_text deep).trans (by decide +kernel)
  refine ⟨hmoves, ?_, hdeep, ?_⟩
  · rw [reading_inverts_writing moves, hmoves, if_pos (by decide)]
  · rw [reading_inverts_writing deep, hdeep, if_neg (by decide)]

end Decl

end WordPacking
