/-
# Reports

The texts that show the models of a bundle: their layouts and sizes, the words that the slots of
one model go into, and the primitives of a width table.  If any model of a bundle cannot be made,
there is no report on the others either.
-/
import WordPacking.Bundle

namespace WordPacking.Report

/-- A text padded with spaces on the right up to a length. -/
def padRight (length : Nat) (s : String) : String :=
  s ++ String.ofList (List.replicate (length - s.length) ' ')

/-- A text padded with spaces on the left up to a length. -/
def padLeft (length : Nat) (s : String) : String :=
  String.ofList (List.replicate (length - s.length) ' ') ++ s

/-- A text of lines, each of them ended. -/
def unlines (lines : List String) : String := String.join (lines.map (· ++ "\n"))

/-- The lines about the layout and the sizes of a model. -/
def layoutLines (m : Model) : List String :=
  [m.name,
    "  layout:        " ++ m.layout.text,
    "  unpacked size: " ++ toString m.unpackedSize ++ " (" ++ toString m.keySize ++ " key, " ++
      toString m.valueSize ++ " value)",
    "  packed size:   " ++ toString m.packedSize]

/-- The layout and the sizes of a model. -/
def modelLayout (m : Model) : String := unlines (layoutLines m)

/-- The line about one word of a plan, with the widths of its slots. -/
def wordLine (plan : Plan) (index : Nat) (group : List Nat) : String :=
  "  word " ++ padRight 3 (toString index) ++ " " ++
    padLeft 3 (toString ((plan.usedBits index).getD 0)) ++ "/" ++ toString plan.wordBits ++ "  [" ++
    widthsText group ++ "]"

/-- The lines about the words of a model. -/
def planLines (m : Model) : List String :=
  let plan := m.plan
  [m.name ++ ": " ++ toString m.unpackedSize ++ " slots in " ++ toString plan.wordCount ++
      " words of " ++ toString plan.wordBits ++ " bits"] ++
    plan.words.mapIdx (wordLine plan) ++
    ["  padding: " ++ toString plan.paddingBits ++ " bits"]

/-- The words that the slots of a model go into. -/
def modelPlan (m : Model) : String := unlines (planLines m)

/-- The layout and the sizes of one model of a bundle. -/
def layoutOf (b : Bundle) (name : String) : Except ModelError String := do
  let catalogue ← b.models
  let model ← catalogue.get name
  return modelLayout model

/-- The layouts and sizes of all models of a bundle, sorted by name, with an empty line between
two of them. -/
def layouts (b : Bundle) : Except ModelError String := do
  let catalogue ← b.models
  return "\n".intercalate (catalogue.models.map modelLayout)

/-- The words that the slots of one model of a bundle go into. -/
def planOf (b : Bundle) (name : String) : Except ModelError String := do
  let catalogue ← b.models
  let model ← catalogue.get name
  return modelPlan model

/-- The primitives of a table and their widths, sorted by name. -/
def primitives (t : WidthTable) : String :=
  unlines (t.entries.map fun entry => padRight 16 entry.1 ++ " " ++ toString entry.2)

end WordPacking.Report
