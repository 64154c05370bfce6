import WordPacking.Attrs
import WordPacking.Shape
import WordPacking.Shape.Size
import WordPacking.Scalar
import WordPacking.WidthTable
import WordPacking.Layout
import WordPacking.Plan
import WordPacking.Codec.Word
import WordPacking.Codec
import WordPacking.Decl
import WordPacking.Definitions
import WordPacking.Schema
import WordPacking.Scope
import WordPacking.Model
import WordPacking.Catalogue
import WordPacking.Attrs.Text
import WordPacking.Json
import WordPacking.Json.Number
import WordPacking.Json.Token
import WordPacking.Json.Text
import WordPacking.Json.Fields
import WordPacking.Decl.Json
import WordPacking.Document
import WordPacking.Bundle
import WordPacking.Report
import WordPacking.Session
import WordPacking.CommandLine
import WordPacking.Main
import WordPacking.Proofs.Shape.Part
import WordPacking.Proofs.Definitions.Reference
import WordPacking.Proofs.Definitions.Trail
import WordPacking.Proofs.Definitions.Expansion
import WordPacking.Proofs.Scope.Walk
import WordPacking.Proofs.Shape.Map
import WordPacking.Proofs.Scope.Resolution
import WordPacking.Proofs.Scope.Cycle
import WordPacking.Proofs.Codec.RoundTrip
import WordPacking.Proofs.Codec.Slots
import WordPacking.Proofs.Schema.Widths
import WordPacking.Proofs.Model.Interleave
import WordPacking.Proofs.Model.RoundTrip
import WordPacking.Proofs.Schema.Flattening
import WordPacking.Proofs.Scope.Transparency
import WordPacking.Proofs.Layout.WiderWords
import WordPacking.Proofs.Bundle.WiderWords
import WordPacking.Proofs.Shape.Bare
import WordPacking.Proofs.Scope.Bare
import WordPacking.Proofs.Definitions.Run
import WordPacking.Proofs.Scope.Growth
import WordPacking.Proofs.Catalogue.Listing
import WordPacking.Proofs.Bundle.Loading
import WordPacking.Proofs.Plan.Greedy
import WordPacking.Proofs.Plan.Loop
import WordPacking.Proofs.Layout.FewestWords
import WordPacking.Proofs.Plan.Count
import WordPacking.Proofs.Plan.Fill
import WordPacking.Proofs.Plan.Density
import WordPacking.Proofs.Plan.Append
import WordPacking.Proofs.Schema.Append
import WordPacking.Proofs.Model.WordCount
import WordPacking.Proofs.Layout.Concatenation
import WordPacking.Proofs.Codec.Refusal
import WordPacking.Proofs.Json.Number
import WordPacking.Proofs.Json.Tokens
import WordPacking.Proofs.Json.Spelling
import WordPacking.Proofs.Json.Nesting
import WordPacking.Proofs.Decl.RoundTrip
import WordPacking.Proofs.Codec.Bits
import WordPacking.Proofs.Model.Refusal
import WordPacking.Proofs.Scope.Visits
import WordPacking.Proofs.Scope.Termination
import WordPacking.Proofs.Bundle.DeeperLimit
import WordPacking.Proofs.Schema.SlotCounts
import WordPacking.Proofs.Scope.Defects
import WordPacking.Proofs.Model.Counts
import WordPacking.Proofs.Catalogue.Registration
import WordPacking.Proofs.Text.Bytes
import WordPacking.Proofs.WidthTable.Entries
import WordPacking.Proofs.Bundle.Table
import WordPacking.Proofs.Json.Acceptance
import WordPacking.Proofs.Decl.Fields
import WordPacking.Proofs.Decl.Respelling
import WordPacking.Proofs.Report.Figures
import WordPacking.Proofs.Report.Agreement
import WordPacking.Proofs.CommandLine.Items
import WordPacking.Proofs.CommandLine.Sentences
import WordPacking.Proofs.CommandLine.Stages
