import LinkedJson.Text.Utf8
import LinkedJson.Text.Utf16
import LinkedJson.Text.Position
import LinkedJson.Number.Literal
import LinkedJson.Number.Text
import LinkedJson.StringLiteral.Reading
import LinkedJson.StringLiteral.Writing
import LinkedJson.Document.Reading
import LinkedJson.Document.Rendering
import LinkedJson.Document.Writing
import LinkedJson.Store.Basic
import LinkedJson.Store.Layout
import LinkedJson.Store.Links
import LinkedJson.Store.Release
import LinkedJson.Store.Lookup
import LinkedJson.Store.Creation
import LinkedJson.Store.Document
import LinkedJson.Store.Editing
import LinkedJson.Store.Views
import LinkedJson.Session
import LinkedJson.Text.Trivia
import LinkedJson.Version
import LinkedJson.Report
import LinkedJson.Proofs.Literal.NumberParts
import LinkedJson.Proofs.Literal.StringExtent
import LinkedJson.Proofs.Grammar.Derivation
import LinkedJson.Proofs.Grammar.Strict
import LinkedJson.Proofs.Grammar.Unambiguity
import LinkedJson.Proofs.Reading.Steps
import LinkedJson.Proofs.Grammar.Completeness
import LinkedJson.Proofs.Grammar.Acceptance
import LinkedJson.Proofs.Reading.Effects
import LinkedJson.Proofs.Store.Chains
import LinkedJson.Proofs.Store.Forest
import LinkedJson.Proofs.Store.Growth
import LinkedJson.Proofs.Store.Shape
import LinkedJson.Proofs.Store.Splicing
import LinkedJson.Proofs.Store.Building
import LinkedJson.Proofs.Store.Runs
import LinkedJson.Proofs.Text.CodeUnits
import LinkedJson.Proofs.Literal.EscapedText
import LinkedJson.Proofs.Literal.NumberText
import LinkedJson.Proofs.Writing.Storage
import LinkedJson.Proofs.Writing.WrittenLiterals
import LinkedJson.Proofs.Writing.Pieces
import LinkedJson.Proofs.Writing.Places
import LinkedJson.Proofs.Writing.Printing
import LinkedJson.Proofs.Writing.Growing
import LinkedJson.Proofs.Writing.CallerStorage
import LinkedJson.Proofs.Writing.LayoutBlanks
import LinkedJson.Proofs.Writing.RoundTrip
import LinkedJson.Proofs.Writing.StrictText
import LinkedJson.Proofs.Store.Ownership
import LinkedJson.Proofs.Store.Accounts
import LinkedJson.Proofs.Grammar.Meaning
import LinkedJson.Proofs.Grammar.StrictReading
import LinkedJson.Proofs.Literal.StringLanguage
import LinkedJson.Proofs.Literal.StringReading
import LinkedJson.Proofs.Number.Conditions
import LinkedJson.Proofs.Number.Millionths
import LinkedJson.Proofs.Number.Notations
import LinkedJson.Proofs.Number.Settling
import LinkedJson.Proofs.Number.TextLength
import LinkedJson.Proofs.Reading.Agreement
import LinkedJson.Proofs.Reading.Completions
import LinkedJson.Proofs.Store.Budget
import LinkedJson.Proofs.Store.Copies
import LinkedJson.Proofs.Writing.ReadTrees
import LinkedJson.Proofs.Writing.TextRoom
import LinkedJson.Proofs.Writing.Reprinting
import LinkedJson.Proofs.Store.Documents
import LinkedJson.Proofs.Text.Encoding
import LinkedJson.Proofs.Text.Stripping
import LinkedJson.Proofs.Text.Tightening
import LinkedJson.Proofs.Text.Offsets
import LinkedJson.Proofs.Text.TightDocuments
import LinkedJson.Proofs.Literal.InPlace
import LinkedJson.Proofs.Reading.Mirrored
import LinkedJson.Proofs.Reading.InPlace
import LinkedJson.Proofs.Reading.Terminator
import LinkedJson.Proofs.Reading.ViablePrefixes
import LinkedJson.Proofs.Store.Faces
import LinkedJson.Proofs.Store.Naming
import LinkedJson.Proofs.Store.ReadNodes
import LinkedJson.Proofs.Store.Shown
import LinkedJson.Proofs.Store.Soundness
import LinkedJson.Proofs.Store.NodeInvariants
import LinkedJson.Proofs.Writing.TwoLayouts
import LinkedJson.Proofs.Literal.NumberLanguage
import LinkedJson.Proofs.Number.Scientific
import LinkedJson.Proofs.Number.FixedPoint
import LinkedJson.Proofs.Number.Faithful
import LinkedJson.Proofs.Writing.Doubling
import LinkedJson.Proofs.Reading.Extents
import LinkedJson.Proofs.Reading.Traces
import LinkedJson.Proofs.Reading.Advances
import LinkedJson.Proofs.Store.NodeDemand
import LinkedJson.Proofs.Reading.NestingLimit
import LinkedJson.Proofs.Store.Releasing
import LinkedJson.Proofs.Text.Lines
import LinkedJson.Proofs.Store.Holding
import LinkedJson.Proofs.Store.Bulk
import LinkedJson.Proofs.Store.Members
import LinkedJson.Proofs.Literal.Scratch
import LinkedJson.Proofs.Writing.Room
import LinkedJson.Proofs.Writing.LiteralWrites
