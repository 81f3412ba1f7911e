import Cloze.Command.Execute
import Cloze.Command.Line
import Cloze.Command.LogFilter
import Cloze.Draft.Basic
import Cloze.Draft.Fill
import Cloze.Draft.Growth
import Cloze.Draft.Layout
import Cloze.Draft.Offer
import Cloze.Draft.Refusal
import Cloze.Draft.Skip
import Cloze.Draft.Suggestion
import Cloze.Draft.Walk
import Cloze.Editor
import Cloze.Grammar.Basic
import Cloze.Grammar.Definition
import Cloze.Grammar.Offside
import Cloze.Main
import Cloze.Number.Decimal
import Cloze.Number.Double
import Cloze.Proofs.Growing
import Cloze.Proofs.Integrity
import Cloze.Proofs.Links
import Cloze.Proofs.Outcome
import Cloze.Proofs.Placing
import Cloze.Proofs.Sentence
import Cloze.Proofs.Tables
import Cloze.Role
import Cloze.Script
import Cloze.Settings.Load
import Cloze.Settings.Path
import Cloze.Settings.Value
import Cloze.Tag
import Cloze.Text.White
import Cloze.Toml.Reader
import Cloze.Toml.Scalar
import Cloze.Toml.Table
import Cloze.Toml.Text
import Cloze.Toml.Value
import Cloze.View.Catalog
import Cloze.View.Diagram
import Cloze.View.Json
import Cloze.View.Outline
import Cloze.View.Source
import Cloze.View.Yaml
import Cloze.Proofs.Trail
import Cloze.Proofs.Prospect
import Cloze.Proofs.Continuation
import Cloze.Proofs.Sound
import Cloze.Proofs.Skipping
import Cloze.Proofs.Searching
import Cloze.Proofs.Offering
import Cloze.Proofs.Filling
import Cloze.Proofs.Reached
import Cloze.Proofs.Reading
import Cloze.Proofs.Landing
import Cloze.Proofs.Remainder
import Cloze.Proofs.Headroom
import Cloze.Proofs.Appending
import Cloze.Proofs.Spelling
import Cloze.Proofs.Moves
import Cloze.Proofs.Walking
import Cloze.Proofs.Noting
import Cloze.Proofs.Editing
import Cloze.Proofs.Refusing
import Cloze.Proofs.Chaining
import Cloze.Proofs.Steady
import Cloze.Proofs.Repeating
import Cloze.Proofs.Mirror
import Cloze.Proofs.Mirroring
import Cloze.Proofs.Alike
import Cloze.Proofs.Twins
import Cloze.Proofs.Nesting
import Cloze.Proofs.Lines
import Cloze.Proofs.Indenting
import Cloze.Proofs.Whitespace
import Cloze.Proofs.Changing
import Cloze.Proofs.Intact
import Cloze.Proofs.Lasting
import Cloze.Proofs.Retrying
import Cloze.Proofs.Unbounded
import Cloze.Proofs.Ending
import Cloze.Proofs.Trailing
import Cloze.Proofs.Faults
import Cloze.Proofs.Numbering
import Cloze.Proofs.Readback
import Cloze.Proofs.Scripts
import Cloze.Proofs.Corners
import Cloze.Proofs.Views
import Cloze.Proofs.Neighbours
import Cloze.Proofs.Binding
import Cloze.Proofs.Attachment
import Cloze.Proofs.Agreeing
import Cloze.Proofs.Scoping
import Cloze.Proofs.Spacing
import Cloze.Proofs.Cutting
import Cloze.Proofs.Verbatim
import Cloze.Proofs.Picking
import Cloze.Proofs.Joining
import Cloze.Proofs.Digraphs
import Cloze.Proofs.Condensing
import Cloze.Proofs.Depicting
import Cloze.Proofs.Levels
import Cloze.Proofs.Weighing
import Cloze.Proofs.Traceless
