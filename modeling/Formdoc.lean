import Formdoc.Body.Block
import Formdoc.Body.Markdown
import Formdoc.Body.Printer
import Formdoc.Body.Reader
import Formdoc.Body.Tag
import Formdoc.Body.Token
import Formdoc.Command.Basic
import Formdoc.Command.Event
import Formdoc.Command.Failure
import Formdoc.Command.Line
import Formdoc.Command.Outline
import Formdoc.Debouncer
import Formdoc.Diagnostic
import Formdoc.Document.Basic
import Formdoc.Document.Data
import Formdoc.Document.Edit
import Formdoc.Document.Metadata
import Formdoc.Document.Regions
import Formdoc.Document.View
import Formdoc.Field
import Formdoc.Files.Check
import Formdoc.Files.Documents
import Formdoc.Files.Path
import Formdoc.Files.Tree
import Formdoc.Json.Reader
import Formdoc.Json.Value
import Formdoc.Main
import Formdoc.Number.Binary64
import Formdoc.Number.Decimal
import Formdoc.OrderedMap
import Formdoc.Palette.Escape
import Formdoc.Palette.Load
import Formdoc.Palette.Manifest
import Formdoc.Palette.Registry
import Formdoc.Palette.Source
import Formdoc.Proofs.Body.Anchored
import Formdoc.Proofs.Body.Blocks
import Formdoc.Proofs.Body.Component
import Formdoc.Proofs.Body.Decomposition
import Formdoc.Proofs.Body.Grammar
import Formdoc.Proofs.Body.Groups
import Formdoc.Proofs.Body.Joined
import Formdoc.Proofs.Body.Openings
import Formdoc.Proofs.Body.Places
import Formdoc.Proofs.Body.Returns
import Formdoc.Proofs.Body.Rewritten
import Formdoc.Proofs.Body.Settled
import Formdoc.Proofs.Body.Shape
import Formdoc.Proofs.Body.Tags
import Formdoc.Proofs.Body.WellFormed
import Formdoc.Proofs.Body.Written
import Formdoc.Proofs.Command.Check
import Formdoc.Proofs.Command.Confined
import Formdoc.Proofs.Command.Verdict
import Formdoc.Proofs.Debouncer
import Formdoc.Proofs.Document.Addition
import Formdoc.Proofs.Document.Appended
import Formdoc.Proofs.Document.Components
import Formdoc.Proofs.Document.Confined
import Formdoc.Proofs.Document.DataLine
import Formdoc.Proofs.Document.Diagnostics
import Formdoc.Proofs.Document.Edit
import Formdoc.Proofs.Document.Format
import Formdoc.Proofs.Document.Insertion
import Formdoc.Proofs.Document.Kept
import Formdoc.Proofs.Document.Refusal
import Formdoc.Proofs.Document.Returns
import Formdoc.Proofs.Document.RoundTrip
import Formdoc.Proofs.Document.Updates
import Formdoc.Proofs.Document.Written
import Formdoc.Proofs.Files.Below
import Formdoc.Proofs.Files.Order
import Formdoc.Proofs.Files.Spelling
import Formdoc.Proofs.Files.Tree
import Formdoc.Proofs.Map
import Formdoc.Proofs.Palette.Escape
import Formdoc.Proofs.Palette.Load
import Formdoc.Proofs.Palette.Manifest
import Formdoc.Proofs.Palette.Registry
import Formdoc.Proofs.Regions.Account
import Formdoc.Proofs.Regions.Cut
import Formdoc.Proofs.Regions.FirstOpening
import Formdoc.Proofs.Regions.Framing
import Formdoc.Proofs.Regions.FrontMatter
import Formdoc.Proofs.Regions.Layout
import Formdoc.Proofs.Regions.Opening
import Formdoc.Proofs.Regions.ReadBack
import Formdoc.Proofs.Regions.Returns
import Formdoc.Proofs.Regions.Section
import Formdoc.Proofs.Regions.Spill
import Formdoc.Proofs.Text.Lines
import Formdoc.Proofs.Text.Returns
import Formdoc.Proofs.Text.Search
import Formdoc.Proofs.Text.Trim
import Formdoc.Proofs.Text.Words
import Formdoc.Proofs.Value.Agreement
import Formdoc.Proofs.Value.Escaped
import Formdoc.Proofs.Value.Float
import Formdoc.Proofs.Value.Lasting
import Formdoc.Proofs.Value.Number
import Formdoc.Proofs.Value.Written
import Formdoc.Scalar
import Formdoc.Settings
import Formdoc.Text.Blank
import Formdoc.Text.CodePoint
import Formdoc.Text.Entry
import Formdoc.Text.Invisible
import Formdoc.Text.Lines
import Formdoc.Text.Literal
import Formdoc.Text.Search
import Formdoc.Toml.Reader
import Formdoc.Toml.Value
import Formdoc.Toml.Word
import Formdoc.Yaml.Folding
import Formdoc.Yaml.Reader
import Formdoc.Yaml.Spot
import Formdoc.Yaml.Token
import Formdoc.Yaml.Value
