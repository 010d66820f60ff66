import MathMarkup.Main
import MathMarkup.MathML.Report
import MathMarkup.Proofs.Repair.Completeness
import MathMarkup.Proofs.Text.Search
import MathMarkup.Proofs.Placeholder.Items
import MathMarkup.Proofs.Rows.Breaks
import MathMarkup.Proofs.Rows.Cells
import MathMarkup.Proofs.Placeholder.Rewrites
import MathMarkup.Proofs.Rows.Carried
import MathMarkup.Proofs.Conversion.Reading
import MathMarkup.Proofs.Conversion.Nesting
import MathMarkup.Proofs.Xml.Tags
import MathMarkup.Proofs.Markup.Sound
import MathMarkup.Proofs.Markup.Document
import MathMarkup.Proofs.Conversion.Sound
import MathMarkup.Proofs.Conversion.Validity
import MathMarkup.Proofs.Normal.Blocks
import MathMarkup.Proofs.Normal.Spans
import MathMarkup.Proofs.Normal.Protection
import MathMarkup.Proofs.Normal.Lexing
import MathMarkup.Proofs.Normal.Lines
import MathMarkup.Proofs.Normal.Alignment
import MathMarkup.Proofs.Normal.Gaps
import MathMarkup.Proofs.Normal.Touch
import MathMarkup.Proofs.Normal.Fixes
import MathMarkup.Proofs.Normal.Settled
import MathMarkup.Proofs.Normal.Display
import MathMarkup.Proofs.Normal.Idempotence
import MathMarkup.Proofs.Repair.Conservation
import MathMarkup.Proofs.Safety.Choices
import MathMarkup.Proofs.Relay.Emission
import MathMarkup.Proofs.Relay.Runs
import MathMarkup.Proofs.Relay.Coherence
import MathMarkup.Proofs.Relay.Answers
import MathMarkup.Proofs.Relay.Sessions
import MathMarkup.Proofs.Relay.Finality
import MathMarkup.Proofs.Safety.FileCommands
import MathMarkup.Proofs.Normal.Frame
import MathMarkup.Proofs.Rows.Content
import MathMarkup.Proofs.Normal.Substance
import MathMarkup.Proofs.Normal.Modes
import MathMarkup.Proofs.Normal.Covered
import MathMarkup.Proofs.Normal.Silence
import MathMarkup.Proofs.Normal.Closing
import MathMarkup.Proofs.Normal.Weave
import MathMarkup.Proofs.Normal.Verbatim
import MathMarkup.Proofs.Xml.Readers
import MathMarkup.Proofs.Xml.Beside
import MathMarkup.Proofs.Xml.Widening
import MathMarkup.Proofs.Xml.Likeness
import MathMarkup.Proofs.Xml.Roots
import MathMarkup.Proofs.Markup.Written
import MathMarkup.Proofs.Markup.Grammar
import MathMarkup.Proofs.Markup.Namespace
import MathMarkup.Proofs.Relay.Isolation
import MathMarkup.Proofs.Relay.Serving
import MathMarkup.Proofs.Xml.Content
import MathMarkup.Proofs.Xml.Heads
import MathMarkup.Proofs.Xml.Rereading
import MathMarkup.Proofs.Xml.RoundTrip
import MathMarkup.Proofs.Xml.Legality
import MathMarkup.Proofs.Xml.Stability
import MathMarkup.Proofs.Text.Cuts
import MathMarkup.Proofs.Placeholder.SharedMap
import MathMarkup.Proofs.Relay.Splitting
import MathMarkup.Proofs.Relay.Pacing
import MathMarkup.Proofs.Markup.Symbols
import MathMarkup.Proofs.Conversion.Unknown
import MathMarkup.Proofs.Conversion.Conserved
import MathMarkup.Proofs.Text.Groups
import MathMarkup.Proofs.Conversion.Constructs
import MathMarkup.Proofs.Conversion.Scripts
import MathMarkup.Proofs.Conversion.Shifts
import MathMarkup.Proofs.Rows.Grid
import MathMarkup.Proofs.Placeholder.Seams
import MathMarkup.Proofs.Conversion.Tables
import MathMarkup.Proofs.Display.Brackets
import MathMarkup.Proofs.Normal.Places
import MathMarkup.Proofs.Text.Levels
import MathMarkup.Proofs.Cosmetic.Balance
import MathMarkup.Proofs.Cosmetic.Colors
import MathMarkup.Proofs.Display.Environments
import MathMarkup.Proofs.Rows.Separators
import MathMarkup.Proofs.Placeholder.Forgery
import MathMarkup.Proofs.Placeholder.Hidden
import MathMarkup.Proofs.Xml.CharacterData
import MathMarkup.Proofs.Safety.Remains
import MathMarkup.Proofs.Repair.Once
import MathMarkup.Proofs.Delimiter.Pairing
import MathMarkup.Proofs.Normal.Nested
import MathMarkup.Proofs.Rows.Segments
import MathMarkup.Proofs.Conversion.Arguments
import MathMarkup.Proofs.Conversion.Supplied
import MathMarkup.Proofs.Conversion.Faultless
import MathMarkup.Proofs.Delimiter.Braces
import MathMarkup.Proofs.Conversion.Checked
import MathMarkup.Proofs.Conversion.Unshifted
import MathMarkup.Proofs.Conversion.Agreement
import MathMarkup.Proofs.Text.Ranges
import MathMarkup.Proofs.Route.Prose
import MathMarkup.Proofs.Check.Findings
import MathMarkup.Proofs.Check.Places
import MathMarkup.Proofs.Phrase.Groups
import MathMarkup.Proofs.Phrase.Rules
import MathMarkup.Proofs.Phrase.Reading
import MathMarkup.Proofs.Text.Slices
import MathMarkup.Proofs.Xml.References
import MathMarkup.Proofs.Span.Environments
import MathMarkup.Proofs.Span.Bytes
import MathMarkup.Proofs.Span.Groups
import MathMarkup.Proofs.Span.Arguments
import MathMarkup.Proofs.Span.Readers
