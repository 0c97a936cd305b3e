import MarkupOutline.Line.Keyword
import MarkupOutline.Timing.Loop
import MarkupOutline.Editor.Basic
import MarkupOutline.Wire.Form
import MarkupOutline.Proofs.Text.Scan
import MarkupOutline.Proofs.Markup.Spelling
import MarkupOutline.Proofs.Markup.Transcript
import MarkupOutline.Proofs.Pretty.Spelled
import MarkupOutline.Proofs.Pretty.RoundTrip
import MarkupOutline.Proofs.Pretty.Nested
import MarkupOutline.Proofs.Text.Window
import MarkupOutline.Proofs.Text.Utf8
import MarkupOutline.Proofs.Block.Closing
import MarkupOutline.Proofs.Block.Plain
import MarkupOutline.Proofs.Block.Content
import MarkupOutline.Proofs.Outline.Forest
import MarkupOutline.Proofs.Outline.Recursive
import MarkupOutline.Proofs.Line.Written
import MarkupOutline.Proofs.Line.Opening
import MarkupOutline.Proofs.Line.Occurrence
import MarkupOutline.Proofs.Markup.ElementTree
import MarkupOutline.Proofs.Pretty.TreeLines
import MarkupOutline.Proofs.Outline.Mirror
import MarkupOutline.Proofs.Outline.Forgetful
import MarkupOutline.Proofs.Outline.Coverage
import MarkupOutline.Proofs.Outline.Paths
import MarkupOutline.Proofs.Outline.Guarded
import MarkupOutline.Proofs.Outline.Handles
import MarkupOutline.Proofs.Outline.Trimmed
import MarkupOutline.Proofs.Outline.Flattened
import MarkupOutline.Proofs.Editor.Settled
import MarkupOutline.Proofs.Timing.Quiet
import MarkupOutline.Proofs.Timing.Relay
import MarkupOutline.Proofs.Timing.Ledger
import MarkupOutline.Proofs.Editor.Passes
import MarkupOutline.Proofs.Block.Forward
import MarkupOutline.Proofs.Block.Insertion
import MarkupOutline.Proofs.Pretty.SeparatedReading
import MarkupOutline.Proofs.Pretty.Stability
import MarkupOutline.Proofs.Pretty.Restyled
import MarkupOutline.Proofs.Markup.Reading
import MarkupOutline.Proofs.Pretty.Streamed
import MarkupOutline.Proofs.Pretty.Breaks
import MarkupOutline.Proofs.Pretty.Outcome
import MarkupOutline.Proofs.Block.Concatenation
import MarkupOutline.Proofs.Outline.Relocated
import MarkupOutline.Proofs.Outline.Excerpt
import MarkupOutline.Proofs.Outline.Gathered
import MarkupOutline.Proofs.Outline.Framed
import MarkupOutline.Proofs.Outline.Reopened
import MarkupOutline.Proofs.Outline.Named
import MarkupOutline.Proofs.Line.Agreement
import MarkupOutline.Proofs.Outline.Linear
import MarkupOutline.Proofs.Block.NextLower
import MarkupOutline.Proofs.Outline.Parts
