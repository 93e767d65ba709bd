import Argot.CommandLine.Arguments
import Argot.CommandLine.Command
import Argot.CommandLine.Grammar
import Argot.Conversion.Comment
import Argot.Conversion.Decision
import Argot.Conversion.Edit
import Argot.Conversion.Forward
import Argot.Conversion.Reverse
import Argot.Diagnostic
import Argot.Files.Batch
import Argot.Files.FileTree
import Argot.Files.Find
import Argot.Files.Glob
import Argot.Files.Path
import Argot.Files.Scheduler
import Argot.Files.Watch
import Argot.Files.Watcher
import Argot.Json.Reader
import Argot.Json.Value
import Argot.Json.Writer
import Argot.Main
import Argot.Options
import Argot.OrderedMap
import Argot.RoundTrip
import Argot.Session
import Argot.Slice
import Argot.Sniff
import Argot.Source.Kind
import Argot.Source.Listing
import Argot.Source.Node
import Argot.Source.Token
import Argot.Source.Tree
import Argot.Text.Blank
import Argot.Text.Decimal
import Argot.Text.Integer
import Argot.Text.LowerCase
import Argot.Text.Matcher
import Argot.Text.Newline
import Argot.Text.Printable
import Argot.Text.Quoted
import Argot.Text.Ranges
import Argot.Text.Scalar
import Argot.Text.Spelling
import Argot.Text.Utf8
import Argot.Text.Word
import Argot.Twister
import Argot.Validation
import Argot.Vocabulary.Atom
import Argot.Vocabulary.Category
import Argot.Vocabulary.Index
import Argot.Vocabulary.Record
import Argot.Vocabulary.Standard
import Argot.Vocabulary.Table
import Argot.Proofs.Vocabulary.WayBack
import Argot.Proofs.Vocabulary.Agreement
import Argot.Proofs.Conversion.Undone
import Argot.Proofs.Conversion.Annotation
import Argot.Proofs.Conversion.Output
import Argot.Proofs.Conversion.StrictMode
import Argot.Proofs.Conversion.ThereAndBack
import Argot.Proofs.Conversion.Locality
import Argot.Proofs.Conversion.Stripping
import Argot.Proofs.Conversion.FidelityNotes
import Argot.Proofs.Conversion.DroppedComments
import Argot.Proofs.Json.ReadsBack
import Argot.Proofs.Vocabulary.Records
import Argot.Proofs.Conversion.Protected
import Argot.Proofs.Conversion.Decoration
import Argot.Proofs.Conversion.Sayings
import Argot.Proofs.Conversion.Decorators
import Argot.Proofs.Files.Scheduling
import Argot.Proofs.Files.Watching
import Argot.Proofs.Files.Clashes
import Argot.Proofs.Files.Isolation
import Argot.Proofs.Files.OutputRecord
import Argot.Proofs.Vocabulary.Contests
import Argot.Proofs.Vocabulary.Dropped
import Argot.Proofs.Session.Histories
import Argot.Proofs.Files.LineEnds
import Argot.Proofs.Files.Supersession
import Argot.Proofs.Conversion.InTurn
import Argot.Proofs.Conversion.LeftmostLongest
import Argot.Proofs.Conversion.Admission
import Argot.Proofs.Source.Preorder
import Argot.Proofs.Session.Reports
import Argot.Proofs.Session.Ignored
import Argot.Proofs.Files.Directly
import Argot.Proofs.Vocabulary.TakenBack
import Argot.Proofs.Vocabulary.Suggestions
import Argot.Proofs.Vocabulary.Spelled
import Argot.Proofs.Files.Inputs
import Argot.Proofs.Source.Faults
import Argot.Proofs.Vocabulary.Resembling
import Argot.Proofs.CommandLine.Frameworks
