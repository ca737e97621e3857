import ResumableParsing.Text.Alphabetic
import ResumableParsing.Text.Blank
import ResumableParsing.Text.CaseFold
import ResumableParsing.Text.Digit
import ResumableParsing.Text.Hidden
import ResumableParsing.Text.Word
import ResumableParsing.Text.Quoted
import ResumableParsing.Item
import ResumableParsing.Failure.Message
import ResumableParsing.Exchange
import ResumableParsing.Machine.Inquiry
import ResumableParsing.Machine.Sequencing
import ResumableParsing.Machine.Handling
import ResumableParsing.Machine.Choice
import ResumableParsing.Machine.Repetition
import ResumableParsing.Machine.Deferred
import ResumableParsing.Grammar.Derived
import ResumableParsing.Engine.Basic
import ResumableParsing.Pattern.Reading
import ResumableParsing.Script.Meaning
import ResumableParsing.Position
import ResumableParsing.Reader.Source
import ResumableParsing.Proofs.Dialogue
import ResumableParsing.Proofs.Descent.Basic
import ResumableParsing.Proofs.Descent.Sequencing
import ResumableParsing.Proofs.Descent.Choice
import ResumableParsing.Proofs.Descent.Repetition
import ResumableParsing.Proofs.Descent.Approximation
import ResumableParsing.Proofs.Descent.Grammar
import ResumableParsing.Proofs.Engine.Session
import ResumableParsing.Proofs.Engine.Step
import ResumableParsing.Proofs.Engine.History
import ResumableParsing.Proofs.Engine.Ledger
import ResumableParsing.Proofs.Descent.Blame
import ResumableParsing.Proofs.Descent.Adequacy
import ResumableParsing.Proofs.Custody
import ResumableParsing.Proofs.Engine.Streaming
import ResumableParsing.Proofs.Engine.Schedule
import ResumableParsing.Proofs.Engine.Tracker
import ResumableParsing.Proofs.Engine.Tiling
import ResumableParsing.Proofs.Watch.Grammar
import ResumableParsing.Proofs.Engine.Watch
import ResumableParsing.Proofs.Engine.Window
import ResumableParsing.Proofs.Engine.Tokens
import ResumableParsing.Proofs.Descent.Tokenless
import ResumableParsing.Proofs.Reader.Utf8
import ResumableParsing.Proofs.Engine.Pieces
import ResumableParsing.Proofs.Reader.Chunks
import ResumableParsing.Proofs.Reader.Source
import ResumableParsing.Proofs.Descent.Total
import ResumableParsing.Proofs.Reader.Malformed
import ResumableParsing.Proofs.Reader.Held
import ResumableParsing.Proofs.Engine.Termination
import ResumableParsing.Proofs.Escape.Basic
import ResumableParsing.Proofs.Escape.Grammar
import ResumableParsing.Proofs.Engine.EmptyPiece
import ResumableParsing.Proofs.Descent.Displacement
import ResumableParsing.Proofs.Engine.Sessions
import ResumableParsing.Proofs.Engine.Independence
import ResumableParsing.Proofs.Engine.Records
import ResumableParsing.Proofs.Engine.Ending
import ResumableParsing.Proofs.Course.Choice
import ResumableParsing.Proofs.Course.Repetition
import ResumableParsing.Proofs.Laws.Algebra
import ResumableParsing.Proofs.Laws.Repetition
import ResumableParsing.Proofs.Course.Nesting
import ResumableParsing.Proofs.Insistence.Basic
import ResumableParsing.Proofs.Insistence.Grammar
import ResumableParsing.Proofs.Pattern.Matching
import ResumableParsing.Proofs.Pattern.Local
import ResumableParsing.Proofs.Pattern.Bracket
import ResumableParsing.Proofs.Pattern.Lexeme
import ResumableParsing.Proofs.Pattern.Reading
import ResumableParsing.Proofs.Pattern.Documented
import ResumableParsing.Proofs.Pattern.Standard
import ResumableParsing.Proofs.Pattern.Anchored
import ResumableParsing.Proofs.Completion
import ResumableParsing.Proofs.Confinement
