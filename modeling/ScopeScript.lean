import ScopeScript.Bindings
import ScopeScript.Channel.Input
import ScopeScript.Channel.Output
import ScopeScript.CommandLine.Arguments
import ScopeScript.CommandLine.Directory
import ScopeScript.CommandLine.Place
import ScopeScript.CommandLine.Report
import ScopeScript.CommandLine.Timeline
import ScopeScript.Decimal.Binary64
import ScopeScript.Decimal.Notation
import ScopeScript.Decimal.Numeral
import ScopeScript.Decimal.Remainder
import ScopeScript.Decimal.Shortest
import ScopeScript.Diagnostic
import ScopeScript.Evaluation
import ScopeScript.Import.Expansion
import ScopeScript.Import.Segment
import ScopeScript.Json
import ScopeScript.Machine
import ScopeScript.Main
import ScopeScript.Proofs.Bytewise.Encoding
import ScopeScript.Proofs.Bytewise.Importer
import ScopeScript.Proofs.Bytewise.Offsets
import ScopeScript.Proofs.Bytewise.Scanner
import ScopeScript.Proofs.Channel.Lines
import ScopeScript.Proofs.CommandLine.Conversation
import ScopeScript.Proofs.Decimal.Bits
import ScopeScript.Proofs.Decimal.Positional
import ScopeScript.Proofs.Decimal.Printing
import ScopeScript.Proofs.Decimal.Reading
import ScopeScript.Proofs.Decimal.Rounding
import ScopeScript.Proofs.Decimal.Shortest
import ScopeScript.Proofs.Execution.ClassDeclaration
import ScopeScript.Proofs.Execution.Closed
import ScopeScript.Proofs.Execution.ControlFlow
import ScopeScript.Proofs.Execution.CountingLoop
import ScopeScript.Proofs.Execution.Dedicated
import ScopeScript.Proofs.Execution.Depth
import ScopeScript.Proofs.Execution.Dispatch
import ScopeScript.Proofs.Execution.Effects
import ScopeScript.Proofs.Execution.Footprint
import ScopeScript.Proofs.Execution.Forest
import ScopeScript.Proofs.Execution.Grounded
import ScopeScript.Proofs.Execution.GroundedEffects
import ScopeScript.Proofs.Execution.Groundedness
import ScopeScript.Proofs.Execution.Growth
import ScopeScript.Proofs.Execution.Iterations
import ScopeScript.Proofs.Execution.Lineage
import ScopeScript.Proofs.Execution.Moments
import ScopeScript.Proofs.Execution.Overflow
import ScopeScript.Proofs.Execution.Parts
import ScopeScript.Proofs.Execution.Point
import ScopeScript.Proofs.Execution.Reading
import ScopeScript.Proofs.Execution.Silence
import ScopeScript.Proofs.Execution.Sound
import ScopeScript.Proofs.Execution.Soundness
import ScopeScript.Proofs.Execution.Stopping
import ScopeScript.Proofs.Execution.Superclass
import ScopeScript.Proofs.Execution.Updates
import ScopeScript.Proofs.Execution.Writes
import ScopeScript.Proofs.Importing.Lifetime
import ScopeScript.Proofs.Importing.Lines
import ScopeScript.Proofs.Importing.Recognition
import ScopeScript.Proofs.Importing.Unfolding
import ScopeScript.Proofs.Likeness.Bare
import ScopeScript.Proofs.Likeness.Changed
import ScopeScript.Proofs.Likeness.Joined
import ScopeScript.Proofs.Likeness.Machines
import ScopeScript.Proofs.Likeness.Moved
import ScopeScript.Proofs.Likeness.Objects
import ScopeScript.Proofs.Likeness.Runs
import ScopeScript.Proofs.Likeness.Simulation
import ScopeScript.Proofs.Likeness.Tree
import ScopeScript.Proofs.Likeness.TwinRuns
import ScopeScript.Proofs.Likeness.Twins
import ScopeScript.Proofs.Likeness.Values
import ScopeScript.Proofs.Likeness.Walks
import ScopeScript.Proofs.Parsing.CountingLoop
import ScopeScript.Proofs.Parsing.Derivation
import ScopeScript.Proofs.Parsing.ExpressionCompleteness
import ScopeScript.Proofs.Parsing.ExpressionSoundness
import ScopeScript.Proofs.Parsing.Faults
import ScopeScript.Proofs.Parsing.Indexed
import ScopeScript.Proofs.Parsing.Joined
import ScopeScript.Proofs.Parsing.Lookahead
import ScopeScript.Proofs.Parsing.MissingSemicolons
import ScopeScript.Proofs.Parsing.Numbering
import ScopeScript.Proofs.Parsing.Outcome
import ScopeScript.Proofs.Parsing.PrefixForm
import ScopeScript.Proofs.Parsing.StatementCompleteness
import ScopeScript.Proofs.Parsing.StatementSoundness
import ScopeScript.Proofs.Parsing.Totality
import ScopeScript.Proofs.Parsing.Tracking
import ScopeScript.Proofs.Parsing.TreeForm
import ScopeScript.Proofs.Parsing.Uniformity
import ScopeScript.Proofs.Parsing.Updates
import ScopeScript.Proofs.Scanning.Inclusion
import ScopeScript.Proofs.Scanning.Joined
import ScopeScript.Proofs.Scanning.Layout
import ScopeScript.Proofs.Scanning.Lexicon
import ScopeScript.Proofs.Scanning.Lines
import ScopeScript.Proofs.Scanning.Munch
import ScopeScript.Proofs.Scanning.Numerals
import ScopeScript.Proofs.Scanning.Respacing
import ScopeScript.Proofs.Scanning.Seams
import ScopeScript.Proofs.Scanning.Verbatim
import ScopeScript.Proofs.Scope.Addresses
import ScopeScript.Proofs.Scope.Distinct
import ScopeScript.Proofs.Scope.Inheritance
import ScopeScript.Proofs.Scope.Lexical
import ScopeScript.Proofs.Scope.Occurrence
import ScopeScript.Proofs.Scope.Reports
import ScopeScript.Proofs.Scope.Rules
import ScopeScript.Proofs.Scope.Updates
import ScopeScript.Proofs.Scope.Violations
import ScopeScript.Proofs.Scope.Walk
import ScopeScript.Proofs.Sessions.Activations
import ScopeScript.Proofs.Sessions.Agreement
import ScopeScript.Proofs.Sessions.Assignments
import ScopeScript.Proofs.Sessions.Compilation
import ScopeScript.Proofs.Sessions.Containment
import ScopeScript.Proofs.Sessions.Diagnostics
import ScopeScript.Proofs.Sessions.Dispatch
import ScopeScript.Proofs.Sessions.Joined
import ScopeScript.Proofs.Sessions.Lifetime
import ScopeScript.Proofs.Sessions.Output
import ScopeScript.Proofs.Sessions.Receivers
import ScopeScript.Proofs.Sessions.Rejection
import ScopeScript.Proofs.Sessions.Renaming
import ScopeScript.Proofs.Sessions.Restoration
import ScopeScript.Proofs.Sessions.Steps
import ScopeScript.Proofs.Sessions.Stepwise
import ScopeScript.Proofs.Sessions.Timeline
import ScopeScript.Proofs.Sessions.Trails
import ScopeScript.Proofs.Syntax.Change
import ScopeScript.Proofs.Syntax.Form
import ScopeScript.Proofs.Syntax.Lines
import ScopeScript.Proofs.Syntax.Numbers
import ScopeScript.Proofs.Syntax.Readback
import ScopeScript.Proofs.Syntax.Renumbering
import ScopeScript.Proofs.Syntax.Sexp
import ScopeScript.Proofs.Syntax.Words
import ScopeScript.Proofs.Values.Input
import ScopeScript.Proofs.Values.NumberText
import ScopeScript.Scope.Resolution
import ScopeScript.Session
import ScopeScript.Store
import ScopeScript.Syntax.Cursor
import ScopeScript.Syntax.Grammar
import ScopeScript.Syntax.PrefixForm
import ScopeScript.Syntax.Tree
import ScopeScript.Text.Blank
import ScopeScript.Text.CharRange
import ScopeScript.Text.Extender
import ScopeScript.Text.Hidden
import ScopeScript.Text.Quoted
import ScopeScript.Text.Unassigned
import ScopeScript.Token.Basic
import ScopeScript.Token.Piece
import ScopeScript.Token.Scan
import ScopeScript.Value
