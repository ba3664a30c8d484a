import Homoicon.CallState
import Homoicon.Command
import Homoicon.CommandLine
import Homoicon.Config
import Homoicon.Decimal.Binary64
import Homoicon.Decimal.Reading
import Homoicon.Decimal.Shortest
import Homoicon.Decimal.Written
import Homoicon.Eval
import Homoicon.Evaluate.Call
import Homoicon.Evaluate.Escape
import Homoicon.Evaluate.Frame
import Homoicon.Evaluate.Fulfil
import Homoicon.Evaluate.Invoke
import Homoicon.Evaluate.Lookahead
import Homoicon.Evaluate.Operation.Access
import Homoicon.Evaluate.Operation.Arithmetic
import Homoicon.Evaluate.Operation.Comparison
import Homoicon.Evaluate.Operation.Control
import Homoicon.Evaluate.Operation.Generator
import Homoicon.Evaluate.Operation.Host
import Homoicon.Evaluate.Operation.Slots
import Homoicon.Evaluate.Path
import Homoicon.Evaluate.Run
import Homoicon.Evaluate.Step
import Homoicon.Evaluate.Varargs
import Homoicon.Evaluate.Watch
import Homoicon.Event
import Homoicon.Fault
import Homoicon.Feed
import Homoicon.Interactive.Assistant
import Homoicon.Interactive.Completeness
import Homoicon.Interactive.Dialogue
import Homoicon.Interactive.Erasure
import Homoicon.Kind
import Homoicon.Machine
import Homoicon.Main
import Homoicon.Native
import Homoicon.OutCell
import Homoicon.Param
import Homoicon.Proofs.Adapting
import Homoicon.Proofs.Agreement
import Homoicon.Proofs.Arithmetic
import Homoicon.Proofs.Chains
import Homoicon.Proofs.Checkpoints
import Homoicon.Proofs.Claiming
import Homoicon.Proofs.Completeness
import Homoicon.Proofs.Completing
import Homoicon.Proofs.Consuming
import Homoicon.Proofs.Defaulting
import Homoicon.Proofs.Deferral
import Homoicon.Proofs.Delivery
import Homoicon.Proofs.Draining
import Homoicon.Proofs.Elements
import Homoicon.Proofs.Embedding
import Homoicon.Proofs.Escapes
import Homoicon.Proofs.Filling
import Homoicon.Proofs.Fixity
import Homoicon.Proofs.Foresight
import Homoicon.Proofs.Formed
import Homoicon.Proofs.Frames
import Homoicon.Proofs.Fulfilment
import Homoicon.Proofs.Good
import Homoicon.Proofs.Grouping
import Homoicon.Proofs.Guard
import Homoicon.Proofs.Installation
import Homoicon.Proofs.Isolation
import Homoicon.Proofs.LastValue
import Homoicon.Proofs.LeftVarargs
import Homoicon.Proofs.Lexemes
import Homoicon.Proofs.Life
import Homoicon.Proofs.Lines
import Homoicon.Proofs.Logic
import Homoicon.Proofs.Logic.Fulfil
import Homoicon.Proofs.Logic.Operations
import Homoicon.Proofs.Logic.Paths
import Homoicon.Proofs.Logic.Steps
import Homoicon.Proofs.Lookback
import Homoicon.Proofs.Loops
import Homoicon.Proofs.Mirror
import Homoicon.Proofs.Naming
import Homoicon.Proofs.Nearest
import Homoicon.Proofs.Nested
import Homoicon.Proofs.Operands
import Homoicon.Proofs.Operators
import Homoicon.Proofs.Parameters
import Homoicon.Proofs.Passes
import Homoicon.Proofs.Paths
import Homoicon.Proofs.Presets
import Homoicon.Proofs.Progress
import Homoicon.Proofs.Quoting
import Homoicon.Proofs.Reach
import Homoicon.Proofs.Redoing
import Homoicon.Proofs.References
import Homoicon.Proofs.Renumbering
import Homoicon.Proofs.Renumbering.Fulfil
import Homoicon.Proofs.Renumbering.Machines
import Homoicon.Proofs.Renumbering.Operations
import Homoicon.Proofs.Renumbering.Owning
import Homoicon.Proofs.Renumbering.Paths
import Homoicon.Proofs.Renumbering.Runs
import Homoicon.Proofs.Renumbering.Steps
import Homoicon.Proofs.Renumbering.Tracks
import Homoicon.Proofs.Reordering
import Homoicon.Proofs.Requests
import Homoicon.Proofs.Rereading
import Homoicon.Proofs.Results
import Homoicon.Proofs.Return
import Homoicon.Proofs.Rounds
import Homoicon.Proofs.Routing
import Homoicon.Proofs.Scanned
import Homoicon.Proofs.SlotTypes
import Homoicon.Proofs.Spans
import Homoicon.Proofs.Specializing
import Homoicon.Proofs.Spelling
import Homoicon.Proofs.Stage
import Homoicon.Proofs.Stage.Calls
import Homoicon.Proofs.Stage.Steps
import Homoicon.Proofs.States
import Homoicon.Proofs.Supplies
import Homoicon.Proofs.Switches
import Homoicon.Proofs.Tandem
import Homoicon.Proofs.Tandem.Fulfil
import Homoicon.Proofs.Tandem.Operations
import Homoicon.Proofs.Tandem.Paths
import Homoicon.Proofs.Tandem.Steps
import Homoicon.Proofs.Termination
import Homoicon.Proofs.Tokens
import Homoicon.Proofs.Trace
import Homoicon.Proofs.Transparency
import Homoicon.Proofs.Waiting
import Homoicon.Registry
import Homoicon.Registry.Standard
import Homoicon.Scope
import Homoicon.Session
import Homoicon.Settings
import Homoicon.Signal
import Homoicon.Source.Number
import Homoicon.Source.Path
import Homoicon.Source.Position
import Homoicon.Source.Scan
import Homoicon.Source.Token
import Homoicon.Spec
import Homoicon.Supply
import Homoicon.Text.Alphabetic
import Homoicon.Text.Blank
import Homoicon.Text.BreakClass
import Homoicon.Text.Bytes
import Homoicon.Text.Cluster
import Homoicon.Text.Extending
import Homoicon.Text.Printable
import Homoicon.Text.Quoted
import Homoicon.Text.Ranges
import Homoicon.Toml.Document
import Homoicon.Toml.Lexeme
import Homoicon.Value.Basic
import Homoicon.Value.Mold
import Homoicon.Value.Same
