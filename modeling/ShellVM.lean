import ShellVM.Bytecode.Constant
import ShellVM.Bytecode.Instruction
import ShellVM.Bytecode.Listing
import ShellVM.Bytecode.Op
import ShellVM.Bytecode.Program
import ShellVM.Bytecode.Wire
import ShellVM.Cli.Command
import ShellVM.Compile.Compiler
import ShellVM.Compile.Construct
import ShellVM.Compile.Draft
import ShellVM.Compile.Error
import ShellVM.Compile.Expression
import ShellVM.Expr
import ShellVM.Fault
import ShellVM.Files
import ShellVM.Iter
import ShellVM.Job.Call
import ShellVM.Job.Exit
import ShellVM.Job.Flags
import ShellVM.Job.Handle
import ShellVM.Job.Locate
import ShellVM.Job.Shell.Arithmetic
import ShellVM.Job.Shell.Builtin
import ShellVM.Job.Shell.Command
import ShellVM.Job.Shell.Condition
import ShellVM.Job.Shell.Expand
import ShellVM.Job.Shell.Format
import ShellVM.Job.Shell.Parser
import ShellVM.Job.Shell.Pattern
import ShellVM.Job.Shell.Run
import ShellVM.Job.Shell.Session
import ShellVM.Job.Shell.Signal
import ShellVM.Job.Shell.Utility
import ShellVM.Job.Start
import ShellVM.Job.Stream
import ShellVM.Library
import ShellVM.Machine.Basic
import ShellVM.Machine.Call
import ShellVM.Machine.Perform
import ShellVM.Machine.Run
import ShellVM.Main
import ShellVM.Number.Layout
import ShellVM.Number.Reader
import ShellVM.Number.Remainder
import ShellVM.Number.Word
import ShellVM.OrderedMap
import ShellVM.Proofs.Alike.Closure
import ShellVM.Proofs.Alike.Effect
import ShellVM.Proofs.Alike.Job
import ShellVM.Proofs.Alike.Library
import ShellVM.Proofs.Alike.Observe
import ShellVM.Proofs.Alike.Operation
import ShellVM.Proofs.Alike.Value
import ShellVM.Proofs.Alike.World
import ShellVM.Proofs.Arithmetic
import ShellVM.Proofs.Balance.Affords
import ShellVM.Proofs.Balance.Declared
import ShellVM.Proofs.Bookkeeping.Checked
import ShellVM.Proofs.Bookkeeping.Compiler
import ShellVM.Proofs.Bookkeeping.Construct
import ShellVM.Proofs.Bookkeeping.Expression
import ShellVM.Proofs.Bookkeeping.Page
import ShellVM.Proofs.Bookkeeping.Scope
import ShellVM.Proofs.Bookkeeping.Starts
import ShellVM.Proofs.Bookkeeping.Steady
import ShellVM.Proofs.Callbacks
import ShellVM.Proofs.Calls
import ShellVM.Proofs.Capture.Act
import ShellVM.Proofs.Capture.Compiled
import ShellVM.Proofs.Capture.Construct
import ShellVM.Proofs.Capture.Control
import ShellVM.Proofs.Capture.Expression
import ShellVM.Proofs.Capture.Hold
import ShellVM.Proofs.Capture.Ledger
import ShellVM.Proofs.Capture.Run
import ShellVM.Proofs.Capture.Shared
import ShellVM.Proofs.Capture.Sharing
import ShellVM.Proofs.Capture.Source
import ShellVM.Proofs.Capture.Step
import ShellVM.Proofs.Cast.Decimal
import ShellVM.Proofs.Cast.Distinct
import ShellVM.Proofs.Cast.Table
import ShellVM.Proofs.Computation
import ShellVM.Proofs.Constants
import ShellVM.Proofs.Contained
import ShellVM.Proofs.Container.Keys
import ShellVM.Proofs.Container.Place
import ShellVM.Proofs.Container.Store
import ShellVM.Proofs.Decoding
import ShellVM.Proofs.Direct.Access
import ShellVM.Proofs.Direct.Anything
import ShellVM.Proofs.Direct.Guarded
import ShellVM.Proofs.Direct.Machine
import ShellVM.Proofs.Direct.Respects
import ShellVM.Proofs.Direct.Value
import ShellVM.Proofs.Emission.Basic
import ShellVM.Proofs.Emission.Call
import ShellVM.Proofs.Emission.Compiler
import ShellVM.Proofs.Emission.Emits
import ShellVM.Proofs.Emission.Expression
import ShellVM.Proofs.Emission.Jump
import ShellVM.Proofs.Emission.Loop
import ShellVM.Proofs.Emission.Pages
import ShellVM.Proofs.Emission.Settled
import ShellVM.Proofs.Emission.Straight
import ShellVM.Proofs.Flow.Basic
import ShellVM.Proofs.Flow.Construct
import ShellVM.Proofs.Flow.Expression
import ShellVM.Proofs.Flow.Page
import ShellVM.Proofs.Interning
import ShellVM.Proofs.Job.Cancelled
import ShellVM.Proofs.Job.Disposal
import ShellVM.Proofs.Job.Effect
import ShellVM.Proofs.Job.Leaves
import ShellVM.Proofs.Job.Operands
import ShellVM.Proofs.Job.Protocol
import ShellVM.Proofs.Job.Request
import ShellVM.Proofs.Job.Uses
import ShellVM.Proofs.Keys
import ShellVM.Proofs.Layout.Construct
import ShellVM.Proofs.Layout.Expression
import ShellVM.Proofs.Layout.Reading
import ShellVM.Proofs.Layout.Scope
import ShellVM.Proofs.Limits.Bounds
import ShellVM.Proofs.Limits.Steps
import ShellVM.Proofs.Limits.Trades
import ShellVM.Proofs.Lines
import ShellVM.Proofs.Lockstep
import ShellVM.Proofs.Meaning.Control
import ShellVM.Proofs.Meaning.Entry
import ShellVM.Proofs.Meaning.Evaluator
import ShellVM.Proofs.Meaning.Expression
import ShellVM.Proofs.Meaning.Ground
import ShellVM.Proofs.Meaning.Instruction
import ShellVM.Proofs.Meaning.Operation
import ShellVM.Proofs.Meaning.Part
import ShellVM.Proofs.Meaning.Sits
import ShellVM.Proofs.Meaning.Step
import ShellVM.Proofs.Nesting
import ShellVM.Proofs.Operands.Call
import ShellVM.Proofs.Operands.Free
import ShellVM.Proofs.Operands.Evaluated
import ShellVM.Proofs.Order.Compare
import ShellVM.Proofs.Order.Content
import ShellVM.Proofs.Order.Total
import ShellVM.Proofs.Range.Access
import ShellVM.Proofs.Range.Slice
import ShellVM.Proofs.Range.Walk
import ShellVM.Proofs.Region.Handlers
import ShellVM.Proofs.Region.Heights
import ShellVM.Proofs.Region.Performs
import ShellVM.Proofs.Rollback.Definition
import ShellVM.Proofs.Rollback.Emission
import ShellVM.Proofs.Rollback.Entry
import ShellVM.Proofs.Rollback.Expression
import ShellVM.Proofs.Rollback.Pages
import ShellVM.Proofs.Rollback.Traced
import ShellVM.Proofs.Rooted.Captured
import ShellVM.Proofs.Rooted.Compiler
import ShellVM.Proofs.Rooted.Frames
import ShellVM.Proofs.Rooted.Page
import ShellVM.Proofs.Rooted.Session
import ShellVM.Proofs.Safety
import ShellVM.Proofs.Swaps
import ShellVM.Proofs.Trace
import ShellVM.Proofs.Turns
import ShellVM.Proofs.Verifier
import ShellVM.Proofs.Walking
import ShellVM.Proofs.Window.Act
import ShellVM.Proofs.Window.Activation
import ShellVM.Proofs.Window.Advance
import ShellVM.Proofs.Window.Basic
import ShellVM.Proofs.Window.Call
import ShellVM.Proofs.Window.Operation
import ShellVM.Proofs.Window.Quiet
import ShellVM.Proofs.Window.Recover
import ShellVM.Proofs.Window.Turn
import ShellVM.Proofs.Window.Zone
import ShellVM.Proofs.Wire.Parts
import ShellVM.Proofs.Wire.Roundtrip
import ShellVM.Proofs.Wire.Table
import ShellVM.Range
import ShellVM.Text.Blank
import ShellVM.Text.Invisible
import ShellVM.Text.Lossy
import ShellVM.Text.Quoted
import ShellVM.Value.Arithmetic
import ShellVM.Value.Basic
import ShellVM.Value.Cast
import ShellVM.Value.Equality
import ShellVM.Value.Index
import ShellVM.Value.Key
import ShellVM.Value.Kind
import ShellVM.Value.Operation
import ShellVM.Value.Order
import ShellVM.Value.Printer
import ShellVM.World
