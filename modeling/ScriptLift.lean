import ScriptLift.Arch
import ScriptLift.Assoc
import ScriptLift.Block
import ScriptLift.Bytecode.Decode
import ScriptLift.Bytecode.Table
import ScriptLift.CommandLine
import ScriptLift.DataType
import ScriptLift.Decompile
import ScriptLift.Depth
import ScriptLift.Dot
import ScriptLift.Drawing
import ScriptLift.Event
import ScriptLift.Expr
import ScriptLift.Fault
import ScriptLift.FileTree
import ScriptLift.Instruction
import ScriptLift.Json.Basic
import ScriptLift.Json.Reader
import ScriptLift.Layout
import ScriptLift.Lift.Frame
import ScriptLift.Lift.Interpret
import ScriptLift.Lift.Step
import ScriptLift.Literal
import ScriptLift.Main
import ScriptLift.Natives.Dictionary
import ScriptLift.Natives.Entry
import ScriptLift.Number.Binary64
import ScriptLift.Number.Integer
import ScriptLift.Number.Scientific
import ScriptLift.Number.Shortest
import ScriptLift.Opcode
import ScriptLift.OperandStack
import ScriptLift.Outcome
import ScriptLift.Path
import ScriptLift.Position
import ScriptLift.Program
import ScriptLift.Proofs.Bytecode.ByteOrder
import ScriptLift.Proofs.Bytecode.Constants
import ScriptLift.Proofs.Bytecode.Grammar
import ScriptLift.Proofs.Bytecode.Relocation
import ScriptLift.Proofs.Bytecode.Sections
import ScriptLift.Proofs.ControlFlow
import ScriptLift.Proofs.Decoding
import ScriptLift.Proofs.Discovery
import ScriptLift.Proofs.Drawing.Files
import ScriptLift.Proofs.Drawing.Reading
import ScriptLift.Proofs.Drawing.Shown
import ScriptLift.Proofs.Expr.Reading
import ScriptLift.Proofs.FileTree
import ScriptLift.Proofs.Flow
import ScriptLift.Proofs.Graph
import ScriptLift.Proofs.Layout.Coverage
import ScriptLift.Proofs.Layout.Depth
import ScriptLift.Proofs.Layout.Faithful
import ScriptLift.Proofs.Layout.Labels
import ScriptLift.Proofs.Layout.Passes
import ScriptLift.Proofs.Layout.Reading
import ScriptLift.Proofs.Layout.Recursion
import ScriptLift.Proofs.Layout.Shape
import ScriptLift.Proofs.Layout.Text
import ScriptLift.Proofs.Lift.CallOrder
import ScriptLift.Proofs.Lift.Completion
import ScriptLift.Proofs.Lift.Effect
import ScriptLift.Proofs.Lift.Ending
import ScriptLift.Proofs.Lift.Faults
import ScriptLift.Proofs.Lift.FirstStore
import ScriptLift.Proofs.Lift.Independence
import ScriptLift.Proofs.Lift.Joins
import ScriptLift.Proofs.Lift.Moments
import ScriptLift.Proofs.Lift.OnTop
import ScriptLift.Proofs.Lift.Order
import ScriptLift.Proofs.Lift.ReturnCounts
import ScriptLift.Proofs.Lift.Snapshots
import ScriptLift.Proofs.Lift.StackEffect
import ScriptLift.Proofs.Lift.StraightLine
import ScriptLift.Proofs.Lift.Success
import ScriptLift.Proofs.Lift.Untyped
import ScriptLift.Proofs.Lift.Visit
import ScriptLift.Proofs.Lift.Walk
import ScriptLift.Proofs.Locations
import ScriptLift.Proofs.Multigraph
import ScriptLift.Proofs.Natives
import ScriptLift.Proofs.OperandStack
import ScriptLift.Proofs.Pieces
import ScriptLift.Proofs.Pipeline
import ScriptLift.Proofs.Returns
import ScriptLift.Proofs.Stored
import ScriptLift.Proofs.Structured.Blocks
import ScriptLift.Proofs.Structured.Execution
import ScriptLift.Proofs.Structured.Lifting
import ScriptLift.Proofs.Structured.Nesting
import ScriptLift.Proofs.Structured.Placement
import ScriptLift.Proofs.Structured.Rendering
import ScriptLift.Proofs.Structured.RoundTrip
import ScriptLift.Proofs.Structured.Syntax
import ScriptLift.Proofs.Text.Hex
import ScriptLift.Proofs.Text.Spelling
import ScriptLift.Proofs.Traversal
import ScriptLift.Proofs.Words
import ScriptLift.Proofs.Wrapping
import ScriptLift.Region
import ScriptLift.Resource
import ScriptLift.Routine.Basic
import ScriptLift.Routine.Discovery
import ScriptLift.Routine.Returns
import ScriptLift.Stmt
import ScriptLift.Tape
import ScriptLift.Text.Ascii
import ScriptLift.Text.Blank
import ScriptLift.Text.CodePoint
import ScriptLift.Text.Digit
import ScriptLift.Text.Hex
import ScriptLift.Text.Printable
import ScriptLift.Text.Quoted
import ScriptLift.Text.Template
import ScriptLift.Variable
import ScriptLift.Walk
import ScriptLift.Zlib.Bits
import ScriptLift.Zlib.Huffman
import ScriptLift.Zlib.Inflate
