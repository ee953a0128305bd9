import Assembly.Build.Artifacts
import Assembly.Build.Host
import Assembly.Build.Path
import Assembly.Build.Toolchain
import Assembly.Build.Workspace
import Assembly.Code.Instr
import Assembly.Code.Storage
import Assembly.CommandLine.Arguments
import Assembly.CommandLine.Run
import Assembly.Engine.Allocator
import Assembly.Engine.Call
import Assembly.Engine.Cast
import Assembly.Engine.Declare
import Assembly.Engine.Emit
import Assembly.Engine.Error
import Assembly.Engine.Function
import Assembly.Engine.Load
import Assembly.Engine.Move
import Assembly.Engine.Output
import Assembly.Engine.Print
import Assembly.Engine.Request
import Assembly.Engine.State
import Assembly.Listing
import Assembly.Log
import Assembly.Machine.Register
import Assembly.Machine.Target
import Assembly.Machine.TypePolicy
import Assembly.Main
import Assembly.Numeral
import Assembly.Numeral.Binary64
import Assembly.Routine.PrintFloat
import Assembly.Routine.PrintInt
import Assembly.Script.Demo
import Assembly.Script.Emission
import Assembly.Script.Error
import Assembly.Script.Grammar
import Assembly.Script.Lexeme.Gap
import Assembly.Script.Lexeme.Number
import Assembly.Script.Lexeme.Quoted
import Assembly.Script.Lexer
import Assembly.Script.Parser
import Assembly.Script.Printer
import Assembly.Script.Read
import Assembly.Script.Source
import Assembly.Script.Template
import Assembly.Script.Token
import Assembly.Script.Tree
import Assembly.Session
import Assembly.Text
import Assembly.Text.Blank
import Assembly.Text.Digit
import Assembly.Text.Letter
import Assembly.Text.Printable
import Assembly.Text.Quoted
import Assembly.Text.Rune
import Assembly.Text.Table
import Assembly.Value
import Assembly.Proofs.Engine.Grant
import Assembly.Proofs.Engine.Reference
import Assembly.Proofs.Engine.Move
import Assembly.Proofs.Frame.Chronicle
import Assembly.Proofs.Engine.Effects
import Assembly.Proofs.Engine.Registers
import Assembly.Proofs.Engine.Mode
import Assembly.Proofs.Register.Ledger
import Assembly.Proofs.Machine.Alias
import Assembly.Proofs.Machine.Conduct
import Assembly.Proofs.Frame.Account
import Assembly.Proofs.Frame.Restoration
import Assembly.Proofs.Script.Command
import Assembly.Proofs.Script.Part
import Assembly.Proofs.Script.Exclusivity
import Assembly.Proofs.Frame.Body
import Assembly.Proofs.Script.Mode
import Assembly.Proofs.Call.Arguments
import Assembly.Proofs.Frame.Depth
import Assembly.Proofs.Machine.Width
import Assembly.Proofs.Machine.Memory
import Assembly.Proofs.Machine.Cpu
import Assembly.Proofs.Call.Slots
import Assembly.Proofs.Call.Agreement
import Assembly.Proofs.Print.Code
import Assembly.Proofs.Cast.Code
import Assembly.Proofs.Cast.Conversion
import Assembly.Proofs.Machine.Region
import Assembly.Proofs.Cast.Widening
import Assembly.Proofs.Engine.Part
import Assembly.Proofs.Engine.Warning
import Assembly.Proofs.Symbol.Name
import Assembly.Proofs.Symbol.Segment
import Assembly.Proofs.Symbol.Phase
import Assembly.Proofs.Symbol.Issue
import Assembly.Proofs.Symbol.Unique
import Assembly.Proofs.Symbol.Closed
import Assembly.Proofs.Engine.Alike
import Assembly.Proofs.Frame.Isolation
import Assembly.Proofs.Engine.Confined
import Assembly.Proofs.Text.Rune
import Assembly.Proofs.Text.Quoted
import Assembly.Proofs.Code.DataList
import Assembly.Proofs.Script.Acceptance
import Assembly.Proofs.Script.Framing
import Assembly.Proofs.Script.Parser
import Assembly.Proofs.Script.Lexing
import Assembly.Proofs.Script.Spelling
import Assembly.Proofs.Script.Numeral
import Assembly.Proofs.Script.Written
import Assembly.Proofs.Script.Printed
import Assembly.Proofs.Script.Accepts
import Assembly.Proofs.Script.Tree
import Assembly.Proofs.Script.Operand
import Assembly.Proofs.Script.Complete
import Assembly.Proofs.Script.RoundTrip
import Assembly.Proofs.Script.Literal
import Assembly.Proofs.Machine.Process
import Assembly.Proofs.Machine.Passage
import Assembly.Proofs.Routine.Stack
import Assembly.Proofs.Routine.Digits
import Assembly.Proofs.Routine.PrintInt
import Assembly.Proofs.Routine.PrintFloat
import Assembly.Proofs.Machine.Caller
import Assembly.Proofs.Print.Call
import Assembly.Proofs.Print.Preservation
import Assembly.Proofs.Engine.Refusal
import Assembly.Proofs.Engine.Atomic
import Assembly.Proofs.Register.Leak
import Assembly.Proofs.Register.Scope
import Assembly.Proofs.Cast.Plain
import Assembly.Proofs.Register.Allocator
import Assembly.Proofs.Engine.Permissive
import Assembly.Proofs.Print.Text
import Assembly.Proofs.Frame.Room
import Assembly.Proofs.Frame.Locals
import Assembly.Proofs.Text.Lines
import Assembly.Proofs.Text.Decimal
import Assembly.Proofs.Listing.Bare
import Assembly.Proofs.Listing.Escape
import Assembly.Proofs.Listing.Numbering
import Assembly.Proofs.Text.Blank
import Assembly.Proofs.Engine.Block
import Assembly.Proofs.Script.Globals
import Assembly.Proofs.Script.Template
import Assembly.Proofs.Numeral.Notation
import Assembly.Proofs.Numeral.Literal
import Assembly.Proofs.Numeral.Constant
import Assembly.Proofs.Engine.Integral
import Assembly.Proofs.Script.Integral
import Assembly.Proofs.Build.Path
import Assembly.Proofs.Build.Files
import Assembly.Proofs.Build.Course
import Assembly.Proofs.Build.Names
import Assembly.Proofs.Build.Stages
import Assembly.Proofs.Build.Confinement
import Assembly.Proofs.Engine.Growth
import Assembly.Proofs.Script.Failure
import Assembly.Proofs.Script.Location
import Assembly.Proofs.CommandLine.Reading
import Assembly.Proofs.CommandLine.Order
import Assembly.Proofs.Machine.SizeRule
