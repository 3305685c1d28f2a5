import ObjLang.Check
import ObjLang.Check.Body
import ObjLang.Check.Expr
import ObjLang.Check.Scope
import ObjLang.CheckError
import ObjLang.Class.Layout
import ObjLang.Class.Table
import ObjLang.Code.Builder
import ObjLang.Code.Instr
import ObjLang.Code.Module
import ObjLang.Code.Text
import ObjLang.Config
import ObjLang.Diagnostic
import ObjLang.Diagnostic.Render
import ObjLang.Emit
import ObjLang.Emit.Access
import ObjLang.Emit.Block
import ObjLang.Env
import ObjLang.Function
import ObjLang.Host
import ObjLang.Linked
import ObjLang.Linked.Link
import ObjLang.Machine
import ObjLang.Memory
import ObjLang.Options
import ObjLang.Proofs.Annotations
import ObjLang.Proofs.Balanced
import ObjLang.Proofs.BlankLines
import ObjLang.Proofs.BuiltinNames
import ObjLang.Proofs.Captures
import ObjLang.Proofs.Cells
import ObjLang.Proofs.Check.Account
import ObjLang.Proofs.Check.Adopts
import ObjLang.Proofs.Check.Alias
import ObjLang.Proofs.Check.Blind
import ObjLang.Proofs.Check.Declare
import ObjLang.Proofs.Check.Expr
import ObjLang.Proofs.Check.Growth
import ObjLang.Proofs.Check.Level
import ObjLang.Proofs.Check.Module
import ObjLang.Proofs.Check.Nest
import ObjLang.Proofs.Check.Placed
import ObjLang.Proofs.Check.Program
import ObjLang.Proofs.Check.Reading
import ObjLang.Proofs.Check.Records
import ObjLang.Proofs.Check.Scoped
import ObjLang.Proofs.Check.Settled
import ObjLang.Proofs.Check.Signatures
import ObjLang.Proofs.Check.State
import ObjLang.Proofs.Check.Stmt
import ObjLang.Proofs.Check.Supply
import ObjLang.Proofs.Check.Typed
import ObjLang.Proofs.Check.Unchecked
import ObjLang.Proofs.Class.Dispatch
import ObjLang.Proofs.Class.Extension
import ObjLang.Proofs.Class.Hierarchy
import ObjLang.Proofs.Class.Inherit
import ObjLang.Proofs.Class.Layouts
import ObjLang.Proofs.Class.Refusals
import ObjLang.Proofs.Class.Reorder
import ObjLang.Proofs.Class.Rounds
import ObjLang.Proofs.Class.Rows
import ObjLang.Proofs.Class.Subclass
import ObjLang.Proofs.Class.Walk
import ObjLang.Proofs.Class.WellFounded
import ObjLang.Proofs.Code.Names
import ObjLang.Proofs.Code.Nested
import ObjLang.Proofs.Coverage
import ObjLang.Proofs.Emit.Blocks
import ObjLang.Proofs.Emit.Expr
import ObjLang.Proofs.Emit.Flow
import ObjLang.Proofs.Emit.Function
import ObjLang.Proofs.Emit.Height
import ObjLang.Proofs.Emit.Labels
import ObjLang.Proofs.Emit.Link
import ObjLang.Proofs.Emit.Module
import ObjLang.Proofs.Emit.Order
import ObjLang.Proofs.Emit.Paths
import ObjLang.Proofs.Emit.Shape
import ObjLang.Proofs.Emit.Slots
import ObjLang.Proofs.Emit.State
import ObjLang.Proofs.Emit.Stmt
import ObjLang.Proofs.Emit.Total
import ObjLang.Proofs.Expressions
import ObjLang.Proofs.FreeVariables
import ObjLang.Proofs.FreshNames
import ObjLang.Proofs.Guards
import ObjLang.Proofs.Hygiene
import ObjLang.Proofs.Indentation
import ObjLang.Proofs.Initializers
import ObjLang.Proofs.Limits
import ObjLang.Proofs.LinearMemory
import ObjLang.Proofs.Linked.Accepts
import ObjLang.Proofs.Linked.Layout
import ObjLang.Proofs.Linked.Variables
import ObjLang.Proofs.Literals
import ObjLang.Proofs.Machine.Active
import ObjLang.Proofs.Machine.Body
import ObjLang.Proofs.Machine.Calls
import ObjLang.Proofs.Machine.Cells
import ObjLang.Proofs.Machine.Expr
import ObjLang.Proofs.Machine.Flow
import ObjLang.Proofs.Machine.Frames
import ObjLang.Proofs.Machine.Functions
import ObjLang.Proofs.Machine.Heap
import ObjLang.Proofs.Machine.Height
import ObjLang.Proofs.Machine.Invoke
import ObjLang.Proofs.Machine.Meant.Access
import ObjLang.Proofs.Machine.Meant.Call
import ObjLang.Proofs.Machine.Meant.Effect
import ObjLang.Proofs.Machine.Meant.Ends
import ObjLang.Proofs.Machine.Meant.Image
import ObjLang.Proofs.Machine.Meant.Invoke
import ObjLang.Proofs.Machine.Meant.Lookup
import ObjLang.Proofs.Machine.Meant.Object
import ObjLang.Proofs.Machine.Meant.Opening
import ObjLang.Proofs.Machine.Meant.Run
import ObjLang.Proofs.Machine.Meant.Scene
import ObjLang.Proofs.Machine.Meant.Value
import ObjLang.Proofs.Machine.Memory
import ObjLang.Proofs.Machine.Moves
import ObjLang.Proofs.Machine.Operands
import ObjLang.Proofs.Machine.Outcomes
import ObjLang.Proofs.Machine.Prologue
import ObjLang.Proofs.Machine.Resized
import ObjLang.Proofs.Machine.Sound
import ObjLang.Proofs.Machine.Steps
import ObjLang.Proofs.Machine.Stmt
import ObjLang.Proofs.Machine.Structured
import ObjLang.Proofs.Machine.Trace
import ObjLang.Proofs.Machine.Typed.Access
import ObjLang.Proofs.Machine.Typed.Call
import ObjLang.Proofs.Machine.Typed.Effect
import ObjLang.Proofs.Machine.Typed.Hold
import ObjLang.Proofs.Machine.Typed.Ledger
import ObjLang.Proofs.Machine.Typed.Object
import ObjLang.Proofs.Machine.Typed.Opening
import ObjLang.Proofs.Machine.Typed.Run
import ObjLang.Proofs.Machine.Typed.Supply
import ObjLang.Proofs.Machine.Typed.Value
import ObjLang.Proofs.Machine.Visits
import ObjLang.Proofs.Meaning
import ObjLang.Proofs.Meaning.Bounds
import ObjLang.Proofs.Overrides
import ObjLang.Proofs.Parts
import ObjLang.Proofs.Places
import ObjLang.Proofs.Preservation
import ObjLang.Proofs.Progress
import ObjLang.Proofs.Reads
import ObjLang.Proofs.RoundTrip
import ObjLang.Proofs.Runs
import ObjLang.Proofs.Slices
import ObjLang.Proofs.Token.Digits
import ObjLang.Proofs.Token.Layout
import ObjLang.Proofs.Token.Lexed
import ObjLang.Proofs.Token.Lines
import ObjLang.Proofs.Token.Places
import ObjLang.Proofs.Token.Spell
import ObjLang.Proofs.Token.Stream
import ObjLang.Proofs.Tree.Calls
import ObjLang.Proofs.Tree.Depth
import ObjLang.Proofs.Tree.Grammar
import ObjLang.Proofs.Tree.Grammar.Takes
import ObjLang.Proofs.Tree.Integers
import ObjLang.Proofs.Tree.Moves
import ObjLang.Proofs.Tree.Placed
import ObjLang.Proofs.Tree.Print
import ObjLang.Proofs.Tree.Reread
import ObjLang.Proofs.Tree.Reread.Block
import ObjLang.Proofs.Tree.Reread.Expr
import ObjLang.Proofs.Tree.Unchecked
import ObjLang.Proofs.Tree.Words
import ObjLang.Proofs.Tree.Written
import ObjLang.Proofs.TypeSound
import ObjLang.Proofs.Variables
import ObjLang.Proofs.Writes
import ObjLang.Run
import ObjLang.Source
import ObjLang.Span
import ObjLang.Token
import ObjLang.Token.Layout
import ObjLang.Token.Scan
import ObjLang.Toml
import ObjLang.Toml.Table
import ObjLang.Toml.Value
import ObjLang.Trap
import ObjLang.Tree
import ObjLang.Tree.Parser
import ObjLang.Tree.Parser.Block
import ObjLang.Tree.Parser.Cursor
import ObjLang.Tree.Parser.Error
import ObjLang.Tree.Parser.Expr
import ObjLang.Tree.Returns
import ObjLang.Ty
import ObjLang.Variable
import ObjLang.Word
