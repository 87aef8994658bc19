import WordScript.Build
import WordScript.Compiler.Access
import WordScript.Compiler.Block
import WordScript.Compiler.Call
import WordScript.Compiler.Emit
import WordScript.Compiler.Error
import WordScript.Compiler.Expression
import WordScript.Compiler.Function
import WordScript.Compiler.Literal
import WordScript.Compiler.Module
import WordScript.Compiler.Place
import WordScript.Compiler.Productions
import WordScript.Compiler.State
import WordScript.Compiler.Statement
import WordScript.Compiler.Structure
import WordScript.Compiler.TypeExpr
import WordScript.Console.Command
import WordScript.Console.Path
import WordScript.Console.Session
import WordScript.Decimal.Dyadic
import WordScript.Decimal.Fixed
import WordScript.Decimal.Reading
import WordScript.Decimal.Shortest
import WordScript.Heap
import WordScript.Instruction.Basic
import WordScript.Instruction.Opcode
import WordScript.Machine.Basic
import WordScript.Machine.Fault
import WordScript.Machine.Library
import WordScript.Machine.List
import WordScript.Machine.Native
import WordScript.Machine.Run
import WordScript.Machine.Step
import WordScript.Main
import WordScript.Program.Basic
import WordScript.Program.Disassembly
import WordScript.Program.Encoding
import WordScript.Program.Statistics
import WordScript.Program.StringBlock
import WordScript.Program.Verify
import WordScript.Scope
import WordScript.Source.Caret
import WordScript.Text.Alphabetic
import WordScript.Text.CharSet
import WordScript.Text.Pad
import WordScript.Text.Printable
import WordScript.Text.Quoted
import WordScript.Text.Utf8
import WordScript.Token.Basic
import WordScript.Token.Layout
import WordScript.Token.Listing
import WordScript.Token.Scan
import WordScript.Types.Basic
import WordScript.Types.Table
import WordScript.Word
import WordScript.Words
import WordScript.Proofs.HeapPartition
import WordScript.Proofs.Operands
import WordScript.Proofs.StackSafety
import WordScript.Proofs.OpenCode
import WordScript.Proofs.ScopeFrames
import WordScript.Proofs.Stages
import WordScript.Proofs.Discipline
import WordScript.Proofs.Operations
import WordScript.Proofs.Expressions
import WordScript.Proofs.Statements
import WordScript.Proofs.Functions
import WordScript.Proofs.Structures
import WordScript.Proofs.Modules
import WordScript.Proofs.StackDiscipline
import WordScript.Proofs.ExpressionTrees
import WordScript.Proofs.Drafts
import WordScript.Proofs.ExpressionReading
import WordScript.Proofs.MachineRuns
import WordScript.Proofs.ExpressionCode
import WordScript.Proofs.Verified
import WordScript.Proofs.Lines
import WordScript.Proofs.ExpressionValues
import WordScript.Proofs.PlainReading
import WordScript.Proofs.ScriptEmission
import WordScript.Proofs.ScriptReading
import WordScript.Proofs.ScriptCode
import WordScript.Proofs.ScriptRuns
import WordScript.Proofs.VerifiedRuns
import WordScript.Proofs.ProgramBytes
import WordScript.Proofs.CompiledPrograms
import WordScript.Proofs.ListSequences
import WordScript.Proofs.HostClock
import WordScript.Proofs.CallMatching
import WordScript.Proofs.StackFloor
import WordScript.Proofs.CallerFrames
import WordScript.Proofs.TemplateInstances
import WordScript.Proofs.GroundTypes
import WordScript.Proofs.TokenPlaces
import WordScript.Proofs.CompilerWalks
import WordScript.Proofs.GrammarWalks
import WordScript.Proofs.CompilerFrames
import WordScript.Proofs.StructureWalks
import WordScript.Proofs.GenericInstances
import WordScript.Proofs.FreeList
import WordScript.Proofs.ReadingProgress
import WordScript.Proofs.GrammarProgress
import WordScript.Proofs.FuelBound
import WordScript.Proofs.IndirectAccess
import WordScript.Proofs.PointerAccess
import WordScript.Proofs.Tiling
import WordScript.Proofs.FrameLayout
import WordScript.Proofs.StructureLayouts
import WordScript.Proofs.ElementAssignment
import WordScript.Proofs.GroundStates
import WordScript.Proofs.ResolvedGenerics
import WordScript.Proofs.AllocationPolicy
import WordScript.Proofs.ElementPositions
import WordScript.Proofs.LineReading
import WordScript.Proofs.StatementEnds
import WordScript.Proofs.ElseBinding
import WordScript.Proofs.MethodBodies
import WordScript.Proofs.FieldWords
import WordScript.Proofs.LiteralRuns
import WordScript.Proofs.PlainLiterals
import WordScript.Proofs.StructureValues
import WordScript.Proofs.Indentation
import WordScript.Proofs.PositionIndependence
import WordScript.Proofs.AcceptedAccess
import WordScript.Proofs.AccessPaths
import WordScript.Proofs.TypeSubstitution
import WordScript.Proofs.StringStorage
import WordScript.Proofs.LiteralConstants
