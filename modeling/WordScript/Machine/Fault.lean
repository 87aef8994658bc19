/-
What can go wrong while a program runs.

A fault is a cause.  An error is a fault together with the calls that were
pending when it happened, the outermost first; its message lists them the other
way round.

An overflow is no fault of the program: where the machine itself computes a
position with words and goes past the greatest one, it panics and reports nothing.
-/
import WordScript.Heap
import WordScript.Program.Verify

namespace WordScript

/-- What a program should not have done. -/
inductive ProgramDefect where
  | ranPastEnd (chunk : String)
  | jumpOutside (target : Int)
  | constantOutOfRange (index : Nat)
  | heapConstantOutOfRange (index : Nat)
  | selectPastValue
  | storeOverlapsValue
  | listCapacityOverflow
  | listBlockTooLarge
deriving Repr, DecidableEq

namespace ProgramDefect

/-- The wording of a defect. -/
def message : ProgramDefect → String
  | ranPastEnd chunk => "ran past the end of '" ++ chunk ++ "'"
  | jumpOutside target => "jump target " ++ toString target ++ " outside the chunk"
  | constantOutOfRange index => "constant " ++ toString index ++ " out of range"
  | heapConstantOutOfRange index => "heap constant " ++ toString index ++ " out of range"
  | selectPastValue => "select past the value"
  | storeOverlapsValue => "store overlaps its value"
  | listCapacityOverflow => "list capacity overflow"
  | listBlockTooLarge => "list block too large"

end ProgramDefect

/-- Why execution stops. -/
inductive Fault where
  | notBooted
  | invalidOpcode (byte : UInt8)
  | stackUnderflow
  | addressOutOfBounds (address : Word)
  | indexOutOfBounds (index : Int) (length : Nat)
  | divisionByZero
  | callDepthExceeded (limit : Nat)
  | unboundExternal (index : Nat) (name : String)
  | missingExternals (names : List String)
  | invalidChunk (chunk : Nat)
  | invalidProgram (defect : ProgramDefect)
  | verify (error : VerifyError)
  | heap (error : HeapError)
  | external (message : String)
  /-- a computation of the machine went past the greatest word; no error reports this -/
  | overflow
deriving Repr, DecidableEq

namespace Fault

/-- The wording of a fault. -/
def message : Fault → String
  | notBooted => "no program has been booted"
  | invalidOpcode byte => "invalid opcode " ++ Text.hexadecimal 2 byte.toNat
  | stackUnderflow => "stack underflow"
  | addressOutOfBounds address =>
    "address " ++ Text.hexadecimal 8 address.toNat ++ " is out of bounds"
  | indexOutOfBounds index length =>
    "index " ++ toString index ++ " out of bounds for length " ++ toString length
  | divisionByZero => "division by zero"
  | callDepthExceeded limit =>
    "call depth limit exceeded (" ++ toString limit ++ ") - possible infinite recursion"
  | unboundExternal index name =>
    "external function " ++ toString index ++ " ('" ++ name ++ "') is not bound"
  | missingExternals names =>
    "no implementation registered for external functions: " ++ ", ".intercalate names
  | invalidChunk chunk => "chunk " ++ toString chunk ++ " does not exist"
  | invalidProgram defect => "invalid program: " ++ defect.message
  | verify error => error.message
  | heap error => error.message
  | external message => "external function failed: " ++ message
  | overflow => "attempt to compute with overflow"

end Fault

/-- A fault and the pending calls, the outermost first. -/
structure MachineError where
  fault : Fault
  callStack : List String := []
deriving Repr, DecidableEq

namespace MachineError

/-- The pending calls, the innermost first, one to a line. -/
def callStackText (calls : List String) : String :=
  if calls.isEmpty then ""
  else
    "\n  call stack:" ++ String.join (calls.reverse.zipIdx.map fun (call, k) =>
      "\n    " ++ toString k ++ ": " ++ call)

/-- The wording of an error. -/
def message (e : MachineError) : String :=
  "runtime error: " ++ e.fault.message ++ callStackText e.callStack

end MachineError

end WordScript
