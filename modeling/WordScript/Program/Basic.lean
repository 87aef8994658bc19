/-
Programs.

A program is a list of chunks, one for each function, the number of the chunk
that is run first, and the names of the host functions it calls.  A chunk has a
name, its code and a pool of constant words.
-/
import WordScript.Instruction.Basic

namespace WordScript

/-- The code of one function and its constants. -/
structure Chunk where
  name : String
  code : Array Instruction
  constants : Array Word
deriving Repr, DecidableEq, Inhabited

/-- A compiled program. -/
structure Program where
  chunks : Array Chunk
  entryPoint : UInt64
  externals : Array String
deriving Repr, DecidableEq, Inhabited

namespace Program

/-- The chunk that is run first. -/
def entry? (p : Program) : Option Chunk :=
  p.chunks[p.entryPoint.toNat]?

/-- The number of instructions in all chunks. -/
def instructionCount (p : Program) : Nat :=
  (p.chunks.toList.map fun c => c.code.size).foldr (· + ·) 0

end Program

end WordScript
