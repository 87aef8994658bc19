/-
Blocks.

The statements of a block stand on lines of one depth, which is one more than the
depth of the line that opens the block.  A statement that owns a body may also
have it on its own line.  A body has a scope of its own.

* `Block.statements` — the lines of one depth;
* `Block.block` — at least one of them;
* `Block.body` — a block, or a statement on the same line, in a scope.
-/
import WordScript.Compiler.Productions

namespace WordScript.Block

open CompileM

/-- Reads the statements on lines of exactly `depth`, up to a line that is less deep. -/
def statements (g : Productions) (depth : Nat) : Nat → CompileM Unit
  | 0 => failFuel
  | budget + 1 => do
    let level ← ask Compiler.indentation
    let done ← ask Compiler.atEnd
    if done || level < depth then return
    else if depth < level then fail (← ask Compiler.lineStart) .unexpectedIndentation
    else
      moveTo ((← cursor) + level)
      g.statement depth
      statements g depth budget

/-- Stops unless a line of exactly `depth` follows. -/
def requireLine (depth : Nat) : CompileM Unit := do
  let level ← ask Compiler.indentation
  let done ← ask Compiler.atEnd
  if done || level ≠ depth then fail (← ask Compiler.lineStart) .expectedBlock

/-- Reads a block of statements. -/
def block (g : Productions) (depth : Nat) : CompileM Unit := do
  requireLine depth
  statements g depth (← budget)

/-- Reads what follows the head of a statement or function on a line of the given depth. -/
def tail (g : Productions) (depth : Nat) : CompileM Unit := do
  if ← matchKind .statementTerminator then block g (depth + 1) else g.statement depth

/-- Reads the body of a statement. -/
def body (g : Productions) (depth : Nat) : CompileM Unit := do
  enterBlock
  tail g depth
  exitBlock

end WordScript.Block
