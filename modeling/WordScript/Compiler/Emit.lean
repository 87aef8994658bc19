/-
Emitting instructions.

Instructions go to the end of the chunk under construction.  A forward jump is
emitted with an empty displacement and patched when its target is known.  Words
of the constant pool are shared; string blocks are appended.

* `CompileM.emit`, `emitJump`, `patchJump`, `emitLoop` — code;
* `CompileM.addConstant`, `addString`, `emitInteger` — constants;
* `CompileM.enterBlock`, `exitBlock` — scopes and the words they add.
-/
import WordScript.Compiler.State
import WordScript.Program.StringBlock

namespace WordScript

namespace Builder

/-- Appends an instruction. -/
def push (b : Builder) (i : Instruction) : Builder :=
  { b with code := { b.code with code := b.code.code.push i } }

/-- Replaces the displacement of an instruction. -/
def patch (b : Builder) (at_ : Nat) (displacement : Int) : Builder :=
  { b with code := { b.code with
      code := b.code.code.modify at_ (fun i => i.withSigned displacement) } }

/-- Appends words to the constant pool. -/
def pushConstants (b : Builder) (ws : Array Word) : Builder :=
  { b with code := { b.code with constants := b.code.constants ++ ws } }

end Builder

namespace CompileM

/-- The number of the next instruction. -/
def here : CompileM Nat :=
  ask fun c => c.builder.code.code.size

/-- Emits an instruction. -/
def emit (i : Instruction) : CompileM Unit :=
  modify (Compiler.mapBuilder (·.push i))

/-- Emits an operation without operands. -/
def emitOp (op : Opcode) : CompileM Unit :=
  emit (.ofOpcode op)

/-- Emits the removal of words, if there are any. -/
def emitPop (words : Nat) (token : Token) : CompileM Unit := do
  if 0 < words then
    let count ← short words token "scope size"
    emit (.ofByteShort .pop 0 count)

/-- Emits a jump whose target is not known and gives its number. -/
def emitJump (op : Opcode) : CompileM Nat := do
  let at_ ← here
  emit (.ofSigned op 0)
  return at_

/-- The displacement of a jump, which counts from the instruction after it. -/
def displacement (at_ target : Nat) (token : Token) : CompileM Int :=
  let distance : Int := (target : Int) - at_ - 1
  if -32768 ≤ distance ∧ distance ≤ 32767 then return distance
  else fail token (.tooLarge "jump distance")

/-- Lets the jump at `at_` land on the next instruction. -/
def patchJump (at_ : Nat) (token : Token) : CompileM Unit := do
  let d ← displacement at_ (← here) token
  modify (Compiler.mapBuilder (·.patch at_ d))

/-- Emits a jump back to `start`. -/
def emitLoop (start : Nat) (token : Token) : CompileM Unit := do
  let d ← displacement (← here) start token
  emit (.ofSigned .jump d)

/-- The place of a word in the constant pool; an equal word that is there already is used again. -/
def addConstant (w : Word) (token : Token) : CompileM UInt16 := do
  match ← ask fun c => c.builder.code.constants.findIdx? (· == w) with
  | some index => short index token "constant pool"
  | none =>
    let index ← ask fun c => c.builder.code.constants.size
    modify (Compiler.mapBuilder (·.pushConstants #[w]))
    short index token "constant pool"

/-- The place of a new string block in the constant pool. -/
def addString (text : String) (token : Token) : CompileM UInt16 := do
  let index ← ask fun c => c.builder.code.constants.size
  modify (Compiler.mapBuilder (·.pushConstants (StringBlock.encode text)))
  short index token "constant pool"

/-- Emits a constant word. -/
def emitConstant (w : Word) (token : Token) : CompileM Unit := do
  let index ← addConstant w token
  emit (.ofByteShort .loadConstant 0 index)

/-- Emits an integer, as an operand if it fits. -/
def emitInteger (value : Int) (token : Token) : CompileM Unit :=
  if Instruction.immediateMin ≤ value ∧ value ≤ Instruction.immediateMax then
    emit (.ofImmediate .pushImmediate value)
  else emitConstant (Word.ofInt value) token

/-- Opens a block scope. -/
def enterBlock : CompileM Unit :=
  modify fun c =>
    let (scope, scopes) := c.scopes.enter c.scope .block
    ({ c with scopes } : Compiler).mapBuilder fun b => { b with scope }

/-- Closes the innermost block scope and removes its words. -/
def exitBlock : CompileM Unit := do
  let token ← current
  let words ← modifyGet fun c =>
    let parent := ((c.scopes.get c.scope).parent).getD ScopeTree.globalScope
    let (words, scopes) := c.scopes.exit
    (words, ({ c with scopes } : Compiler).mapBuilder fun b => { b with scope := parent })
  emitPop words token

end CompileM

end WordScript
