/-
Statements.

Between statements the value stack holds the variables of the open scopes and
nothing else, so a declaration leaves its value where it is and an expression
statement drops its value.  A jump out of a loop first drops what the body has
declared up to there.

* `Statement.conditional`, `whileLoop`, `loop`, `break_`, `continue_` — control;
* `Statement.variable_`, `expression` — declarations, assignments and calls;
* `Statement.return_`, `yield`, `free` — the rest.
-/
import WordScript.Compiler.Block
import WordScript.Compiler.Expression

namespace WordScript.Statement

open CompileM

/-- Declares a variable; its value stays on the stack. -/
def variable_ (g : Productions) : CompileM Unit := do
  let _ ← advance
  let name ← identifier "a variable name"
  let _ ← consume (.symbol .equal) "'='"
  let value ← current
  let ty ← g.expression .or
  if ty = .void then failMismatch value "a value" "Void"
  let _ ← declare name ty
  endStatement

/-- Reads a condition. -/
def condition (g : Productions) : CompileM Unit := do
  let token ← current
  let ty ← g.expression .or
  expectType token .bool ty

/-- Takes the `else` that continues the line, or that begins the next line at the depth of its
conditional. -/
def elseFollows (depth : Nat) : CompileM Bool := do
  let at_ ← cursor
  let sameLine ← ask fun c => 0 < at_ && c.kindAt (at_ - 1) != .statementTerminator
  let level ← ask Compiler.indentation
  if sameLine && (← check (.keyword .else_)) then
    moveTo (at_ + 1)
    return true
  else if level = depth && (← kindAhead level) == .keyword .else_ then
    moveTo (at_ + level + 1)
    return true
  else return false

/-- A conditional. -/
def conditional (g : Productions) (depth : Nat) : CompileM Unit := do
  let token ← advance
  condition g
  let _ ← consume (.keyword .then_) "'then'"
  let skip ← emitJump .jumpIfFalse
  Block.body g depth
  if ← elseFollows depth then
    let exit ← emitJump .jump
    patchJump skip token
    Block.body g depth
    patchJump exit token
  else patchJump skip token

/-- Opens a loop that begins at `start`. -/
def openLoop (start : Nat) : CompileM Unit :=
  modify fun c =>
    let scopeWords := c.scopeWords
    c.mapBuilder fun b => { b with loops := { start, scopeWords } :: b.loops }

/-- Closes the innermost loop; the jumps that leave it land here. -/
def closeLoop (token : Token) : CompileM Unit := do
  match ← ask fun c => c.builder.loops with
  | [] => return
  | l :: rest =>
    modify (Compiler.mapBuilder fun b => { b with loops := rest })
    l.breaks.reverse.forM fun at_ => patchJump at_ token

/-- Reads the body of a loop and emits the jump back to its beginning. -/
def loopBody (g : Productions) (start depth : Nat) (token : Token) : CompileM Unit := do
  openLoop start
  Block.body g depth
  emitLoop start token

/-- A loop with a condition. -/
def whileLoop (g : Productions) (depth : Nat) : CompileM Unit := do
  let token ← advance
  let start ← here
  condition g
  let exit ← emitJump .jumpIfFalse
  loopBody g start depth token
  patchJump exit token
  closeLoop token

/-- A loop without a condition. -/
def loop (g : Productions) (depth : Nat) : CompileM Unit := do
  let token ← advance
  let start ← here
  loopBody g start depth token
  closeLoop token

/-- Drops the words declared since the innermost loop was entered, and gives its beginning.  The
jump that follows does not pass the ends of the scopes in between. -/
def unwindToLoop (token : Token) : CompileM Nat := do
  match ← ask fun c => c.builder.loops.head? with
  | none => fail token (.invalidPosition token.lexeme "is only allowed inside a loop")
  | some l =>
    let words ← ask Compiler.scopeWords
    emitPop (words - l.scopeWords) token
    return l.start

/-- Leaves the innermost loop. -/
def break_ : CompileM Unit := do
  let token ← advance
  let _ ← unwindToLoop token
  let at_ ← emitJump .jump
  modify (Compiler.mapBuilder fun b =>
    match b.loops with
    | [] => b
    | l :: rest => { b with loops := { l with breaks := at_ :: l.breaks } :: rest })
  endStatement

/-- Goes back to the beginning of the innermost loop. -/
def continue_ : CompileM Unit := do
  let token ← advance
  let start ← unwindToLoop token
  emitLoop start token
  endStatement

/-- Returns from a function, or ends the program at the top level. -/
def return_ (g : Productions) : CompileM Unit := do
  let token ← advance
  let returns ← ask fun c => c.builder.returns
  let inEntry ← ask fun c => c.nested.isEmpty
  if ← atStatementEnd then
    if inEntry then emitOp .halt
    else if returns ≠ .void then failMismatch token (← typeName returns) "Void"
    else emit (.ofBytes .return_ 0 0 0)
    endStatement
  else if inEntry then
    fail token (.invalidPosition "return value" "is only allowed inside a function")
  else
    let value ← current
    let ty ← g.expression .or
    expectType value returns ty
    let words ← byte (← wordsOf ty value) value "return value"
    emit (.ofBytes .return_ words 0 0)
    endStatement

/-- Suspends the program, by default until the next turn. -/
def yield (g : Productions) : CompileM Unit := do
  let _ ← advance
  if ← atStatementEnd then emit (.ofImmediate .pushImmediate 0)
  else
    let token ← current
    let ty ← g.expression .or
    expectType token .float ty
  emitOp .yield
  endStatement

/-- Gives back the memory of a list or of what a pointer points to. -/
def free (g : Productions) : CompileM Unit := do
  let token ← advance
  let operand ← g.operand
  let target ← placeOf operand token "free target"
  match target.ty with
  | .list element =>
    let words ← wordsOf element token
    addressOf target token
    let words ← byte words token "list element"
    emit (.ofBytes .listFree words 0 0)
  | .pointer inner =>
    let words ← short (← wordsOf inner token) token "heap block"
    addressOf target token
    emit (.ofByteShort .freeHeap 0 words)
  | ty => failMismatch token "a list or pointer" (← typeName ty)
  endStatement

/-- Loads the value of a place and keeps the address that its store will need. -/
def loadForUpdate (target : Place) (token : Token) : CompileM Unit := do
  if target.isDynamic then emit (.ofBytes .duplicate 1 0 0)
  let _ ← load (.place target) token

/-- Assigns to a place. -/
def assign (g : Productions) (operand : Operand) (token : Token) : CompileM Unit := do
  let _ ← advance
  let target ← placeOf operand token "assignment target"
  let value ← current
  let ty ← g.expression .or
  expectType value target.ty ty
  store target token

/-- Assigns to a place the outcome of an operation on its value. -/
def update (g : Productions) (operand : Operand) (token : Token) : CompileM Unit := do
  let op ← advance
  let target ← placeOf operand token "assignment target"
  match Expression.arithmetic? op.kind target.ty with
  | none => Expression.failOperands op target.ty target.ty
  | some opcode =>
    loadForUpdate target token
    let value ← current
    let ty ← g.expression .or
    expectType value target.ty ty
    emitOp opcode
    store target token

/-- Adds one to a place, or takes one from it. -/
def step (operand : Operand) (opcode : Opcode) (token : Token) : CompileM Unit := do
  let op ← advance
  let target ← placeOf operand token "increment target"
  expectType op .int target.ty
  loadForUpdate target token
  emit (.ofImmediate .pushImmediate 1)
  emitOp opcode
  store target token

/-- An assignment, an update, or an expression whose value is dropped. -/
def expression (g : Productions) : CompileM Unit := do
  let token ← current
  let operand ← Expression.operand g
  match ← kind with
  | .symbol .equal => assign g operand token
  | .symbol .plusEqual | .symbol .minusEqual | .symbol .starEqual | .symbol .slashEqual =>
    update g operand token
  | .symbol .plusPlus => step operand .addInt token
  | .symbol .minusMinus => step operand .subtractInt token
  | _ =>
    let ty ← Expression.continue_ g operand .or token
    emitPop (← wordsOf ty token) token
  endStatement

end WordScript.Statement
