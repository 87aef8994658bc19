/-
Calls.

The arguments are put on the stack from left to right, after the address of the
receiver if the callee is a method; a parameter that is a reference takes the
address of its argument.  The number of arguments is checked once all of them
have been read.
-/
import WordScript.Compiler.Productions

namespace WordScript.Call

open CompileM

/-- Reads one argument for the parameter it belongs to, if there is one, and gives the words it
puts on the stack. -/
def argument (g : Productions) (parameter : Option Parameter) : CompileM Nat := do
  let token ← current
  match parameter with
  | some ⟨_, .reference inner⟩ =>
    let operand ← g.operand
    let target ← placeOf operand token "reference argument"
    expectType token inner target.ty
    addressOf target token
    return 1
  | some ⟨_, expected⟩ =>
    let ty ← g.expression .or
    expectType token expected ty
    wordsOf ty token
  | none =>
    let _ ← g.expression .or
    return 0

/-- Reads arguments; `found` of them have been read, which take `words` words. -/
def arguments (g : Productions) (parameters : List Parameter) :
    Nat → Nat → Nat → CompileM (Nat × Nat)
  | 0, _, _ => failFuel
  | budget + 1, found, words => do
    let added ← argument g parameters[found]?
    if ← matchKind (.symbol .comma) then
      arguments g parameters budget (found + 1) (words + added)
    else return (found + 1, words + added)

/-- Reads the argument list of a call and emits the call. -/
def read (g : Productions) (header : FunctionHeader) (receiver : Option Place) (token : Token) :
    CompileM Ty := do
  let _ ← consume (.symbol .leftParen) "'('"
  let receiverWords ← match receiver with
    | none => pure 0
    | some place => do
      addressOf place token
      pure 1
  let (found, words) ←
    if ← check (.symbol .rightParen) then pure (0, receiverWords)
    else arguments g header.parameters (← budget) 0 receiverWords
  let _ ← consume (.symbol .rightParen) "')'"
  if found ≠ header.parameters.length then
    fail token (.arityMismatch header.name header.parameters.length found)
  let words ← byte words token "argument list"
  match header.kind with
  | .script chunk => emit (.ofByteShort .call words chunk)
  | .external index => emit (.ofByteShort .callExternal words index)
  return header.returns

end WordScript.Call
