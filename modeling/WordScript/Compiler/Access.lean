/-
Accessors: `.field`, `.N`, `.length`, `.push(x)`, `.Method(args)` and `[i]`.

An accessor narrows an operand.  On a place it only changes type and offset,
until an address has to be computed; pointers are followed on the way.

* `Access.member` — what follows a dot;
* `Access.index` — what stands between brackets.
-/
import WordScript.Compiler.Call
import WordScript.Compiler.TypeExpr

namespace WordScript.Access

open CompileM

/-- Stops because a type has no such member. -/
def failMember {α : Type} (ty : Ty) (token : Token) : CompileM α := do
  fail token (.unknownMember (← typeName ty) token.lexeme)

/-- A field, or the length of a span or list. -/
def field (operand : Operand) (token : Token) : CompileM Operand := do
  match operand.ty with
  | .structure_ id =>
    match ← ask fun c => c.types.field? id token.lexeme with
    | some f => select operand f.offset f.ty token
    | none => failMember operand.ty token
  | .span _ length =>
    if token.lexeme = "length" then
      discard operand token
      emitInteger length.toNat token
      return .value .int
    else failMember operand.ty token
  | .list _ =>
    if token.lexeme = "length" then
      let _ ← load operand token
      emitOp .listLength
      return .value .int
    else failMember operand.ty token
  | ty => failMember ty token

/-- An element of a span by its number, which is checked here. -/
def element (operand : Operand) (token : Token) : CompileM Operand := do
  match operand.ty with
  | .span elementTy length =>
    match Literal.natural? 4294967295 token.lexeme with
    | none => TypeExpr.failLiteral token
    | some index =>
      if length.toNat ≤ index then fail token (.indexOutOfBounds index length.toNat)
      let words ← wordsOf elementTy token
      select operand (index * words) elementTy token
  | ty => do fail token (.notIndexable (← typeName ty))

/-- Appends a value to a list. -/
def push (g : Productions) (operand : Operand) (elementTy : Ty) (name : Token) :
    CompileM Operand := do
  let list ← placeOf operand name "list"
  addressOf list name
  let _ ← consume (.symbol .leftParen) "'('"
  let value ← current
  let found ← g.expression .or
  expectType value elementTy found
  let _ ← consume (.symbol .rightParen) "')'"
  let words ← byte (← wordsOf elementTy name) name "list element"
  emit (.ofBytes .listPush words 0 0)
  return .value .void

/-- A method call, or `push` on a list. -/
def memberCall (g : Productions) (operand : Operand) (name : Token) : CompileM Operand := do
  match operand.ty with
  | .list elementTy =>
    if name.lexeme = "push" then push g operand elementTy name
    else failMember operand.ty name
  | .structure_ id =>
    match ← ask fun c => c.types.method? id name.lexeme with
    | none => failMember operand.ty name
    | some header =>
      let receiver ← placeOf operand name "method receiver"
      let returns ← Call.read g header (some receiver) name
      return .value returns
  | ty => failMember ty name

/-- Reads a dot and what follows it. -/
def member (g : Productions) (operand : Operand) : CompileM Operand := do
  let dot ← advance
  let operand ← deref operand dot
  let token ← advance
  match token.kind with
  | .integer => element operand token
  | .identifier =>
    if ← check (.symbol .leftParen) then memberCall g operand token else field operand token
  | _ => failExpected token "a member name"

/-- Reads an index up to its closing bracket. -/
def indexExpression (g : Productions) : CompileM Unit := do
  let token ← current
  let ty ← g.expression .or
  expectType token .int ty
  let _ ← consume (.symbol .rightBracket) "']'"

/-- Reads an index in brackets.  The result is a place at an address on the stack. -/
def index (g : Productions) (operand : Operand) : CompileM Operand := do
  let bracket ← advance
  let operand ← deref operand bracket
  match operand.ty with
  | .span elementTy length =>
    let span ← placeOf operand bracket "temporary span"
    let offset ← if span.isDynamic then pure span.offset else do
      addressOf span bracket
      pure 0
    let words ← byte (← wordsOf elementTy bracket) bracket "span element"
    indexExpression g
    emit (.ofByteShort .indexAddress words length)
    return .place ⟨elementTy, .dynamic, offset⟩
  | .list elementTy =>
    let _ ← load operand bracket
    let words ← byte (← wordsOf elementTy bracket) bracket "list element"
    indexExpression g
    emit (.ofBytes .listIndex words 0 0)
    return .place (.atAddress elementTy)
  | ty => do fail bracket (.notIndexable (← typeName ty))

end WordScript.Access
