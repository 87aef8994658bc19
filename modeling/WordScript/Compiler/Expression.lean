/-
Expressions.

An expression is a sequence of operands joined by binary operators.  All binary
operators associate to the left; an operator goes on with the expression so far
if it binds at least as tightly as asked for.  Both sides of an operator are
evaluated, the left one first.

* `Expression.binary` — the instruction of an operator on two equal types;
* `Expression.operand` — unary operators, then a primary with its accessors;
* `Expression.read`, `Expression.continue_` — whole expressions.
-/
import WordScript.Compiler.Access

namespace WordScript.Expression

open CompileM

/-- The operation of an arithmetic operator, or of its assigning form. -/
def arithmetic? (op : TokenKind) (ty : Ty) : Option Opcode :=
  match op, ty with
  | .symbol .plus, .int | .symbol .plusEqual, .int => some .addInt
  | .symbol .minus, .int | .symbol .minusEqual, .int => some .subtractInt
  | .symbol .star, .int | .symbol .starEqual, .int => some .multiplyInt
  | .symbol .slash, .int | .symbol .slashEqual, .int => some .divideInt
  | .symbol .percent, .int => some .moduloInt
  | .symbol .plus, .float | .symbol .plusEqual, .float => some .addFloat
  | .symbol .minus, .float | .symbol .minusEqual, .float => some .subtractFloat
  | .symbol .star, .float | .symbol .starEqual, .float => some .multiplyFloat
  | .symbol .slash, .float | .symbol .slashEqual, .float => some .divideFloat
  | _, _ => none

/-- The operation of a comparison. -/
def comparison? (op : TokenKind) (ty : Ty) : Option Opcode :=
  match op, ty with
  | .symbol .less, .int => some .lessInt
  | .symbol .lessEqual, .int => some .lessEqualInt
  | .symbol .greater, .int => some .greaterInt
  | .symbol .greaterEqual, .int => some .greaterEqualInt
  | .symbol .less, .float => some .lessFloat
  | .symbol .lessEqual, .float => some .lessEqualFloat
  | .symbol .greater, .float => some .greaterFloat
  | .symbol .greaterEqual, .float => some .greaterEqualFloat
  | _, _ => none

/-- Stops because an operator cannot be applied. -/
def failOperands {α : Type} (op : Token) (left right : Ty) : CompileM α := do
  fail op (.invalidOperands op.lexeme (← typeName left) (← typeName right))

/-- Emits the test of two values for equality. -/
def equality (opcode : Opcode) (op : Token) (ty : Ty) : CompileM Ty := do
  let words ← byte (← wordsOf ty op) op "compared value"
  emit (.ofBytes opcode words 0 0)
  return .bool

/-- Emits a comparison or an arithmetic operation. -/
def calculation (op : Token) (ty : Ty) : CompileM Ty := do
  match comparison? op.kind ty with
  | some opcode =>
    emitOp opcode
    return .bool
  | none =>
    match arithmetic? op.kind ty with
    | some opcode =>
      emitOp opcode
      return ty
    | none => failOperands op ty ty

/-- Emits a binary operator; both operands have the same type. -/
def binary (op : Token) (left right : Ty) : CompileM Ty := do
  if left ≠ right then failOperands op left right
  else
    match op.kind with
    | .keyword .and =>
      if left = .bool then
        emitOp .and
        return .bool
      else calculation op left
    | .keyword .or =>
      if left = .bool then
        emitOp .or
        return .bool
      else calculation op left
    | .symbol .equalEqual =>
      if left ≠ .void then equality .equal op left else calculation op left
    | .symbol .bangEqual =>
      if left ≠ .void then equality .notEqual op left else calculation op left
    | _ => calculation op left

/-- Folds in the operators that bind at least as tightly as `min`. -/
def operators (g : Productions) (min : Precedence) : Nat → Ty → CompileM Ty
  | 0, _ => failFuel
  | budget + 1, left => do
    match Precedence.of? (← kind) with
    | none => return left
    | some precedence =>
      if precedence.rank < min.rank then return left
      else
        let op ← advance
        let right ← g.expression precedence.next
        let ty ← binary op left right
        operators g min budget ty

/-- Loads an operand and goes on with the expression that it begins. -/
def continue_ (g : Productions) (operand : Operand) (min : Precedence) (token : Token) :
    CompileM Ty := do
  let left ← load operand token
  operators g min (← budget) left

/-- Reads the elements of a span after the first one and gives their number, that of the elements
before them included. -/
def spanElements (g : Productions) (element : Ty) : Nat → Nat → CompileM Nat
  | 0, _ => failFuel
  | budget + 1, length => do
    if ← matchKind (.symbol .comma) then
      let token ← current
      let ty ← g.expression .or
      expectType token element ty
      spanElements g element budget (length + 1)
    else return length

/-- A span literal: its elements in order are its value. -/
def spanLiteral (g : Productions) : CompileM Operand := do
  let open_ ← advance
  if ← check (.symbol .rightBrace) then failExpected (← current) "a span element"
  let first ← current
  let element ← g.expression .or
  if element = .void then failMismatch first "a value" "Void"
  let length ← spanElements g element (← budget) 1
  let _ ← consume (.symbol .rightBrace) "'\x7d'"
  let length ← short length open_ "span length"
  return .value (.span element length)

/-- Reads the initialisers of a structure literal; each is stored into its place. -/
def initialisers (g : Productions) (s : StructureType) (token : Token) : Nat → CompileM Unit
  | 0 => failFuel
  | budget + 1 => do
    let name ← identifier "a field name"
    match s.field? name.lexeme with
    | none => fail name (.unknownMember s.name name.lexeme)
    | some f =>
      let _ ← consume (.symbol .equal) "'='"
      let value ← current
      let ty ← g.expression .or
      expectType value f.ty ty
      let words ← byte (← wordsOf ty value) value "field value"
      let depth ← short (s.wordLength - f.offset) token "structure size"
      emit (.ofByteShort .storeTop words depth)
      if ← matchKind (.symbol .comma) then initialisers g s token budget

/-- A structure literal: zeros, then each named field stored into its place. -/
def structureLiteral (g : Productions) (id : Nat) (token : Token) : CompileM Operand := do
  let _ ← consume (.symbol .leftBrace) "'\x7b'"
  let s ← ask fun c => c.types.structures.getD id default
  let total ← short s.wordLength token "structure size"
  emit (.ofByteShort .pushZero 0 total)
  if !(← check (.symbol .rightBrace)) then initialisers g s token (← budget)
  let _ ← consume (.symbol .rightBrace) "'\x7d'"
  return .value (.structure_ id)

/-- A type where a value is expected: a structure literal, a span of zeros or an empty list. -/
def typeLiteral (g : Productions) : CompileM Operand := do
  let token ← current
  let ty ← TypeExpr.read g false
  if ← check (.symbol .leftBrace) then
    match ty with
    | .structure_ id => structureLiteral g id token
    | _ => failMismatch token "a structure" (← typeName ty)
  else
    match ty with
    | .span _ _ =>
      let words ← short (← wordsOf ty token) token "span size"
      emit (.ofByteShort .pushZero 0 words)
      return .value ty
    | .list element =>
      let words ← byte (← wordsOf element token) token "list element"
      emit (.ofByteShort .listNew words 4)
      return .value ty
    | _ => failExpected (← current) "'\x7b'"

/-- A conversion, `Int(x)` or `Float(x)`. -/
def conversion (g : Productions) : CompileM Operand := do
  let token ← advance
  let target : Ty := if token.lexeme = "Int" then .int else .float
  let _ ← consume (.symbol .leftParen) "'('"
  let argument ← current
  let ty ← g.expression .or
  let _ ← consume (.symbol .rightParen) "')'"
  match target, ty with
  | .int, .float => emitOp .floatToInt
  | .float, .int => emitOp .intToFloat
  | .int, .int | .int, .bool | .float, .float => return .value target
  | _, _ => failMismatch argument "Int or Float" (← typeName ty)
  return .value target

/-- A name: a variable, a conversion, a call, or a type. -/
def name (g : Productions) : CompileM Operand := do
  let token ← current
  match ← ask fun c => c.scopes.lookupVariable? c.scope token.lexeme with
  | some v =>
    let _ ← advance
    variableOperand v token
  | none =>
    if (← kindAhead 1) == .symbol .leftParen then
      if token.lexeme = "Int" ∨ token.lexeme = "Float" then conversion g
      else
        match ← ask fun c => c.scopes.lookupFunction? c.scope token.lexeme with
        | none => fail token (.unknownFunction token.lexeme)
        | some header =>
          let _ ← advance
          let returns ← Call.read g header none token
          return .value returns
    else if ← ask fun c => c.isTypeName token.lexeme then typeLiteral g
    else fail token (.unknownIdentifier token.lexeme)

/-- A literal, a name, or an expression in parentheses. -/
def primary (g : Productions) : CompileM Operand := do
  let token ← current
  match token.kind with
  | .integer =>
    let _ ← advance
    match Literal.integer? token.lexeme with
    | none => TypeExpr.failLiteral token
    | some w =>
      emitInteger w.toInt token
      return .value .int
  | .float =>
    let _ ← advance
    emitConstant (Literal.float token.lexeme) token
    return .value .float
  | .string =>
    let _ ← advance
    let index ← addString token.lexeme token
    emit (.ofByteShort .loadHeapConstant 0 index)
    return .value .string
  | .keyword .true =>
    let _ ← advance
    emit (.ofImmediate .pushImmediate 1)
    return .value .bool
  | .keyword .false =>
    let _ ← advance
    emit (.ofImmediate .pushImmediate 0)
    return .value .bool
  | .symbol .leftParen =>
    let _ ← advance
    let ty ← g.expression .or
    let _ ← consume (.symbol .rightParen) "')'"
    return .value ty
  | .symbol .leftBrace => spanLiteral g
  | .identifier => name g
  | _ => failExpected token "an expression"

/-- Reads the accessors of an operand. -/
def accessors (g : Productions) : Nat → Operand → CompileM Operand
  | 0, _ => failFuel
  | budget + 1, operand => do
    match ← kind with
    | .symbol .dot =>
      let narrowed ← Access.member g operand
      accessors g budget narrowed
    | .symbol .leftBracket =>
      let narrowed ← Access.index g operand
      accessors g budget narrowed
    | _ => return operand

/-- Arithmetic negation. -/
def negation (g : Productions) : CompileM Operand := do
  let op ← advance
  let ty ← g.expression .unary
  match ty with
  | .int => emitOp .negateInt
  | .float => emitOp .negateFloat
  | _ => failOperands op ty ty
  return .value ty

/-- Logical negation. -/
def complement (g : Productions) : CompileM Operand := do
  let op ← advance
  let ty ← g.expression .unary
  expectType op .bool ty
  emitOp .not
  return .value .bool

/-- A value moved to a heap block of its own. -/
def boxed (g : Productions) : CompileM Operand := do
  let op ← advance
  let ty ← g.expression .unary
  if ty = .void then failMismatch op "a value" "Void"
  let words ← short (← wordsOf ty op) op "heap block"
  emit (.ofByteShort .new 0 words)
  return .value (.pointer ty)

/-- Reads an operand: unary operators, or a primary with its accessors. -/
def operand (g : Productions) : CompileM Operand := do
  match ← kind with
  | .symbol .minus => negation g
  | .keyword .not => complement g
  | .keyword .new => boxed g
  | _ =>
    let first ← primary g
    accessors g (← budget) first

/-- Reads an expression of operators that bind at least as tightly as `min`. -/
def read (g : Productions) (min : Precedence) : CompileM Ty := do
  let token ← current
  let first ← operand g
  continue_ g first min token

end WordScript.Expression
