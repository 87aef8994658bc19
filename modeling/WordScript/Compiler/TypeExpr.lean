/-
Types in source text.

A type is a name, with type arguments if it names a template, and then any number
of suffixes: `<N>` for a span, `[]` for a list and, where no value can follow,
`*` for a pointer and `&` for a reference.

* `TypeExpr.read` — a type at the cursor;
* `TypeExpr.resolve` — templates that waited for their arguments are instantiated.
-/
import WordScript.Compiler.Literal
import WordScript.Compiler.Productions

namespace WordScript.TypeExpr

open CompileM

/-- Stops because a number is out of range. -/
def failLiteral {α : Type} (token : Token) : CompileM α :=
  fail token (.literalOutOfRange token.lexeme)

/-- Reads the suffixes of a type, at most as many as there is budget for. -/
def suffixes (indirection : Bool) : Nat → Ty → CompileM Ty
  | 0, _ => failFuel
  | budget + 1, ty => do
    match ← kind with
    | .symbol .less =>
      if (← kindAhead 1) == .integer && (← kindAhead 2) == .symbol .greater then
        let _ ← advance
        let length ← advance
        let _ ← advance
        match Literal.natural? 65535 length.lexeme with
        | none => failLiteral length
        | some n => suffixes indirection budget (.span ty (UInt16.ofNat n))
      else return ty
    | .symbol .leftBracket =>
      if (← kindAhead 1) == .symbol .rightBracket then
        let _ ← advance
        let _ ← advance
        suffixes indirection budget (.list ty)
      else return ty
    | .symbol .star =>
      if indirection then
        let _ ← advance
        suffixes indirection budget (.pointer ty)
      else return ty
    | .symbol .ampersand =>
      if indirection then
        let _ ← advance
        suffixes indirection budget (.reference ty)
      else return ty
    | _ => return ty

/-- Reads type arguments after those in `done`, which are in reverse. -/
def arguments (g : Productions) : Nat → List Ty → CompileM (List Ty)
  | 0, _ => failFuel
  | budget + 1, done => do
    let ty ← g.typeExpr true
    if ← matchKind (.symbol .comma) then arguments g budget (ty :: done)
    else return (ty :: done).reverse

/-- Stops unless a template is given as many arguments as it has parameters. -/
def checkArgumentCount (template found : Nat) (token : Token) : CompileM Unit := do
  match ← ask fun c => c.types.template? template with
  | none => return
  | some t =>
    if t.placeholders.length ≠ found then
      fail token (.typeArgumentCount t.name t.placeholders.length found)

/-- Applies a template.  Arguments without placeholders make an instance at once; others wait for
the instance of the template around them. -/
def applyTemplate (g : Productions) (template : Nat) (args : List Ty) (token : Token) :
    CompileM Ty := do
  if args.any Ty.containsPlaceholder then
    checkArgumentCount template args.length token
    return .generic template args
  else
    let id ← g.instantiate template args token
    return .structure_ id

/-- The type that a name stands for; a template takes its arguments from the cursor. -/
def named (g : Productions) (token : Token) : CompileM Ty := do
  match ← ask fun c => c.binding? token.lexeme with
  | some ty => return ty
  | none =>
    match Ty.primitive? token.lexeme with
    | some ty => return ty
    | none =>
      match ← ask fun c => c.types.lookup? token.lexeme with
      | some (.structure_ id) => return .structure_ id
      | some (.template template) =>
        let _ ← consume (.symbol .less) "'<'"
        let args ← arguments g (← budget) []
        let _ ← consume (.symbol .greater) "'>'"
        applyTemplate g template args token
      | none => fail token (.unknownType token.lexeme)

/-- Reads a type. -/
def read (g : Productions) (indirection : Bool) : CompileM Ty := do
  let token ← identifier "a type name"
  let ty ← named g token
  suffixes indirection (← budget) ty

mutual

/-- Replaces every template that waits for its arguments by its instance. -/
def resolve (g : Productions) (token : Token) : Ty → CompileM Ty
  | .generic template args => do
    let args ← resolveAll g token args
    let id ← g.instantiate template args token
    return .structure_ id
  | .span element length => do
    let element ← resolve g token element
    return .span element length
  | .list element => do
    let element ← resolve g token element
    return .list element
  | .pointer element => do
    let element ← resolve g token element
    return .pointer element
  | .reference element => do
    let element ← resolve g token element
    return .reference element
  | .placeholder _ => fail token (.unresolvedPlaceholder token.lexeme)
  | .void => return .void
  | .bool => return .bool
  | .int => return .int
  | .float => return .float
  | .string => return .string
  | .structure_ id => return .structure_ id

/-- Resolves types from left to right. -/
def resolveAll (g : Productions) (token : Token) : List Ty → CompileM (List Ty)
  | [] => return []
  | t :: ts => do
    let t ← resolve g token t
    let ts ← resolveAll g token ts
    return t :: ts

end

end WordScript.TypeExpr
