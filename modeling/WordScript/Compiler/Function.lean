/-
Functions.

A function is declared before its body is read, so that it can call itself.  Its
parameters are the first words of its frame, after the receiver if it is a
method.  Where the end of the body is reached, it returns zeros.

* `Function.signature` — the head of a declaration;
* `Function.body` — the code of a function, in a chunk that waits for it;
* `Function.declaration`, `Function.external` — declarations at the top level.
-/
import WordScript.Compiler.Block
import WordScript.Compiler.TypeExpr

namespace WordScript

/-- The head of a function: its name, its parameters and the type of its result. -/
structure Signature where
  name : Token
  parameters : List Parameter
  returns : Ty

namespace Signature

/-- The header of a function with this signature. -/
def header (s : Signature) (kind : FunctionKind) (receiver : Option Nat) : FunctionHeader :=
  ⟨s.name.lexeme, s.parameters, s.returns, kind, receiver⟩

end Signature

namespace Function

open CompileM

/-- Stops because a name is taken. -/
def failRedeclared {α : Type} (token : Token) : CompileM α :=
  fail token (.redeclaration token.lexeme)

/-- Reads one parameter; those before it are given. -/
def parameter (g : Productions) (before : List Parameter) : CompileM Parameter := do
  let token ← current
  let ty ← TypeExpr.read g true
  if ty = .void then failMismatch token "a parameter type" "Void"
  let name ← identifier "a parameter name"
  if before.any fun p => p.name == name.lexeme then failRedeclared name
  return ⟨name.lexeme, ty⟩

/-- Reads parameters after those in `done`, which are in reverse. -/
def parameters (g : Productions) : Nat → List Parameter → CompileM (List Parameter)
  | 0, _ => failFuel
  | budget + 1, done => do
    let p ← parameter g done
    if ← matchKind (.symbol .comma) then parameters g budget (p :: done)
    else return (p :: done).reverse

/-- Reads the type of the result, which is void unless it is given. -/
def result (g : Productions) : CompileM Ty := do
  if ← matchKind (.keyword .returns) then
    let token ← current
    let ty ← TypeExpr.read g true
    match ty with
    | .reference _ => failMismatch token "a value type" (← typeName ty)
    | _ => return ty
  else return .void

/-- Reads the head of a function. -/
def signature (g : Productions) : CompileM Signature := do
  let _ ← consume (.keyword .function) "'function'"
  let name ← identifier "a function name"
  let _ ← consume (.symbol .leftParen) "'('"
  let parameters ← if ← check (.symbol .rightParen) then pure []
    else parameters g (← budget) []
  let _ ← consume (.symbol .rightParen) "')'"
  let returns ← result g
  return ⟨name, parameters, returns⟩

/-- Adds an empty chunk to the program and gives its number. -/
def reserveChunk (name : String) (token : Token) : CompileM UInt16 := do
  let index ← short (← ask fun c => c.chunks.size) token "function count"
  modify fun c => { c with chunks := c.chunks.push ⟨name, #[], #[]⟩ }
  return index

/-- Declares a function for the whole program. -/
def declareGlobal (header : FunctionHeader) (token : Token) : CompileM Unit := do
  match ← ask fun c => c.scopes.declareFunction ScopeTree.globalScope header with
  | .error e => fail token (.redeclaration e.name)
  | .ok scopes => modify fun c => { c with scopes }

/-- Opens a chunk for the code of a function. -/
def open_ (chunk : Nat) (returns : Ty) : CompileM Unit :=
  modify fun c =>
    let (scope, scopes) := c.scopes.enter ScopeTree.globalScope .function
    let name := (c.chunks[chunk]?.map Chunk.name).getD ""
    { c with scopes, nested := ⟨chunk, ⟨name, #[], #[]⟩, scope, returns, []⟩ :: c.nested }

/-- Closes the innermost chunk and puts it in its place in the program. -/
def close : CompileM Unit :=
  modify fun c =>
    match c.nested with
    | [] => c
    | b :: nested =>
      { c with nested, scopes := c.scopes.exit.2, chunks := c.chunks.setIfInBounds b.chunk b.code }

/-- Declares the receiver and the parameters; all of them are noticed at the name of the
function. -/
def declareParameters (header : FunctionHeader) (name : Token) : CompileM Unit := do
  if let some owner := header.receiver then
    let _ ← declare { name with kind := .identifier, lexeme := "self" }
      (.reference (.structure_ owner))
  header.parameters.forM fun p => do
    let _ ← declare { name with kind := .identifier, lexeme := p.name } p.ty

/-- Emits the return at the end of a body. -/
def emitReturn (returns : Ty) (name : Token) : CompileM Unit := do
  if returns = .void then emit (.ofBytes .return_ 0 0 0)
  else
    let words ← wordsOf returns name
    let count ← short words name "return value"
    emit (.ofByteShort .pushZero 0 count)
    let count ← byte words name "return value"
    emit (.ofBytes .return_ count 0 0)

/-- Reads the body of a function on a line of the given depth into the chunk of its header. -/
def body (g : Productions) (header : FunctionHeader) (depth : Nat) (name : Token) :
    CompileM Unit := do
  match header.kind with
  | .external _ => return
  | .script chunk =>
    open_ chunk.toNat header.returns
    declareParameters header name
    Block.tail g depth
    emitReturn header.returns name
    close

/-- The declaration of a function. -/
def declaration (g : Productions) (depth : Nat) : CompileM Unit := do
  let s ← signature g
  let chunk ← reserveChunk s.name.lexeme s.name
  let header := s.header (.script chunk) none
  declareGlobal header s.name
  body g header depth s.name

/-- The declaration of a function of the host. -/
def external (g : Productions) : CompileM Unit := do
  let _ ← advance
  let s ← signature g
  let index ← short (← ask fun c => c.externals.size) s.name "external table"
  declareGlobal (s.header (.external index) none) s.name
  modify fun c => { c with externals := c.externals.push s.name.lexeme }
  endStatement

end Function

end WordScript
