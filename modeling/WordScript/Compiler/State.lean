/-
The state of a compilation.

Source is compiled in one pass: tokens are read from a cursor, and instructions
are emitted into the chunk under construction as soon as what they stand for has
been read.  Between statements the value stack of the running program holds
exactly the variables of the open scopes, so the place of a variable is known
when it is declared.

Functions are compiled while the code around them is still open, so the chunks
under construction form a stack, the innermost first, above the entry chunk.

* `Compiler` — the state;
* `CompileM` — a computation on it that may end in an error;
* `Compiler.indentation`, `skipBlock` — looking ahead in the tokens.
-/
import WordScript.Compiler.Error
import WordScript.Program.Basic
import WordScript.Scope

namespace WordScript

/-- A loop whose end has not been reached: where it begins, the jumps that leave it, and the words
of the frame when it was entered. -/
structure LoopContext where
  start : Nat
  breaks : List Nat := []
  scopeWords : Nat

/-- A chunk under construction. -/
structure Builder where
  /-- its number in the program -/
  chunk : Nat
  code : Chunk
  scope : Nat
  returns : Ty
  /-- the loops that are open, the innermost first -/
  loops : List LoopContext := []

/-- The type parameters in effect and what they stand for. -/
abbrev Bindings := List (String × Ty)

/-- The state of a compilation. -/
structure Compiler where
  types : TypeTable := {}
  scopes : ScopeTree := {}
  entry : Builder
  /-- the functions being compiled, the innermost first -/
  nested : List Builder := []
  chunks : Array Chunk
  externals : Array String := #[]
  tokens : Array Token := #[]
  cursor : Nat := 0
  eof : Token
  /-- the type parameters in effect, the innermost first -/
  bindings : List Bindings := []
  instantiationDepth : Nat := 0

/-- A computation of the compiler. -/
abbrev CompileM := StateT Compiler (Except CompileError)

namespace Compiler

/-- The name of the chunk that holds top-level code. -/
def entryName : String := "<entry>"

/-- The compiler before its first module. -/
def start : Compiler :=
  { entry := ⟨0, ⟨entryName, #[], #[]⟩, ScopeTree.globalScope, .void, []⟩
    chunks := #[⟨entryName, #[], #[]⟩]
    eof := ⟨.endOfFile, "", ⟨0, 0⟩, ""⟩ }

/-- The token at the cursor. -/
def current (c : Compiler) : Token :=
  c.tokens.getD c.cursor c.eof

/-- The kind of the token at an index; past the end it is the end of the file. -/
def kindAt (c : Compiler) (index : Nat) : TokenKind :=
  match c.tokens[index]? with
  | some t => t.kind
  | none => .endOfFile

/-- The number of indents from an index on. -/
def indentsFrom (tokens : Array Token) (index : Nat) : Nat :=
  if h : index < tokens.size then
    if tokens[index].kind = .indent then indentsFrom tokens (index + 1) + 1 else 0
  else 0
termination_by tokens.size - index

/-- The number of indents that lead the line at the cursor. -/
def indentation (c : Compiler) : Nat :=
  indentsFrom c.tokens c.cursor

/-- The first token of the line at the cursor, behind its indents. -/
def lineStart (c : Compiler) : Token :=
  c.tokens.getD (c.cursor + c.indentation) c.eof

/-- Whether nothing but the end of the file follows the indents at the cursor. -/
def atEnd (c : Compiler) : Bool :=
  c.kindAt (c.cursor + c.indentation) == .endOfFile

/-- The index after the line that an index lies in. -/
def lineEndFrom (tokens : Array Token) (index : Nat) : Nat :=
  if h : index < tokens.size then
    match tokens[index].kind with
    | .statementTerminator => index + 1
    | .endOfFile => index
    | _ => lineEndFrom tokens (index + 1)
  else index
termination_by tokens.size - index

/-- The index after the lines from an index on that are deeper than `depth`. -/
def blockEndFrom (tokens : Array Token) (depth index : Nat) : Nat :=
  let level := indentsFrom tokens index
  match tokens[index + level]? with
  | none => index
  | some t =>
    if level ≤ depth ∨ t.kind = .endOfFile then index
    else if _h : index < lineEndFrom tokens index ∧ index < tokens.size then
      blockEndFrom tokens depth (lineEndFrom tokens index)
    else index
termination_by tokens.size - index
decreasing_by omega

/-- The chunk under construction. -/
def builder (c : Compiler) : Builder :=
  match c.nested with
  | [] => c.entry
  | b :: _ => b

/-- Changes the chunk under construction. -/
@[inline] def mapBuilder (f : Builder → Builder) (c : Compiler) : Compiler :=
  match c.nested with
  | [] => { c with entry := f c.entry }
  | b :: rest => { c with nested := f b :: rest }

/-- The innermost scope. -/
def scope (c : Compiler) : Nat :=
  c.builder.scope

/-- The words of the open scopes of the current frame. -/
def scopeWords (c : Compiler) : Nat :=
  c.scopes.wordLength c.scope

/-- Whether declarations of functions and structures are allowed here. -/
def isTopLevel (c : Compiler) : Bool :=
  c.nested.isEmpty && c.entry.scope == ScopeTree.globalScope

/-- What a type parameter in effect stands for. -/
def binding? (c : Compiler) (name : String) : Option Ty :=
  c.bindings.head?.bind fun b => b.lookup name

/-- Whether a name stands for a type of the language or of the table. -/
def typeExists (c : Compiler) (name : String) : Bool :=
  (Ty.primitive? name).isSome || (c.types.lookup? name).isSome

/-- Whether a name stands for a type here. -/
def isTypeName (c : Compiler) (name : String) : Bool :=
  (c.binding? name).isSome || c.typeExists name

end Compiler

namespace CompileM

/-- Stops with an error at a token. -/
def fail {α : Type} (token : Token) (cause : CompileCause) : CompileM α :=
  throw ⟨token, cause⟩

/-- Stops because a token is not what was expected. -/
def failExpected {α : Type} (token : Token) (expected : String) : CompileM α :=
  fail token (.expected expected token.describe)

/-- Stops because a value has the wrong type. -/
def failMismatch {α : Type} (token : Token) (expected found : String) : CompileM α :=
  fail token (.typeMismatch expected found)

/-- Reads something off the state. -/
@[inline] def ask {α : Type} (f : Compiler → α) : CompileM α := fun c =>
  .ok (f c, c)

/-- The token at the cursor. -/
def current : CompileM Token :=
  ask Compiler.current

/-- The place of the cursor. -/
def cursor : CompileM Nat :=
  ask Compiler.cursor

/-- The kind of the token at the cursor. -/
def kind : CompileM TokenKind :=
  ask fun c => c.kindAt c.cursor

/-- The kind of a token further on. -/
def kindAhead (n : Nat) : CompileM TokenKind :=
  ask fun c => c.kindAt (c.cursor + n)

/-- Stops because the reader ran out of fuel. -/
def failFuel {α : Type} : CompileM α := do
  fail (← current) .outOfFuel

/-- More rounds than a loop that reads a token in every round can make. -/
def budget : CompileM Nat :=
  ask fun c => c.tokens.size - c.cursor + 1

/-- Takes the token at the cursor. -/
def advance : CompileM Token := fun c =>
  let token := c.current
  if c.cursor < c.tokens.size then .ok (token, { c with cursor := c.cursor + 1 })
  else .ok (token, c)

/-- Moves the cursor. -/
def moveTo (cursor : Nat) : CompileM Unit :=
  modify fun c => { c with cursor }

/-- Whether the token at the cursor is of a kind. -/
def check (k : TokenKind) : CompileM Bool := do
  return (← kind) == k

/-- Takes the token at the cursor if it is of a kind. -/
def matchKind (k : TokenKind) : CompileM Bool := do
  if ← check k then
    let _ ← advance
    return true
  else return false

/-- Takes the token at the cursor, which has to be of a kind. -/
def consume (k : TokenKind) (expected : String) : CompileM Token := do
  if ← check k then advance else failExpected (← current) expected

/-- Takes a name. -/
def identifier (what : String) : CompileM Token :=
  consume .identifier what

/-- Whether a statement may end at the cursor. -/
def atStatementEnd : CompileM Bool := do
  match ← kind with
  | .statementTerminator | .keyword .else_ | .endOfFile => return true
  | _ => return false

/-- Ends a statement.  A statement in the first branch of a conditional may also end before
the `else` on the same line. -/
def endStatement : CompileM Unit := do
  match ← kind with
  | .statementTerminator =>
    let _ ← advance
  | .keyword .else_ | .endOfFile => return
  | _ => failExpected (← current) "end of statement"

/-- Passes over the rest of the line and over every line that is deeper than `depth`. -/
def skipBlock (depth : Nat) : CompileM Unit :=
  modify fun c =>
    { c with cursor :=
        Compiler.blockEndFrom c.tokens depth (Compiler.lineEndFrom c.tokens c.cursor) }

/-- The innermost scope. -/
def scope : CompileM Nat :=
  ask Compiler.scope

/-- The size of a type. -/
def wordsOf (ty : Ty) (token : Token) : CompileM Nat := do
  match ← ask fun c => c.types.wordLength ty with
  | .ok n => return n
  | .error e => failLayout token e
where
  /-- Stops because a type has no size. -/
  failLayout {α : Type} (token : Token) : LayoutError → CompileM α
    | .unresolvedPlaceholder _ => fail token (.unresolvedPlaceholder token.lexeme)
    | .recursive name => fail token (.recursiveStructure name)
    | .tooLarge => fail token (.tooLarge "type size")

/-- The name of a type. -/
def typeName (ty : Ty) : CompileM String :=
  ask fun c => c.types.nameOf ty

/-- Stops unless a type is the expected one. -/
def expectType (token : Token) (expected found : Ty) : CompileM Unit := do
  if expected ≠ found then failMismatch token (← typeName expected) (← typeName found)

/-- A number as a byte operand. -/
def byte (value : Nat) (token : Token) (what : String) : CompileM UInt8 :=
  if value < 256 then return UInt8.ofNat value else fail token (.tooLarge what)

/-- A number as a 16-bit operand. -/
def short (value : Nat) (token : Token) (what : String) : CompileM UInt16 :=
  if value < 65536 then return UInt16.ofNat value else fail token (.tooLarge what)

/-- Declares a variable in the innermost scope. -/
def declare (name : Token) (ty : Ty) : CompileM Variable := do
  let words ← wordsOf ty name
  match ← ask fun c => c.scopes.declareVariable c.scope name.lexeme ty words with
  | .error e => fail name (.redeclaration e.name)
  | .ok (variable_, scopes) =>
    modify fun c => { c with scopes }
    return variable_

end CompileM

end WordScript
