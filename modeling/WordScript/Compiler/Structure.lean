/-
Structures and their templates.

The fields of a structure are read first; its methods are compiled once its
layout is known, all heads before the first body, so that methods can call one
another.  A structure with type parameters is a template: its fields are kept
with placeholders, and every instance compiles the methods again, because the
places of the fields differ.

* `Structure.declaration` — a structure or template at the top level;
* `Structure.instantiate` — the instance of a template, one for each list of
  arguments.
-/
import WordScript.Compiler.Function

namespace WordScript.Structure

open CompileM

/-- How deep instances may be made while others are being made. -/
def maxInstantiationDepth : Nat := 32

/-- Reads the rest of a field after those in `done`. -/
def field (g : Productions) (done : List FieldTemplate) : CompileM FieldTemplate := do
  let _ ← advance
  let token ← current
  let ty ← TypeExpr.read g true
  match ty with
  | .void | .reference _ => failMismatch token "a field type" (← typeName ty)
  | _ => pure ()
  let name ← identifier "a field name"
  if done.any fun f => f.name == name.lexeme then Function.failRedeclared name
  endStatement
  return ⟨name.lexeme, ty, name⟩

/-- Reads the members on lines of exactly `depth`: the fields, and where each method begins.  Those
read before are in reverse. -/
def memberLines (g : Productions) (depth : Nat) :
    Nat → List FieldTemplate → List Nat → CompileM (List FieldTemplate × List Nat)
  | 0, _, _ => failFuel
  | budget + 1, fields, methods => do
    let level ← ask Compiler.indentation
    let done ← ask Compiler.atEnd
    if done || level < depth then return (fields.reverse, methods.reverse)
    else if depth < level then fail (← ask Compiler.lineStart) .unexpectedIndentation
    else
      let at_ := (← cursor) + level
      moveTo at_
      match ← kind with
      | .keyword .field =>
        let f ← field g fields
        memberLines g depth budget (f :: fields) methods
      | .keyword .function =>
        skipBlock depth
        memberLines g depth budget fields (at_ :: methods)
      | _ => failExpected (← current) "'field' or 'function'"

/-- Reads the members of a structure while some type parameters are in effect. -/
def members (g : Productions) (depth : Nat) (bindings : Bindings) :
    CompileM (List FieldTemplate × List Nat) := do
  modify fun c => { c with bindings := bindings :: c.bindings }
  Block.requireLine depth
  let found ← memberLines g depth (← budget) [] []
  modify fun c => { c with bindings := c.bindings.tail }
  return found

/-- A method whose head has been read: its header, its name, and where its body begins. -/
structure PendingMethod where
  header : FunctionHeader
  name : Token
  body : Nat

/-- Reads the head of the method at `at_` and enters it into its structure. -/
def methodHead (g : Productions) (id at_ : Nat) : CompileM PendingMethod := do
  moveTo at_
  let s ← Function.signature g
  let owner ← ask fun c => c.types.structures.getD id default
  let name := s.name.lexeme
  if (owner.method? name).isSome || (owner.field? name).isSome then
    Function.failRedeclared s.name
  let chunk ← Function.reserveChunk (owner.name ++ "." ++ name) s.name
  let header := s.header (.script chunk) (some id)
  modify fun c => { c with
    types := c.types.modifyStructure id fun t => { t with methods := t.methods ++ [header] } }
  return ⟨header, s.name, ← cursor⟩

/-- Compiles methods, first all heads and then all bodies. -/
def methodBodies (g : Productions) (id : Nat) (methods : List Nat) (depth : Nat) :
    CompileM Unit := do
  let pending ← methods.mapM (methodHead g id)
  pending.forM fun m => do
    moveTo m.body
    Function.body g m.header depth m.name

/-- Compiles the methods of a structure from the tokens they stand in, and comes back. -/
def methods (g : Productions) (id : Nat) (at_ : List Nat) (depth : Nat) (tokens : Array Token)
    (bindings : Bindings) : CompileM Unit := do
  let here ← ask Compiler.tokens
  let place ← cursor
  modify fun c => { c with tokens, bindings := bindings :: c.bindings }
  methodBodies g id at_ depth
  modify fun c => { c with tokens := here, cursor := place, bindings := c.bindings.tail }

/-- Lays out the fields of a structure. -/
def layout (id : Nat) (fields : List (String × Ty)) (token : Token) : CompileM Unit := do
  match ← ask fun c => c.types.setFields id fields with
  | .error e => wordsOf.failLayout token e
  | .ok types => modify fun c => { c with types }

/-- Reads a structure without type parameters. -/
def plain (g : Productions) (name : Token) (depth : Nat) : CompileM Unit := do
  let id ← modifyGet fun c =>
    let (id, types) := c.types.addStructure name.lexeme true
    (id, { c with types })
  let (fields, at_) ← members g depth []
  layout id (fields.map fun f => (f.name, f.ty)) name
  methods g id at_ depth (← ask Compiler.tokens) []

/-- Reads a template.  It is entered before its members are read, so that they may mention it. -/
def template (g : Productions) (name : Token) (placeholders : List String) (depth : Nat) :
    CompileM Unit := do
  let _ ← byte placeholders.length name "type parameter list"
  let bindings := placeholders.mapIdx fun i p => (p, Ty.placeholder (UInt8.ofNat i))
  let id ← modifyGet fun c =>
    let (id, types) := c.types.addTemplate
      { name := name.lexeme, placeholders, memberDepth := depth, tokens := c.tokens, token := name }
    (id, { c with types })
  let (fields, methods) ← members g depth bindings
  modify fun c => { c with types := c.types.modifyTemplate id fun t => { t with fields, methods } }

/-- Reads type parameters after those in `done`, which are in reverse. -/
def typeParameters : Nat → List String → CompileM (List String)
  | 0, _ => failFuel
  | budget + 1, done => do
    let name ← identifier "a type parameter"
    let taken ← ask fun c => c.typeExists name.lexeme
    if done.contains name.lexeme || taken then Function.failRedeclared name
    let done := name.lexeme :: done
    if ← matchKind (.symbol .comma) then typeParameters budget done else return done.reverse

/-- The declaration of a structure or template. -/
def declaration (g : Productions) (depth : Nat) : CompileM Unit := do
  let _ ← advance
  let name ← identifier "a structure name"
  if ← ask fun c => c.typeExists name.lexeme then Function.failRedeclared name
  let placeholders ← if ← matchKind (.symbol .less) then do
      let names ← typeParameters (← budget) []
      let _ ← consume (.symbol .greater) "'>'"
      pure names
    else pure []
  let _ ← consume .statementTerminator "end of line"
  if placeholders.isEmpty then plain g name (depth + 1)
  else template g name placeholders (depth + 1)

/-- The fields of an instance. -/
def instanceFields (g : Productions) (definition : StructureTemplate) (arguments : List Ty) :
    List FieldTemplate → CompileM (List (String × Ty))
  | [] => return []
  | f :: rest => do
    let ty := f.ty.substitute arguments
    if ty.containsPlaceholder then fail f.token (.unresolvedPlaceholder definition.name)
    let ty ← TypeExpr.resolve g f.token ty
    let rest ← instanceFields g definition arguments rest
    return (f.name, ty) :: rest

/-- Makes an instance.  It is recorded before its fields are resolved, so that they may point back
to it. -/
def makeInstance (g : Productions) (template : Nat) (definition : StructureTemplate)
    (arguments : List Ty) (token : Token) : CompileM Nat := do
  let id ← modifyGet fun c =>
    let name := definition.name ++ "<" ++ ", ".intercalate (c.types.namesOf arguments) ++ ">"
    let (id, types) := c.types.addStructure name false
    (id, { c with types := types.recordInstance template arguments id })
  layout id (← instanceFields g definition arguments definition.fields) token
  methods g id definition.methods definition.memberDepth definition.tokens
    (definition.placeholders.zip arguments)
  return id

/-- The instance of a template for some arguments. -/
def instantiate (g : Productions) (template : Nat) (arguments : List Ty) (token : Token) :
    CompileM Nat := do
  match ← ask fun c => c.types.instance? template arguments with
  | some id => return id
  | none =>
    TypeExpr.checkArgumentCount template arguments.length token
    match ← ask fun c => c.types.template? template with
    | none => fail token (.unknownType token.lexeme)
    | some definition =>
      if arguments.any Ty.containsPlaceholder then
        fail token (.unresolvedPlaceholder definition.name)
      if maxInstantiationDepth ≤ (← ask Compiler.instantiationDepth) then
        fail token (.tooLarge "generic instantiation depth")
      modify fun c => { c with instantiationDepth := c.instantiationDepth + 1 }
      let id ← makeInstance g template definition arguments token
      modify fun c => { c with instantiationDepth := c.instantiationDepth - 1 }
      return id

end WordScript.Structure
