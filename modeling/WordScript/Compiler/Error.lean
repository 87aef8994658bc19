/-
Why a module does not compile.

Compilation stops at the first error.  An error is a cause and the token at which
it was noticed; the cause holds what its message has to name.
-/
import WordScript.Source.Caret

namespace WordScript

/-- What is wrong with a module. -/
inductive CompileCause where
  | expected (expected found : String)
  | redeclaration (name : String)
  | unknownIdentifier (name : String)
  | unknownType (name : String)
  | unknownFunction (name : String)
  | unknownMember (ty member : String)
  | typeMismatch (expected found : String)
  | invalidOperands (op left right : String)
  | arityMismatch (name : String) (expected found : Nat)
  | indexOutOfBounds (index length : Nat)
  | notAssignable (target : String)
  | notIndexable (ty : String)
  | typeArgumentCount (name : String) (expected found : Nat)
  | unresolvedPlaceholder (name : String)
  | recursiveStructure (name : String)
  | invalidPosition (construct reason : String)
  | literalOutOfRange (literal : String)
  | tooLarge (what : String)
  | expectedBlock
  | unexpectedIndentation
  /-- the reader was given too little fuel -/
  | outOfFuel
deriving Repr, DecidableEq

namespace CompileCause

/-- The wording of a cause. -/
def message : CompileCause → String
  | expected e f => "expected " ++ e ++ ", found " ++ f
  | redeclaration name => "'" ++ name ++ "' is already declared in this scope"
  | unknownIdentifier name => "unknown identifier '" ++ name ++ "'"
  | unknownType name => "unknown type '" ++ name ++ "'"
  | unknownFunction name => "unknown function '" ++ name ++ "'"
  | unknownMember ty member => "type " ++ ty ++ " has no member '" ++ member ++ "'"
  | typeMismatch e f => "type mismatch: expected " ++ e ++ ", found " ++ f
  | invalidOperands op left right =>
    "operator " ++ op ++ " cannot be applied to " ++ left ++ " and " ++ right
  | arityMismatch name e f =>
    "'" ++ name ++ "' takes " ++ toString e ++ " argument(s) but " ++ toString f
      ++ " were supplied"
  | indexOutOfBounds index length =>
    "index " ++ toString index ++ " is out of bounds for length " ++ toString length
  | notAssignable target => target ++ " is not assignable"
  | notIndexable ty => "type " ++ ty ++ " cannot be indexed"
  | typeArgumentCount name e f =>
    "'" ++ name ++ "' expects " ++ toString e ++ " type argument(s) but " ++ toString f
      ++ " were supplied"
  | unresolvedPlaceholder name =>
    "type parameter of '" ++ name ++ "' is unresolved after substitution"
  | recursiveStructure name => "structure '" ++ name ++ "' contains itself by value"
  | invalidPosition construct reason => construct ++ " " ++ reason
  | literalOutOfRange literal => "literal " ++ literal ++ " is out of range"
  | tooLarge what => what ++ " exceeds the instruction format limit"
  | expectedBlock => "expected an indented block"
  | unexpectedIndentation => "unexpected indentation"
  | outOfFuel => "out of fuel"

end CompileCause

/-- A cause and the token at which it was noticed. -/
structure CompileError where
  token : Token
  cause : CompileCause
deriving Repr, DecidableEq

namespace CompileError

/-- The wording of an error, with its place. -/
def message (e : CompileError) : String :=
  toString e.token.position.line ++ ":" ++ toString e.token.position.col ++ ": "
    ++ e.cause.message

/-- The error with the line it is about. -/
def render (e : CompileError) (source : String) : String :=
  Source.caret source e.token.position e.cause.message

end CompileError

end WordScript
