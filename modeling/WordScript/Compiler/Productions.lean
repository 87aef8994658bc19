/-
The productions of the grammar that recur.

Expressions, operands, statements, types and instances of templates are read by
functions that need one another.  Each of them is written against this record of
all five; the record for a given amount of fuel is built from the one with less,
so that every recursive use spends a unit.  A use is always preceded by a token
that is read or by a further level of instantiation, so fuel in proportion to the
length of the source is enough.

* `Productions` — the record;
* `Precedence` — how tightly operators bind.
-/
import WordScript.Compiler.Place

namespace WordScript

/-- How tightly an operator binds, the loosest first. -/
inductive Precedence where
  | or
  | and
  | equality
  | comparison
  | term
  | factor
  | unary
deriving Repr, DecidableEq

namespace Precedence

/-- The rank of a precedence. -/
def rank : Precedence → Nat
  | or => 0
  | and => 1
  | equality => 2
  | comparison => 3
  | term => 4
  | factor => 5
  | unary => 6

/-- The next tighter precedence. -/
def next : Precedence → Precedence
  | or => and
  | and => equality
  | equality => comparison
  | comparison => term
  | term => factor
  | factor | unary => unary

/-- The precedence of a binary operator. -/
def of? : TokenKind → Option Precedence
  | .keyword .or => some or
  | .keyword .and => some and
  | .symbol .equalEqual | .symbol .bangEqual => some equality
  | .symbol .less | .symbol .lessEqual | .symbol .greater | .symbol .greaterEqual =>
    some comparison
  | .symbol .plus | .symbol .minus => some term
  | .symbol .star | .symbol .slash | .symbol .percent => some factor
  | _ => none

end Precedence

/-- The productions that recur. -/
structure Productions where
  /-- an expression of operators that bind at least as tightly as the precedence -/
  expression : Precedence → CompileM Ty
  /-- an operand with its unary operators and accessors -/
  operand : CompileM Operand
  /-- a statement on a line of the given depth -/
  statement : Nat → CompileM Unit
  /-- a type, with pointers and references if they are allowed -/
  typeExpr : Bool → CompileM Ty
  /-- the instance of a template for some arguments -/
  instantiate : Nat → List Ty → Token → CompileM Nat

end WordScript
