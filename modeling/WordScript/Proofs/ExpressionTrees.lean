/-
Expressions over numbers and truth values, as trees.

A tree says what is computed and leaves open how it is written.  Numbers wrap
around at 32 bits, both sides of every operator are evaluated, the left one first,
and the only thing that can go wrong in a tree that has a type is a division or a
remainder by zero.

A tree is written as tokens.  Parentheses have to stand where an operator binds
more loosely than its place asks for, and may stand around any expression.

* `Tree.type?` — the type of a tree;
* `Tree.eval` — its value;
* `Tree.Written` — the ways to write it.
-/
import WordScript.Compiler.Productions
import WordScript.Decimal.Reading
import WordScript.Text.Alphabetic

namespace WordScript

/-- The types of numbers and of truth values. -/
inductive Scalar where
  | int
  | bool
deriving Repr, DecidableEq

/-- The type of the language. -/
def Scalar.ty : Scalar → Ty
  | int => .int
  | bool => .bool

/-- A number or a truth value. -/
inductive Value where
  | int (n : Int32)
  | bool (b : Bool)
deriving Repr, DecidableEq

namespace Value

/-- The type of a value. -/
def scalar : Value → Scalar
  | int _ => .int
  | bool _ => .bool

/-- The machine word of a value. -/
def word : Value → Word
  | int n => n.toUInt32
  | bool b => .ofBool b

end Value

/-- Why a tree has no value. -/
inductive Trouble where
  | divisionByZero
  /-- a name without a value, or an operator on values that it does not take -/
  | senseless
deriving Repr, DecidableEq

/-- The operators with one operand. -/
inductive UnaryOp where
  | negate
  | complement
deriving Repr, DecidableEq

namespace UnaryOp

/-- How the operator is written. -/
def kind : UnaryOp → TokenKind
  | negate => .symbol .minus
  | complement => .keyword .not

/-- The type of the operand, which is also that of the outcome. -/
def scalar : UnaryOp → Scalar
  | negate => .int
  | complement => .bool

/-- What the operator does. -/
def apply : UnaryOp → Value → Except Trouble Value
  | negate, .int n => .ok (.int (-n))
  | complement, .bool b => .ok (.bool (!b))
  | _, _ => .error .senseless

end UnaryOp

/-- The operators with two operands. -/
inductive BinaryOp where
  | or
  | and
  | equal
  | notEqual
  | less
  | lessEqual
  | greater
  | greaterEqual
  | add
  | subtract
  | multiply
  | divide
  | remainder
deriving Repr, DecidableEq

namespace BinaryOp

/-- How the operator is written. -/
def kind : BinaryOp → TokenKind
  | or => .keyword .or
  | and => .keyword .and
  | equal => .symbol .equalEqual
  | notEqual => .symbol .bangEqual
  | less => .symbol .less
  | lessEqual => .symbol .lessEqual
  | greater => .symbol .greater
  | greaterEqual => .symbol .greaterEqual
  | add => .symbol .plus
  | subtract => .symbol .minus
  | multiply => .symbol .star
  | divide => .symbol .slash
  | remainder => .symbol .percent

/-- How tightly the operator binds. -/
def precedence : BinaryOp → Precedence
  | or => .or
  | and => .and
  | equal | notEqual => .equality
  | less | lessEqual | greater | greaterEqual => .comparison
  | add | subtract => .term
  | multiply | divide | remainder => .factor

/-- The type of the outcome, if the operator takes operands of these types. -/
def type? : BinaryOp → Scalar → Scalar → Option Scalar
  | or, .bool, .bool | and, .bool, .bool => some .bool
  | equal, .bool, .bool | notEqual, .bool, .bool => some .bool
  | equal, .int, .int | notEqual, .int, .int => some .bool
  | less, .int, .int | lessEqual, .int, .int => some .bool
  | greater, .int, .int | greaterEqual, .int, .int => some .bool
  | add, .int, .int | subtract, .int, .int | multiply, .int, .int => some .int
  | divide, .int, .int | remainder, .int, .int => some .int
  | _, _, _ => none

/-- What the operator does.  Quotients go toward zero, and a remainder has the sign of the number
that is divided. -/
def apply : BinaryOp → Value → Value → Except Trouble Value
  | or, .bool a, .bool b => .ok (.bool (a || b))
  | and, .bool a, .bool b => .ok (.bool (a && b))
  | equal, .bool a, .bool b => .ok (.bool (a == b))
  | notEqual, .bool a, .bool b => .ok (.bool (a != b))
  | equal, .int a, .int b => .ok (.bool (a == b))
  | notEqual, .int a, .int b => .ok (.bool (a != b))
  | less, .int a, .int b => .ok (.bool (a < b))
  | lessEqual, .int a, .int b => .ok (.bool (a ≤ b))
  | greater, .int a, .int b => .ok (.bool (b < a))
  | greaterEqual, .int a, .int b => .ok (.bool (b ≤ a))
  | add, .int a, .int b => .ok (.int (a + b))
  | subtract, .int a, .int b => .ok (.int (a - b))
  | multiply, .int a, .int b => .ok (.int (a * b))
  | divide, .int a, .int b => if b = 0 then .error .divisionByZero else .ok (.int (a / b))
  | remainder, .int a, .int b => if b = 0 then .error .divisionByZero else .ok (.int (a % b))
  | _, _, _ => .error .senseless

end BinaryOp

/-- An expression apart from how it is written. -/
inductive Tree where
  /-- a number literal, which is any word -/
  | number (w : Word)
  | truth (b : Bool)
  | name (x : String)
  | unary (op : UnaryOp) (e : Tree)
  | binary (op : BinaryOp) (l r : Tree)
deriving Repr, DecidableEq

/-- The variables with their types, the newest first. -/
abbrev Context := List (String × Scalar)

/-- The variables with their values, the newest first. -/
abbrev Store := List (String × Value)

namespace Tree

/-- The type of a tree, if it has one. -/
def type? (Γ : Context) : Tree → Option Scalar
  | number _ => some .int
  | truth _ => some .bool
  | name x => Γ.lookup x
  | unary op e => do
    let ty ← e.type? Γ
    if ty = op.scalar then some ty else none
  | binary op l r => do
    let a ← l.type? Γ
    let b ← r.type? Γ
    op.type? a b

/-- The value of a tree. -/
def eval (σ : Store) : Tree → Except Trouble Value
  | number w => .ok (.int w.toInt32)
  | truth b => .ok (.bool b)
  | name x =>
    match σ.lookup x with
    | some v => .ok v
    | none => .error .senseless
  | unary op e => do
    let a ← e.eval σ
    op.apply a
  | binary op l r => do
    let a ← l.eval σ
    let b ← r.eval σ
    op.apply a b

end Tree

/-- A token that spells a number in decimal. -/
structure Token.Spells (t : Token) (w : Word) : Prop where
  kind : t.kind = .integer
  nonempty : t.lexeme.toList ≠ []
  digits : ∀ d ∈ t.lexeme.toList, Text.isDigit d = true
  value : Decimal.ofDigits t.lexeme.toList = w.toNat

namespace Tree

/-- The tokens that a tree may be written with, where operators have to bind at least as tightly as
the precedence. -/
inductive Written : Precedence → Tree → List Token → Prop where
  | number {t : Token} {w : Word} : t.Spells w → Written .unary (.number w) [t]
  | true {t : Token} : t.kind = .keyword .true → Written .unary (.truth true) [t]
  | false {t : Token} : t.kind = .keyword .false → Written .unary (.truth false) [t]
  | name {t : Token} : t.kind = .identifier → Written .unary (.name t.lexeme) [t]
  | unary {op : UnaryOp} {t : Token} {e : Tree} {ts : List Token} :
    t.kind = op.kind → Written .unary e ts → Written .unary (.unary op e) (t :: ts)
  | binary {op : BinaryOp} {t : Token} {l r : Tree} {ls rs : List Token} :
    Written op.precedence l ls → t.kind = op.kind → Written op.precedence.next r rs →
      Written op.precedence (.binary op l r) (ls ++ t :: rs)
  | parentheses {o c : Token} {e : Tree} {ts : List Token} :
    o.kind = .symbol .leftParen → Written .or e ts → c.kind = .symbol .rightParen →
      Written .unary e (o :: ts ++ [c])
  | looser {p q : Precedence} {e : Tree} {ts : List Token} :
    p.rank ≤ q.rank → Written q e ts → Written p e ts

end Tree

end WordScript
