/-
Scripts: statements over numbers and truth values.

A script is a statement or a sequence of them.  The body of a conditional or of a
loop is a script with a scope of its own: the variables that it declares are gone
after it, however it is left.  A script that is run ends in one of four ways, and
one that does not end has no outcome.

A script is written in lines.  A body stands in lines that are one deeper, or on the
line of the statement that owns it.  An `else` stands on the line on which its
conditional still is, or on a line of its own at the depth of the conditional; it
belongs to the innermost conditional that can take it.

* `Script.Runs` — what a script does;
* `Script.Written` — the ways to write it;
* `Script.Module` — the tokens of a module.
-/
import WordScript.Proofs.Lines

namespace WordScript

/-- A statement, or statements one after the other. -/
inductive Script where
  | skip
  | seq (s t : Script)
  | var (x : String) (e : Tree)
  | assign (x : String) (e : Tree)
  /-- a conditional without an `else` -/
  | when (e : Tree) (s : Script)
  | cond (e : Tree) (s t : Script)
  | while_ (e : Tree) (s : Script)
  | loop (s : Script)
  | break_
  | continue_
deriving Repr, DecidableEq

namespace Store

/-- The store with another value for the newest variable of a name. -/
def set (x : String) (v : Value) : Store → Store
  | [] => []
  | (y, w) :: older => if x == y then (y, v) :: older else (y, w) :: set x v older

/-- The oldest `n` variables. -/
def keep (n : Nat) (σ : Store) : Store :=
  σ.drop (σ.length - n)

end Store

/-- How a script ends. -/
inductive Outcome where
  | next (σ : Store)
  | break_ (σ : Store)
  | continue_ (σ : Store)
  /-- by a division by zero -/
  | fault
deriving Repr, DecidableEq

namespace Outcome

/-- The outcome outside a scope that was entered with `n` variables. -/
def leave (n : Nat) : Outcome → Outcome
  | next σ => next (σ.keep n)
  | break_ σ => break_ (σ.keep n)
  | continue_ σ => continue_ (σ.keep n)
  | fault => fault

/-- Whether the statement after it is run. -/
def goesOn : Outcome → Bool
  | next _ => true
  | _ => false

/-- The store with which a loop begins anew after its body. -/
def again? : Outcome → Option Store
  | next σ | continue_ σ => some σ
  | _ => none

/-- The outcome of a loop that ends after its body. -/
def exit? : Outcome → Option Outcome
  | break_ σ => some (next σ)
  | fault => some fault
  | _ => none

end Outcome

namespace Script

/-- The expression that a statement begins with. -/
def first? : Script → Option Tree
  | var _ e | assign _ e | when e _ | cond e _ _ | while_ e _ => some e
  | _ => none

/-- What a script does to the variables. -/
inductive Runs : Script → Store → Outcome → Prop where
  | skip {σ : Store} : Runs skip σ (.next σ)
  | seq {s t : Script} {σ σ₁ : Store} {o : Outcome} :
    Runs s σ (.next σ₁) → Runs t σ₁ o → Runs (seq s t) σ o
  | seqOut {s t : Script} {σ : Store} {o : Outcome} :
    Runs s σ o → o.goesOn = false → Runs (seq s t) σ o
  | fault {s : Script} {e : Tree} {σ : Store} :
    s.first? = some e → e.eval σ = .error .divisionByZero → Runs s σ .fault
  | var {x : String} {e : Tree} {σ : Store} {v : Value} :
    e.eval σ = .ok v → Runs (var x e) σ (.next ((x, v) :: σ))
  | assign {x : String} {e : Tree} {σ : Store} {v w : Value} :
    σ.lookup x = some w → e.eval σ = .ok v → Runs (assign x e) σ (.next (σ.set x v))
  | whenTrue {e : Tree} {s : Script} {σ : Store} {o : Outcome} :
    e.eval σ = .ok (.bool true) → Runs s σ o → Runs (when e s) σ (o.leave σ.length)
  | whenFalse {e : Tree} {s : Script} {σ : Store} :
    e.eval σ = .ok (.bool false) → Runs (when e s) σ (.next σ)
  | condTrue {e : Tree} {s t : Script} {σ : Store} {o : Outcome} :
    e.eval σ = .ok (.bool true) → Runs s σ o → Runs (cond e s t) σ (o.leave σ.length)
  | condFalse {e : Tree} {s t : Script} {σ : Store} {o : Outcome} :
    e.eval σ = .ok (.bool false) → Runs t σ o → Runs (cond e s t) σ (o.leave σ.length)
  | whileFalse {e : Tree} {s : Script} {σ : Store} :
    e.eval σ = .ok (.bool false) → Runs (while_ e s) σ (.next σ)
  | whileAgain {e : Tree} {s : Script} {σ σ₁ : Store} {o o' : Outcome} :
    e.eval σ = .ok (.bool true) → Runs s σ o → (o.leave σ.length).again? = some σ₁ →
      Runs (while_ e s) σ₁ o' → Runs (while_ e s) σ o'
  | whileExit {e : Tree} {s : Script} {σ : Store} {o o' : Outcome} :
    e.eval σ = .ok (.bool true) → Runs s σ o → (o.leave σ.length).exit? = some o' →
      Runs (while_ e s) σ o'
  | loopAgain {s : Script} {σ σ₁ : Store} {o o' : Outcome} :
    Runs s σ o → (o.leave σ.length).again? = some σ₁ → Runs (loop s) σ₁ o' → Runs (loop s) σ o'
  | loopExit {s : Script} {σ : Store} {o o' : Outcome} :
    Runs s σ o → (o.leave σ.length).exit? = some o' → Runs (loop s) σ o'
  | break_ {σ : Store} : Runs break_ σ (.break_ σ)
  | continue_ {σ : Store} : Runs continue_ σ (.continue_ σ)

end Script

/-- A token that spells a number in hexadecimal. -/
structure Token.SpellsHex (t : Token) (w : Word) : Prop where
  kind : t.kind = .integer
  digits : ∃ ds, t.lexeme.toList = '0' :: 'x' :: ds ∧ ds ≠ [] ∧
    (∀ d ∈ ds, Text.isHexDigit d = true) ∧ Literal.ofHexDigits ds = w.toNat

namespace Tree

/-- An expression of a single token. -/
inductive Atom : Tree → Token → Prop where
  | number {t : Token} {w : Word} : t.Spells w → Atom (.number w) t
  | hexadecimal {t : Token} {w : Word} : t.SpellsHex w → Atom (.number w) t
  | true {t : Token} : t.kind = .keyword .true → Atom (.truth true) t
  | false {t : Token} : t.kind = .keyword .false → Atom (.truth false) t
  | name {t : Token} : t.kind = .identifier → Atom (.name t.lexeme) t

/-- An expression with at most one operator. -/
inductive Plain : Tree → List Token → Prop where
  | atom {e : Tree} {t : Token} : Atom e t → Plain e [t]
  | binary {op : BinaryOp} {l r : Tree} {a t b : Token} :
    Atom l a → t.kind = op.kind → Atom r b → Plain (.binary op l r) [a, t, b]

end Tree

/-- Where a statement ends. -/
inductive Ending where
  /-- before an `else` on the same line -/
  | else_
  /-- with a line, and an `else` on the next line is not a part of it -/
  | line
  /-- with a line, and an `else` on the next line would be a part of it -/
  | open_
deriving Repr, DecidableEq

namespace Ending

/-- The tokens that end a statement without a body. -/
def Closes : Ending → List Token → Prop
  | else_, ts => ts = []
  | line, ts => ∃ t, t.kind = .statementTerminator ∧ ts = [t]
  | open_, _ => False

/-- The tokens between a statement and an `else` at its depth. -/
def Gap (depth : Nat) : Ending → List Token → Prop
  | else_, ts => ts = []
  | line, ts => IndentsOf depth ts
  | open_, _ => False

/-- The tokens before which a statement can end so. -/
def Before (depth : Nat) : Ending → List Token → Prop
  | else_, rest => headKind rest = .keyword .else_
  | line, rest => indents rest ≤ depth
  | open_, rest =>
    indents rest ≤ depth ∧
      ¬(indents rest = depth ∧ headKind (rest.drop depth) = .keyword .else_)

end Ending

namespace Script

/-- As what a script is written. -/
inductive Form where
  /-- as a statement on a line of a depth -/
  | statement (depth : Nat) (ending : Ending)
  /-- as the body of a statement on a line of a depth -/
  | body (depth : Nat) (ending : Ending)
  /-- as whole lines of a depth -/
  | lines (depth : Nat)
deriving Repr, DecidableEq

/-- The tokens that a script may be written with. -/
inductive Written : Form → Script → List Token → Prop where
  | skip {depth : Nat} : Written (.lines depth) skip []
  | seq {depth : Nat} {s t : Script} {ts us : List Token} :
    Written (.lines depth) s ts → Written (.lines depth) t us →
      Written (.lines depth) (seq s t) (ts ++ us)
  | line {depth : Nat} {ending : Ending} {s : Script} {is ts : List Token} :
    IndentsOf depth is → Written (.statement depth ending) s ts → ending ≠ .else_ →
      Written (.lines depth) s (is ++ ts)
  | block {depth : Nat} {s : Script} {t : Token} {ts : List Token} :
    t.kind = .statementTerminator → Written (.lines (depth + 1)) s ts → ts ≠ [] →
      Written (.body depth .line) s (t :: ts)
  | inline {depth : Nat} {ending : Ending} {s : Script} {ts : List Token} :
    Written (.statement depth ending) s ts → Written (.body depth ending) s ts
  | var {depth : Nat} {ending : Ending} {e : Tree} {v name eq : Token} {es ends : List Token} :
    v.kind = .keyword .var → name.kind = .identifier → eq.kind = .symbol .equal → e.Plain es →
      ending.Closes ends →
        Written (.statement depth ending) (var name.lexeme e) (v :: name :: eq :: (es ++ ends))
  | assign {depth : Nat} {ending : Ending} {e : Tree} {name eq : Token} {es ends : List Token} :
    name.kind = .identifier → eq.kind = .symbol .equal → e.Plain es → ending.Closes ends →
      Written (.statement depth ending) (assign name.lexeme e) (name :: eq :: (es ++ ends))
  | when {depth : Nat} {ending : Ending} {e : Tree} {s : Script} {i th : Token}
    {es ts : List Token} :
    i.kind = .keyword .if_ → e.Plain es → th.kind = .keyword .then_ →
      Written (.body depth ending) s ts → ending ≠ .else_ →
        Written (.statement depth .open_) (when e s) (i :: (es ++ th :: ts))
  | cond {depth : Nat} {first ending : Ending} {e : Tree} {s t : Script} {i th el : Token}
    {es ts gap us : List Token} :
    i.kind = .keyword .if_ → e.Plain es → th.kind = .keyword .then_ →
      Written (.body depth first) s ts → first.Gap depth gap → el.kind = .keyword .else_ →
        Written (.body depth ending) t us →
          Written (.statement depth ending) (cond e s t)
            (i :: (es ++ th :: (ts ++ (gap ++ el :: us))))
  | while_ {depth : Nat} {ending : Ending} {e : Tree} {s : Script} {w : Token}
    {es ts : List Token} :
    w.kind = .keyword .while_ → e.Plain es → Written (.body depth ending) s ts →
      Written (.statement depth ending) (while_ e s) (w :: (es ++ ts))
  | loop {depth : Nat} {ending : Ending} {s : Script} {l : Token} {ts : List Token} :
    l.kind = .keyword .loop → Written (.body depth ending) s ts →
      Written (.statement depth ending) (loop s) (l :: ts)
  | break_ {depth : Nat} {ending : Ending} {b : Token} {ends : List Token} :
    b.kind = .keyword .break_ → ending.Closes ends →
      Written (.statement depth ending) break_ (b :: ends)
  | continue_ {depth : Nat} {ending : Ending} {c : Token} {ends : List Token} :
    c.kind = .keyword .continue_ → ending.Closes ends →
      Written (.statement depth ending) continue_ (c :: ends)

/-- The tokens are a module of the script. -/
def Module (s : Script) (tokens : Array Token) : Prop :=
  ∃ ts eof, Written (.lines 0) s ts ∧ eof.kind = .endOfFile ∧ tokens.toList = ts ++ [eof]

end Script

end WordScript
