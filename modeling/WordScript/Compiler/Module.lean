/-
Modules.

The statements at the top level of all modules make up the entry chunk, in the
order in which the modules are added.  A module may use what the modules before
it have declared.

* `Statement.read` — a statement of any kind;
* `productions` — the productions of the grammar for an amount of fuel;
* `Compiler.addModule`, `Compiler.build` — the compiler from outside.
-/
import WordScript.Compiler.Statement
import WordScript.Compiler.Structure

namespace WordScript

namespace Statement

open CompileM

/-- Stops inside functions and blocks. -/
def requireTopLevel (construct : String) : CompileM Unit := do
  if !(← ask Compiler.isTopLevel) then
    fail (← current) (.invalidPosition construct "is only allowed at the top level")

/-- Reads a statement on a line of the given depth. -/
def read (g : Productions) (depth : Nat) : CompileM Unit := do
  match ← kind with
  | .keyword .var => variable_ g
  | .keyword .if_ => conditional g depth
  | .keyword .while_ => whileLoop g depth
  | .keyword .loop => loop g depth
  | .keyword .break_ => break_
  | .keyword .continue_ => continue_
  | .keyword .return_ => return_ g
  | .keyword .yield => yield g
  | .keyword .free => free g
  | .keyword .function =>
    requireTopLevel "function declaration"
    Function.declaration g depth
  | .keyword .structure_ =>
    requireTopLevel "structure declaration"
    Structure.declaration g depth
  | .keyword .external =>
    requireTopLevel "external declaration"
    Function.external g
  | _ => expression g

end Statement

/-- The productions of the grammar.  Every recursive use spends a unit of fuel. -/
def productions : Nat → Productions
  | 0 =>
    { expression := fun _ => CompileM.failFuel
      operand := CompileM.failFuel
      statement := fun _ => CompileM.failFuel
      typeExpr := fun _ => CompileM.failFuel
      instantiate := fun _ _ _ => CompileM.failFuel }
  | fuel + 1 =>
    { expression := fun min c => Expression.read (productions fuel) min c
      operand := fun c => Expression.operand (productions fuel) c
      statement := fun depth c => Statement.read (productions fuel) depth c
      typeExpr := fun indirection c => TypeExpr.read (productions fuel) indirection c
      instantiate := fun template arguments token c =>
        Structure.instantiate (productions fuel) template arguments token c }

namespace Compiler

/-- The number of tokens of the longest module that is still read from. -/
def longest (c : Compiler) : Nat :=
  c.types.templates.foldl (fun n t => max n t.tokens.size) c.tokens.size

/-- Fuel that is enough for the module at hand.  Between two levels of instantiation every use of a
production lies behind a token more than the use around it. -/
def fuel (c : Compiler) : Nat :=
  (Structure.maxInstantiationDepth + 2) * (c.longest + 2)

/-- The compiler at the beginning of a module. -/
def atModule (c : Compiler) (name : String) (tokens : Array Token) : Compiler :=
  let position := (tokens.back?.map Token.position).getD ⟨0, 0⟩
  { c with tokens, cursor := 0, eof := ⟨.endOfFile, "", position, name⟩ }

/-- Reads the statements of a module. -/
def readModule : CompileM Unit := do
  let g := productions (← CompileM.ask fuel)
  Block.statements g 0 (← CompileM.budget)
  if !(← CompileM.ask atEnd) then CompileM.failExpected (← CompileM.current) "end of file"

/-- Compiles a module after those before it. -/
def addModule (c : Compiler) (name : String) (tokens : Array Token) :
    Except CompileError Compiler :=
  match readModule (c.atModule name tokens) with
  | .error e => .error e
  | .ok ((), c) => .ok c

/-- The program of the modules so far. -/
def build (c : Compiler) : Program :=
  let entry := { c.entry.code with code := c.entry.code.code.push (.ofOpcode .halt) }
  ⟨c.chunks.setIfInBounds 0 entry, 0, c.externals⟩

end Compiler

end WordScript
