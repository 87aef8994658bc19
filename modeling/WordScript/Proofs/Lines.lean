/-
Lines of statements.

A line is a number of indents, the tokens of a statement, and a terminator.  The
lines of a block are read one after the other, up to a line that is less deep or to
the end of the file.

* `result_statements_line` — the next line of a block;
* `result_statements_end` — the end of a block;
* `result_variable_` — a declaration.
-/
import WordScript.Proofs.ExpressionReading

namespace WordScript

/-- The number of indents at the front. -/
def indents : List Token → Nat
  | [] => 0
  | t :: ts => if t.kind = .indent then indents ts + 1 else 0

/-- The tokens are so many indents. -/
def IndentsOf (depth : Nat) (ts : List Token) : Prop :=
  ts.length = depth ∧ ∀ t ∈ ts, t.kind = .indent

theorem IndentsOf.indents {depth : Nat} {is : List Token} (h : IndentsOf depth is) {t : Token}
    (ht : t.kind ≠ .indent) (ts : List Token) : indents (is ++ t :: ts) = depth := by
  obtain ⟨rfl, hall⟩ := h
  induction is with
  | nil => rw [List.nil_append, WordScript.indents, if_neg ht]; rfl
  | cons i is ih =>
    rw [List.cons_append, WordScript.indents, if_pos (hall i List.mem_cons_self),
      ih fun j hj => hall j (List.mem_cons_of_mem i hj)]
    rfl

theorem indentsOf_nil : IndentsOf 0 [] :=
  ⟨rfl, fun _ h => (nomatch h)⟩

namespace Source

theorem indentsFrom_eq (src : Source) (k : Nat) :
    Compiler.indentsFrom src.tokens k = indents (src.ahead k) := by
  induction hn : src.tokens.size - k generalizing k with
  | zero =>
    have hnil : src.ahead k = [] := by
      rw [← List.length_eq_zero_iff, length_ahead, hn]
    rw [Compiler.indentsFrom, dif_neg (by omega), hnil]
    rfl
  | succ n ih =>
    have hlt : k < src.tokens.size := by omega
    have hahead : src.ahead k = src.tokens[k] :: src.ahead (k + 1) := by
      rw [ahead, List.drop_eq_getElem_cons (by simpa using hlt)]
      rfl
    rw [Compiler.indentsFrom, dif_pos hlt, hahead, indents, ih (k + 1) (by omega)]

theorem indentation_compiler (src : Source) (d : Draft) :
    (src.compiler d).indentation = indents (src.ahead d.cursor) :=
  indentsFrom_eq src d.cursor

theorem atEnd_compiler (src : Source) (d : Draft) :
    (src.compiler d).atEnd =
      (headKind (src.ahead (d.cursor + indents (src.ahead d.cursor))) == .endOfFile) := by
  rw [Compiler.atEnd, indentation_compiler, kindAt_compiler]
  rfl

end Source

namespace Block

open CompileM

variable {src : Source} {d : Draft} {g : Productions} {depth k : Nat} {t : Token}
  {is ts : List Token}

/-- The next line of a block. -/
theorem result_statements_line (his : IndentsOf depth is) (h : src.ahead d.cursor = is ++ t :: ts)
    (hindent : t.kind ≠ .indent) (heof : t.kind ≠ .endOfFile) :
    result (statements g depth (k + 1)) (src.compiler d) =
      (result (g.statement depth) (src.compiler { d with cursor := d.cursor + depth })).bind
        fun r => result (statements g depth k) r.2 := by
  have hlevel : indents (src.ahead d.cursor) = depth := by rw [h, his.indents hindent]
  have hend : (src.compiler d).atEnd = false := by
    rw [Source.atEnd_compiler, hlevel, ← his.1, Source.ahead_add h]
    exact beq_eq_false_iff_ne.mpr heof
  rw [statements]
  simp only [result_bind, result_ask, Option.bind_some, Source.indentation_compiler, hlevel, hend,
    Bool.false_or, decide_eq_true_eq, Nat.lt_irrefl, if_false, Draft.result_cursor,
    Draft.result_moveTo]

/-- A block ends before a line that is less deep, and at the end of the file. -/
theorem result_statements_end
    (h : indents (src.ahead d.cursor) < depth ∨ headKind (src.ahead d.cursor) = .endOfFile) :
    result (statements g depth (k + 1)) (src.compiler d) = some ((), src.compiler d) := by
  have hstop : ((src.compiler d).atEnd || decide ((src.compiler d).indentation < depth)) = true := by
    obtain hlt | heof := h
    · rw [Source.indentation_compiler, decide_eq_true hlt, Bool.or_true]
    · have hlevel : indents (src.ahead d.cursor) = 0 := by
        cases hahead : src.ahead d.cursor with
        | nil => rfl
        | cons t ts =>
          rw [hahead, headKind] at heof
          rw [indents, heof]
          rfl
      rw [Source.atEnd_compiler, hlevel, Nat.add_zero, heof]
      rfl
  rw [statements]
  simp only [result_bind, result_ask, Option.bind_some, hstop, if_true]
  rfl

end Block

namespace Statement

open CompileM

variable {src : Source} {d : Draft} {g : Productions} {Γ : Context} {outer : Scopes} {e : Tree}
  {rest es : List Token}

/-- The whole of an expression is read as the tree. -/
def ReadsWhole (src : Source) (g : Productions) (d : Draft) (e : Tree) (len : Nat) : Prop :=
  result (g.expression .or) (src.compiler d) = (e.emit? d.scopes.flatten d.code).map fun r =>
    (r.1.ty, src.compiler { d with code := r.2, cursor := d.cursor + len })

theorem result_declare (hscopes : d.scopes = Γ :: outer) (name : Token) (ty : Scalar) :
    result (declare name ty.ty) (src.compiler d) =
      if Γ.lookup name.lexeme = none then
        some (⟨ty.ty, d.scopes.flatten.length, true⟩,
          src.compiler { d with scopes := ((name.lexeme, ty) :: Γ) :: outer })
      else none := by
  obtain ⟨scopes, code, loops, cursor⟩ := d
  obtain rfl : scopes = Γ :: outer := hscopes
  rw [declare, result_bind, Draft.result_wordsOf, Option.bind_some, result_bind, result_ask,
    Option.bind_some]
  have hdeclare : (src.compiler ⟨Γ :: outer, code, loops, cursor⟩).scopes.declareVariable
      (src.compiler ⟨Γ :: outer, code, loops, cursor⟩).scope name.lexeme ty.ty 1 = _ :=
    Scopes.declareVariable_tree name.lexeme ty Γ outer
  simp only [hdeclare]
  by_cases hnew : Γ.lookup name.lexeme = none
  · simp only [if_pos hnew]
    rfl
  · simp only [if_neg hnew]
    rfl

theorem ty_ne_void (ty : Scalar) : ty.ty ≠ .void := by
  cases ty <;> simp [Scalar.ty]

/-- Statements at a place end with so many tokens. -/
def EndsAt (src : Source) (at_ len : Nat) : Prop :=
  ∀ d : Draft, d.cursor = at_ →
    result endStatement (src.compiler d) =
      some ((), src.compiler { d with cursor := at_ + len })

theorem endsAt_terminator {t : Token} {k : Nat} (h : src.ahead k = t :: rest)
    (ht : t.kind = .statementTerminator) : EndsAt src k 1 := by
  rintro d rfl
  exact Draft.result_endStatement h ht

/-- A declaration: the code of the value, and a new variable. -/
theorem result_variable_ {v name eq : Token} {len k : Nat} (hscopes : d.scopes = Γ :: outer)
    (h : src.ahead d.cursor = v :: name :: eq :: rest)
    (hname : name.kind = .identifier) (heq : eq.kind = .symbol .equal)
    (hread : ReadsWhole src g { d with cursor := d.cursor + 3 } e len)
    (hend : EndsAt src (d.cursor + 3 + len) k) :
    result (variable_ g) (src.compiler d) = (e.emit? d.scopes.flatten d.code).bind fun r =>
      if Γ.lookup name.lexeme = none then
        some ((), src.compiler { d with
          scopes := ((name.lexeme, r.1) :: Γ) :: outer
          code := r.2
          cursor := d.cursor + 3 + len + k })
      else none := by
  have h₁ := Source.ahead_succ h
  have h₂ := Source.ahead_succ h₁
  have hvalue : ∃ value, result current (src.compiler { d with cursor := d.cursor + 3 }) =
      some (value, src.compiler { d with cursor := d.cursor + 3 }) := ⟨_, rfl⟩
  obtain ⟨value, hvalue⟩ := hvalue
  simp only [variable_, result_bind, Draft.result_advance h, Option.bind_some, identifier]
  rw [Draft.result_consume (d := { d with cursor := d.cursor + 1 }) h₁, if_pos hname]
  simp only [Option.bind_some]
  rw [Draft.result_consume (d := { d with cursor := d.cursor + 1 + 1 }) h₂, if_pos heq]
  simp only [Option.bind_some]
  rw [hvalue]
  simp only [Option.bind_some]
  rw [show result (g.expression .or) _ = _ from hread]
  cases e.emit? d.scopes.flatten d.code with
  | none => rfl
  | some r =>
    simp only [Option.map_some, Option.bind_some, if_neg (ty_ne_void r.1), result_bind]
    rw [result_declare (d := { d with code := r.2, cursor := d.cursor + 3 + len }) hscopes]
    by_cases hnew : Γ.lookup name.lexeme = none
    · simp only [if_pos hnew, Option.bind_some]
      exact hend _ rfl
    · simp only [if_neg hnew]
      rfl

theorem result_read_var (h : headKind (src.ahead d.cursor) = .keyword .var) (depth : Nat) :
    result (read g depth) (src.compiler d) = result (variable_ g) (src.compiler d) := by
  rw [read, result_bind, Draft.result_kind, h]
  rfl

end Statement

/-- The draft before the first statement. -/
def Draft.start : Draft :=
  ⟨[[]], ⟨Compiler.entryName, #[], #[]⟩, [], 0⟩

/-- The module of some tokens. -/
def Source.ofTokens (name : String) (tokens : Array Token) : Source :=
  ⟨tokens, ⟨.endOfFile, "", (tokens.back?.map Token.position).getD ⟨0, 0⟩, name⟩⟩

namespace Compiler

open CompileM

variable {name : String} {tokens : Array Token} {c : Compiler}

/-- The statements of a module have fuel for every token. -/
theorem result_readModule (src : Source) :
    result readModule (src.compiler .start) =
      (result (Block.statements (productions (34 * (src.tokens.size + 2))) 0 (src.tokens.size + 1))
        (src.compiler .start)).bind fun r => if r.2.atEnd then some ((), r.2) else none := by
  have hlength : (src.ahead 0).length = src.tokens.size := Source.length_ahead src 0
  have hfuel : (src.compiler .start).fuel = 34 * (src.tokens.size + 2) := rfl
  simp only [readModule, result_bind, result_ask, Option.bind_some, hfuel, Draft.result_budget]
  rw [show (src.ahead Draft.start.cursor).length = src.tokens.size from hlength]
  cases result (Block.statements (productions (34 * (src.tokens.size + 2))) 0
      (src.tokens.size + 1)) (src.compiler .start) with
  | none => rfl
  | some r =>
    obtain ⟨⟨⟩, c⟩ := r
    simp only [Option.bind_some]
    cases c.atEnd <;> rfl

/-- The first module is compiled to where its statements lead. -/
theorem addModule_eq_ok_iff :
    Compiler.start.addModule name tokens = .ok c ↔
      c.atEnd = true ∧
      result (Block.statements (productions (34 * (tokens.size + 2))) 0 (tokens.size + 1))
        ((Source.ofTokens name tokens).compiler .start) = some ((), c) := by
  have hread := result_readModule (.ofTokens name tokens)
  have hstart : Compiler.start.atModule name tokens = (Source.ofTokens name tokens).compiler .start :=
    rfl
  rw [addModule, hstart]
  constructor
  · intro h
    split at h
    · cases h
    · next c' hok =>
      cases h
      rw [result_eq_some.mpr hok] at hread
      obtain ⟨⟨⟨⟩, c₁⟩, hstatements, hend⟩ := Option.bind_eq_some_iff.mp hread.symm
      split at hend
      · next hatEnd =>
        cases hend
        exact ⟨hatEnd, hstatements⟩
      · cases hend
  · rintro ⟨hend, hstatements⟩
    rw [show (Source.ofTokens name tokens).tokens = tokens from rfl, hstatements, Option.bind_some,
      if_pos hend] at hread
    rw [result_eq_some.mp hread]

end Compiler

end WordScript
