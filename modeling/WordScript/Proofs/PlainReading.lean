/-
Plain expressions are read as the trees they are written for, or not at all.

The compiler may refuse a script, so here names need not be declared.  A name that
stands for no variable can only begin a type, a call or a conversion, and what can
follow a plain expression begins none of these.

* `Expression.Stops` — what can follow a plain expression;
* `Tree.Plain.readsWhole` — reading a plain expression.
-/
import WordScript.Proofs.Scripts

namespace WordScript

namespace Expression

open CompileM

/-- A name before these tokens is a variable. -/
structure Bare (rest : List Token) : Prop where
  paren : headKind rest ≠ .symbol .leftParen
  brace : headKind rest ≠ .symbol .leftBrace
  bracket : headKind rest ≠ .symbol .leftBracket
  span : ¬(headKind rest = .symbol .less ∧ headKind (rest.drop 1) = .integer ∧
    headKind (rest.drop 2) = .symbol .greater)

/-- A plain expression ends before these tokens. -/
structure Stops (rest : List Token) : Prop where
  dot : headKind rest ≠ .symbol .dot
  paren : headKind rest ≠ .symbol .leftParen
  brace : headKind rest ≠ .symbol .leftBrace
  bracket : headKind rest ≠ .symbol .leftBracket
  operator : Precedence.of? (headKind rest) = none

namespace Stops

variable {rest : List Token} {t : Token}

theorem follows (h : Stops rest) (p : Precedence) : Follows p rest :=
  ⟨h.dot, h.bracket, fun q hq => by rw [h.operator] at hq; cases hq⟩

theorem bare (h : Stops rest) : Bare rest := by
  refine ⟨h.paren, h.brace, h.bracket, ?_⟩
  rintro ⟨hless, -, -⟩
  have hnone := h.operator
  rw [hless] at hnone
  cases hnone

/-- The tokens of statements that are not part of expressions. -/
theorem of_kind (h : t.kind = .statementTerminator ∨ t.kind = .identifier ∨
    ∃ k, t.kind = .keyword k ∧ k ≠ .and ∧ k ≠ .or) : Stops (t :: rest) := by
  have hkind : ∀ k, t.kind = k → headKind (t :: rest) = k := fun k hk => hk
  obtain h | h | ⟨k, h, hand, hor⟩ := h
  · constructor <;> simp [hkind _ h, Precedence.of?]
  · constructor <;> simp [hkind _ h, Precedence.of?]
  · constructor <;> simp [hkind _ h]
    cases k <;> simp_all [Precedence.of?]

end Stops

variable {src : Source} {d : Draft} {g : Productions} {t : Token} {rest : List Token}

theorem result_suffixes {k : Nat} (hahead : src.ahead d.cursor = rest) (hbare : Bare rest)
    (ty : Ty) :
    result (TypeExpr.suffixes false (k + 1) ty) (src.compiler d) = some (ty, src.compiler d) := by
  subst hahead
  rw [TypeExpr.suffixes, result_bind, Draft.result_kind, Option.bind_some]
  dsimp only
  split
  · next hless =>
    have hspan := hbare.span
    rw [hless, Source.ahead, List.drop_drop, List.drop_drop] at hspan
    simp only [true_and, not_and] at hspan
    simp only [result_bind, Draft.result_kindAhead, Option.bind_some, result_ite]
    rw [if_neg]
    · rfl
    · simp only [Bool.and_eq_true, beq_iff_eq, not_and]
      exact hspan
  · next hbracket => exact absurd hbracket hbare.bracket
  · rfl
  · rfl
  · rfl

/-- A name that stands for no variable is refused. -/
theorem result_name_undeclared (hscopes : d.scopes ≠ []) (hahead : src.ahead d.cursor = t :: rest)
    (ht : t.kind = .identifier) (hslot : slot? t.lexeme d.scopes.flatten = none)
    (hbare : Bare rest) : result (name g) (src.compiler d) = none := by
  have hnext : src.ahead (d.cursor + 1) = rest := Source.ahead_succ hahead
  have hparen : (headKind rest == .symbol .leftParen) = false :=
    beq_eq_false_iff_ne.mpr hbare.paren
  simp only [name, result_bind, Draft.result_current hahead, Option.bind_some,
    Draft.result_lookup hscopes, hslot, Option.map_none, Draft.result_kindAhead, hnext, hparen,
    Bool.false_eq_true, if_false]
  have hisType : (src.compiler d).isTypeName t.lexeme = (Ty.primitive? t.lexeme).isSome := by
    rw [Compiler.isTypeName, Compiler.typeExists]
    exact Bool.or_false _
  rw [result_ask, Option.bind_some, hisType]
  cases hprimitive : Ty.primitive? t.lexeme with
  | none => rfl
  | some ty =>
    have hread : result (TypeExpr.read g false) (src.compiler d) =
        some (ty, src.compiler { d with cursor := d.cursor + 1 }) := by
      have hnamed : result (TypeExpr.named g t) (src.compiler { d with cursor := d.cursor + 1 }) =
          some (ty, src.compiler { d with cursor := d.cursor + 1 }) := by
        rw [TypeExpr.named, result_bind, result_ask, Option.bind_some]
        simp only [hprimitive]
        rfl
      rw [TypeExpr.read, result_bind, identifier, Draft.result_consume hahead, if_pos ht]
      simp only [Option.bind_some, result_bind, hnamed, Draft.result_budget]
      exact result_suffixes (d := { d with cursor := d.cursor + 1 }) hnext hbare ty
    have hbrace : (headKind rest == .symbol .leftBrace) = false :=
      beq_eq_false_iff_ne.mpr hbare.brace
    simp only [Option.isSome_some, if_true, typeLiteral, result_bind, Draft.result_current hahead,
      Option.bind_some, hread, Draft.result_check, hnext, hbrace, Bool.false_eq_true, if_false]
    -- the types of the language are neither spans nor lists
    unfold Ty.primitive? at hprimitive
    split at hprimitive <;> cases hprimitive <;> rfl

theorem result_loaded_undeclared (hscopes : d.scopes ≠ [])
    (hahead : src.ahead d.cursor = t :: rest) (ht : t.kind = .identifier)
    (hslot : slot? t.lexeme d.scopes.flatten = none) (hbare : Bare rest) :
    result (loaded g) (src.compiler d) = none := by
  have hname := result_name_undeclared (g := g) hscopes hahead ht hslot hbare
  simp only [loaded, result_bind, Draft.result_current hahead, Option.bind_some, operand,
    Draft.result_kind, hahead, headKind, ht, primary, hname]
  rfl

end Expression

namespace Tree

open CompileM Expression

variable {src : Source} {d : Draft} {g : Productions} {e l r : Tree} {t : Token}
  {rest es : List Token}

theorem integer?_of_spellsHex {w : Word} (h : t.SpellsHex w) :
    Literal.integer? t.lexeme = some w := by
  obtain ⟨-, ds, htext, hne, hdigits, hvalue⟩ := h
  have hempty : ds.isEmpty = false := by simpa [List.isEmpty_eq_false_iff] using hne
  have hall : ds.all Text.isHexDigit = true := List.all_eq_true.mpr hdigits
  have hlt : w.toNat < 4294967296 := w.toNat_lt
  simp only [Literal.integer?, htext, hempty, hall, hvalue, if_pos hlt, UInt32.ofNat_toNat]
  rfl

/-- A token that is an expression is loaded as that, whether its name is declared or not. -/
theorem Atom.loaded (h : Atom e t) (hscopes : d.scopes ≠ [])
    (hahead : src.ahead d.cursor = t :: rest) (hfollows : Follows .unary rest)
    (hbare : Bare rest) :
    result (loaded g) (src.compiler d) = (e.emit? d.scopes.flatten d.code).map fun r =>
      (r.1.ty, src.compiler { d with code := r.2, cursor := d.cursor + 1 }) := by
  cases h with
  | number ht => exact result_loaded_number hahead ht hfollows _
  | hexadecimal ht =>
    exact result_loaded_integer hahead ht.kind (integer?_of_spellsHex ht) hfollows _
  | true ht => exact result_loaded_truth (b := .true) hahead ht hfollows _
  | false ht => exact result_loaded_truth (b := .false) hahead ht hfollows _
  | name ht =>
    cases hslot : slot? t.lexeme d.scopes.flatten with
    | none =>
      rw [result_loaded_undeclared hscopes hahead ht hslot hbare, emit?, hslot]
      rfl
    | some s =>
      obtain ⟨ty, k⟩ := s
      rw [result_loaded_name hscopes hahead ht hslot hfollows, emit?, hslot, Option.bind_some]
      by_cases hk : k < 65536
      · rw [if_pos hk, if_pos hk]
        rfl
      · rw [if_neg hk, if_neg hk]
        rfl

/-- An atom before the end of its expression. -/
theorem Atom.read (h : Atom e t) (hscopes : d.scopes ≠ []) (hahead : src.ahead d.cursor = t :: rest)
    (hstops : Stops rest) (min : Precedence) :
    result (Expression.read g min) (src.compiler d) =
      (e.emit? d.scopes.flatten d.code).map fun r =>
        (r.1.ty, src.compiler { d with code := r.2, cursor := d.cursor + 1 }) := by
  rw [read_eq, result_bind, h.loaded hscopes hahead (hstops.follows _) hstops.bare]
  cases e.emit? d.scopes.flatten d.code with
  | none => rfl
  | some r =>
    simp only [Option.map_some, Option.bind_some, result_bind, Draft.result_budget]
    refine result_operators_of_lt (Nat.succ_pos _) fun p hp => ?_
    rw [show src.ahead (d.cursor + 1) = rest from Source.ahead_succ hahead, hstops.operator] at hp
    cases hp

/-- What follows the first operand of an operator. -/
theorem bare_operator {op : BinaryOp} (ht : t.kind = op.kind) (hstops : Stops rest) (b : Token) :
    Bare (t :: b :: rest) := by
  have hgreater : headKind rest ≠ .symbol .greater := by
    intro hgreater
    have hnone := hstops.operator
    rw [hgreater] at hnone
    cases hnone
  refine ⟨?_, ?_, ?_, fun hspan => hgreater hspan.2.2⟩
  all_goals
    rw [headKind, ht]
    cases op <;> simp [BinaryOp.kind]

/-- Reading a plain expression emits its code, or fails where there is none. -/
theorem Plain.readsWhole (h : Plain e es) {n : Nat} (hn : 2 ≤ n) (hscopes : d.scopes ≠ [])
    (hahead : src.ahead d.cursor = es ++ rest) (hstops : Stops rest) :
    Statement.ReadsWhole src (productions n) d e es.length := by
  obtain ⟨n, rfl, hexpression⟩ := productions_succ (n := n) (by omega)
  rw [Statement.ReadsWhole, hexpression]
  cases h with
  | atom h => exact h.read hscopes hahead hstops .or
  | @binary op l r a t b hl ht hr =>
    have hop : src.ahead (d.cursor + 1) = t :: b :: rest := Source.ahead_succ hahead
    have hright : src.ahead (d.cursor + 1 + 1) = b :: rest := Source.ahead_succ hop
    -- the left operand ends at the operator, the right one at what follows the expression
    have hfollows : Follows .unary (t :: b :: rest) := by
      refine ⟨?_, ?_, fun q hq => Nat.le_of_lt (rank_of?_lt hq)⟩
      all_goals
        rw [headKind, ht]
        cases op <;> simp [BinaryOp.kind]
    rw [read_eq, result_bind, hl.loaded hscopes hahead hfollows (bare_operator ht hstops b), emit?]
    cases l.emit? d.scopes.flatten d.code with
    | none => rfl
    | some x =>
      obtain ⟨m, rfl, hexpression'⟩ := productions_succ (n := n) (by omega)
      simp only [Option.map_some, Option.bind_some, result_bind, Draft.result_budget, hop,
        List.length_cons]
      have hmin : ¬op.precedence.rank < Precedence.or.rank := Nat.not_lt.mpr (Nat.zero_le _)
      rw [operators, result_bind, Draft.result_kind]
      simp only [Option.bind_some, hop, headKind, ht, of?_kind, if_neg hmin, result_bind,
        Draft.result_advance (d := { d with code := x.2, cursor := d.cursor + 1 }) hop,
        hexpression']
      rw [hr.read (d := { d with code := x.2, cursor := d.cursor + 1 + 1 }) hscopes hright hstops]
      cases r.emit? d.scopes.flatten x.2 with
      | none => rfl
      | some y =>
        simp only [Option.map_some, Option.bind_some]
        rw [result_binary src _ ht]
        cases op.type? x.1 y.1 with
        | none => rfl
        | some ty =>
          simp only [Option.map_some, Option.bind_some]
          refine result_operators_of_lt (Nat.succ_pos _) fun p hp => ?_
          rw [show src.ahead (d.cursor + 1 + 1 + 1) = rest from Source.ahead_succ hright,
            hstops.operator] at hp
          cases hp

end Tree

end WordScript
