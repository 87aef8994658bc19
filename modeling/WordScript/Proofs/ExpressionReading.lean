/-
Expressions are read as the trees they are written for.

The compiler has no trees: it emits the code of an operand as soon as it has read
it, and keeps on its own stack which operators are still open.  `Tree.emit?` is the
code of a tree, operands first.  Reading any tokens that a tree may be written with
emits that code, and goes on with the operators after them.

* `Tree.emit?` — the type and the code of a tree;
* `Tree.Written.read` — reading the tokens of a tree, with any operators behind them;
* `Tree.Written.expression` — reading a whole expression.
-/
import WordScript.Proofs.Drafts

namespace WordScript

/-- The operation of an operator. -/
def UnaryOp.opcode : UnaryOp → Opcode
  | negate => .negateInt
  | complement => .not

/-- The instruction of an operator. -/
def BinaryOp.instruction : BinaryOp → Instruction
  | or => .ofOpcode .or
  | and => .ofOpcode .and
  | equal => .ofBytes .equal 1 0 0
  | notEqual => .ofBytes .notEqual 1 0 0
  | less => .ofOpcode .lessInt
  | lessEqual => .ofOpcode .lessEqualInt
  | greater => .ofOpcode .greaterInt
  | greaterEqual => .ofOpcode .greaterEqualInt
  | add => .ofOpcode .addInt
  | subtract => .ofOpcode .subtractInt
  | multiply => .ofOpcode .multiplyInt
  | divide => .ofOpcode .divideInt
  | remainder => .ofOpcode .moduloInt

/-- The type of a tree and a chunk with its code added, if the tree has a type and its operands fit
into instructions. -/
def Tree.emit? (Γ : Context) : Tree → Chunk → Option (Scalar × Chunk)
  | number w, c => (c.load? w).map fun c => (.int, c)
  | truth b, c => some (.bool, c.push (.ofImmediate .pushImmediate (if b then 1 else 0)))
  | name x, c =>
    (slot? x Γ).bind fun e =>
      if e.2 < 65536 then some (e.1, c.push (.ofByteShort .loadGlobal 1 (UInt16.ofNat e.2)))
      else none
  | unary op e, c =>
    (e.emit? Γ c).bind fun r =>
      if r.1 = op.scalar then some (r.1, r.2.push (.ofOpcode op.opcode)) else none
  | binary op l r, c =>
    (l.emit? Γ c).bind fun a => (r.emit? Γ a.2).bind fun b =>
      (op.type? a.1 b.1).map fun ty => (ty, b.2.push op.instruction)

namespace Expression

open CompileM

/-- Reads an operand and puts its value on the stack. -/
def loaded (g : Productions) : CompileM Ty := do
  let token ← current
  let first ← operand g
  load first token

/-- An expression is a loaded operand and the operators behind it. -/
theorem read_eq (g : Productions) (min : Precedence) :
    read g min = loaded g >>= fun left => budget >>= fun k => operators g min k left := by
  simp only [read, loaded, continue_, bind_assoc]

variable {src : Source} {d : Draft} {g : Productions}

/-- An operator ends the expression that binds more tightly. -/
theorem result_operators_of_lt {min : Precedence} {k : Nat} {ty : Ty} (hk : 0 < k)
    (hlt : ∀ p, Precedence.of? (headKind (src.ahead d.cursor)) = some p → p.rank < min.rank) :
    result (operators g min k ty) (src.compiler d) = some (ty, src.compiler d) := by
  obtain ⟨k, rfl⟩ := Nat.exists_eq_succ_of_ne_zero (Nat.ne_of_gt hk)
  rw [operators, result_bind, Draft.result_kind, Option.bind_some]
  cases hp : Precedence.of? (headKind (src.ahead d.cursor)) with
  | none => rfl
  | some p =>
    simp only [if_pos (hlt p hp)]
    rfl

/-- The operators of trees do what their instructions do. -/
theorem result_binary (src : Source) (d : Draft) {op : BinaryOp} {t : Token} (ht : t.kind = op.kind)
    (a b : Scalar) :
    result (binary t a.ty b.ty) (src.compiler d) =
      (op.type? a b).map fun ty =>
        (ty.ty, src.compiler { d with code := d.code.push op.instruction }) := by
  cases op <;> cases a <;> cases b <;>
    simp only [binary, calculation, equality, ht, BinaryOp.kind] <;> rfl

/-- Tokens before which an expression of operators that bind at least as tightly as `p` can end. -/
structure Follows (p : Precedence) (rest : List Token) : Prop where
  dot : headKind rest ≠ .symbol .dot
  bracket : headKind rest ≠ .symbol .leftBracket
  operator : ∀ q, Precedence.of? (headKind rest) = some q → q.rank ≤ p.rank

theorem Follows.mono {p q : Precedence} {rest : List Token} (h : Follows p rest)
    (hpq : p.rank ≤ q.rank) : Follows q rest :=
  ⟨h.dot, h.bracket, fun o ho => Nat.le_trans (h.operator o ho) hpq⟩

/-- No operator binds as tightly as the unary ones. -/
theorem rank_of?_lt {k : TokenKind} {p : Precedence} (h : Precedence.of? k = some p) :
    p.rank < Precedence.unary.rank := by
  unfold Precedence.of? at h
  split at h <;> cases h <;> decide

theorem of?_kind (op : BinaryOp) : Precedence.of? op.kind = some op.precedence := by
  cases op <;> rfl

theorem rank_next (op : BinaryOp) : op.precedence.next.rank = op.precedence.rank + 1 := by
  cases op <;> rfl

theorem integer?_of_spells {t : Token} {w : Word} (h : t.Spells w) :
    Literal.integer? t.lexeme = some w := by
  have hw : w.toNat ≤ 4294967295 := Nat.le_of_lt_succ (by simpa using w.toNat_lt)
  have hnatural : Literal.natural? 4294967295 t.lexeme = some w.toNat := by
    have hempty : t.lexeme.toList.isEmpty = false := by
      simpa [List.isEmpty_eq_false_iff] using h.nonempty
    have hall : t.lexeme.toList.all Text.isDigit = true := List.all_eq_true.mpr h.digits
    simp only [Literal.natural?, hempty, hall, h.value, if_pos hw]
    rfl
  rw [Literal.integer?]
  split
  · next ds htext =>
    have hx : Text.isDigit 'x' = true := h.digits 'x' (by rw [htext]; simp)
    exact absurd hx (by decide)
  · rw [hnatural, Option.map_some, UInt32.ofNat_toNat]

section Operands

variable {t : Token} {ts rest : List Token}

theorem result_load_place (src : Source) (d : Draft) (ty : Scalar) (k : Nat) (token : Token) :
    result (load (.place ⟨ty.ty, .global, k⟩) token) (src.compiler d) =
      if k < 65536 then
        some (ty.ty, src.compiler { d with
          code := d.code.push (.ofByteShort .loadGlobal 1 (UInt16.ofNat k)) })
      else none := by
  have hbyte : (1 : Nat) < 256 := by decide
  simp only [load, result_bind, Draft.result_wordsOf, Option.bind_some, Draft.result_byte,
    if_pos hbyte, Draft.result_short]
  by_cases h : k < 65536
  · simp only [if_pos h]
    rfl
  · simp only [if_neg h]
    rfl

/-- An operand without accessors. -/
theorem result_accessors (hdot : headKind (src.ahead d.cursor) ≠ .symbol .dot)
    (hbracket : headKind (src.ahead d.cursor) ≠ .symbol .leftBracket) (o : Operand) (k : Nat) :
    result (accessors g (k + 1) o) (src.compiler d) = some (o, src.compiler d) := by
  rw [accessors, result_bind, Draft.result_kind, Option.bind_some]
  dsimp only
  split
  · next h => exact absurd h hdot
  · next h => exact absurd h hbracket
  · rfl

/-- A primary that is a value, and no accessor behind it. -/
theorem result_loaded_primary {e : Option (Scalar × Chunk)} {k : Nat}
    (h : src.ahead d.cursor = t :: ts) (hminus : t.kind ≠ .symbol .minus)
    (hnot : t.kind ≠ .keyword .not) (hnew : t.kind ≠ .keyword .new)
    (hprimary : result (primary g) (src.compiler d) = e.map fun r =>
      (.value r.1.ty, src.compiler { d with code := r.2, cursor := k }))
    (hrest : src.ahead k = rest) (hfollows : Follows .unary rest) :
    result (loaded g) (src.compiler d) =
      e.map fun r => (r.1.ty, src.compiler { d with code := r.2, cursor := k }) := by
  rw [loaded, result_bind, Draft.result_current h, Option.bind_some, result_bind, operand,
    result_bind, Draft.result_kind, h, Option.bind_some]
  dsimp only [headKind]
  split
  · next hk => exact absurd hk hminus
  · next hk => exact absurd hk hnot
  · next hk => exact absurd hk hnew
  · rw [result_bind, hprimary]
    cases e with
    | none => rfl
    | some r =>
      simp only [Option.map_some, Option.bind_some, result_bind, Draft.result_budget]
      rw [result_accessors (hrest ▸ hfollows.dot) (hrest ▸ hfollows.bracket)]
      rfl

/-- An integer, however it is spelled. -/
theorem result_loaded_integer {w : Word} (h : src.ahead d.cursor = t :: rest)
    (hkind : t.kind = .integer) (hw : Literal.integer? t.lexeme = some w)
    (hfollows : Follows .unary rest) (Γ : Context) :
    result (loaded g) (src.compiler d) = ((Tree.number w).emit? Γ d.code).map fun r =>
      (r.1.ty, src.compiler { d with code := r.2, cursor := d.cursor + 1 }) := by
  refine result_loaded_primary h (by simp [hkind]) (by simp [hkind]) (by simp [hkind]) ?_
    (Source.ahead_succ h) hfollows
  simp only [primary, result_bind, Draft.result_current h, Option.bind_some, hkind,
    Draft.result_advance h, hw, Draft.result_emitInteger, Tree.emit?]
  cases d.code.load? w <;> rfl

theorem result_loaded_number {w : Word} (h : src.ahead d.cursor = t :: rest) (ht : t.Spells w)
    (hfollows : Follows .unary rest) (Γ : Context) :
    result (loaded g) (src.compiler d) = ((Tree.number w).emit? Γ d.code).map fun r =>
      (r.1.ty, src.compiler { d with code := r.2, cursor := d.cursor + 1 }) :=
  result_loaded_integer h ht.kind (integer?_of_spells ht) hfollows Γ

theorem result_loaded_truth {b : Bool} (h : src.ahead d.cursor = t :: rest)
    (ht : t.kind = .keyword (if b then .true else .false)) (hfollows : Follows .unary rest)
    (Γ : Context) :
    result (loaded g) (src.compiler d) = ((Tree.truth b).emit? Γ d.code).map fun r =>
      (r.1.ty, src.compiler { d with code := r.2, cursor := d.cursor + 1 }) := by
  cases b with
  | false =>
    have hkind : t.kind = .keyword .false := ht
    refine result_loaded_primary h (by simp [hkind]) (by simp [hkind]) (by simp [hkind]) ?_
      (Source.ahead_succ h) hfollows
    simp only [primary, result_bind, Draft.result_current h, Option.bind_some, hkind,
      Draft.result_advance h]
    rfl
  | true =>
    have hkind : t.kind = .keyword .true := ht
    refine result_loaded_primary h (by simp [hkind]) (by simp [hkind]) (by simp [hkind]) ?_
      (Source.ahead_succ h) hfollows
    simp only [primary, result_bind, Draft.result_current h, Option.bind_some, hkind,
      Draft.result_advance h]
    rfl

/-- The operand of a variable is its place. -/
theorem result_operand_name (hscopes : d.scopes ≠ []) (h : src.ahead d.cursor = t :: rest)
    (ht : t.kind = .identifier) {ty : Scalar} {k : Nat}
    (hslot : slot? t.lexeme d.scopes.flatten = some (ty, k)) (hfollows : Follows .unary rest) :
    result (operand g) (src.compiler d) =
      some (.place ⟨ty.ty, .global, k⟩, src.compiler { d with cursor := d.cursor + 1 }) := by
  have hrest : src.ahead (d.cursor + 1) = rest := Source.ahead_succ h
  have hname : result (primary g) (src.compiler d) =
      some (.place ⟨ty.ty, .global, k⟩, src.compiler { d with cursor := d.cursor + 1 }) := by
    simp only [primary, name, result_bind, Draft.result_current h, Option.bind_some, ht,
      Draft.result_lookup hscopes, hslot, Option.map_some, Draft.result_advance h]
    cases ty <;> rfl
  rw [operand, result_bind, Draft.result_kind, h, Option.bind_some]
  simp only [headKind, ht, result_bind, hname, Option.bind_some, Draft.result_budget]
  exact result_accessors (hrest ▸ hfollows.dot) (hrest ▸ hfollows.bracket) _ _

theorem result_loaded_name (hscopes : d.scopes ≠ []) (h : src.ahead d.cursor = t :: rest)
    (ht : t.kind = .identifier) {ty : Scalar} {k : Nat}
    (hslot : slot? t.lexeme d.scopes.flatten = some (ty, k)) (hfollows : Follows .unary rest) :
    result (loaded g) (src.compiler d) =
      if k < 65536 then
        some (ty.ty, src.compiler { d with
          code := d.code.push (.ofByteShort .loadGlobal 1 (UInt16.ofNat k))
          cursor := d.cursor + 1 })
      else none := by
  rw [loaded, result_bind, Draft.result_current h, Option.bind_some, result_bind,
    result_operand_name hscopes h ht hslot hfollows, Option.bind_some]
  exact result_load_place src { d with cursor := d.cursor + 1 } ty k t

end Operands

end Expression

namespace Tree

open CompileM Expression

/-- The names in a tree. -/
def names : Tree → List String
  | number _ | truth _ => []
  | name x => [x]
  | unary _ e => e.names
  | binary _ l r => l.names ++ r.names

/-- Every name of the tree stands for a variable. -/
def Declared (Γ : Context) (e : Tree) : Prop :=
  ∀ x ∈ e.names, ∃ s, slot? x Γ = some s

/-- What follows a token has less fuel. -/
theorem productions_succ {n : Nat} (h : 0 < n) : ∃ m, n = m + 1 ∧
    ∀ min, (productions n).expression min = Expression.read (productions m) min := by
  obtain ⟨m, rfl⟩ := Nat.exists_eq_succ_of_ne_zero (Nat.ne_of_gt h)
  exact ⟨m, rfl, fun _ => rfl⟩

variable {src : Source} {p : Precedence} {e : Tree} {ts : List Token}

/-- Reading the tokens emits the code of the tree and goes on with the operators behind them. -/
def Reads (src : Source) (p : Precedence) (e : Tree) (ts : List Token) : Prop :=
  ∀ (n : Nat) (min : Precedence) (d : Draft) (rest : List Token), d.scopes ≠ [] →
    e.Declared d.scopes.flatten → src.ahead d.cursor = ts ++ rest → Follows p rest →
    ts.length + rest.length ≤ n → min.rank ≤ p.rank →
    ∃ k, rest.length < k ∧
      result (Expression.read (productions n) min) (src.compiler d) =
        (e.emit? d.scopes.flatten d.code).bind fun r =>
          result (operators (productions n) min k r.1.ty)
            (src.compiler { d with code := r.2, cursor := d.cursor + ts.length })

/-- An expression ends where no operator goes on with it. -/
theorem Reads.expression (h : Reads src p e ts) (n : Nat) (min : Precedence) (d : Draft)
    {rest : List Token} (hscopes : d.scopes ≠ []) (hdeclared : e.Declared d.scopes.flatten)
    (hahead : src.ahead d.cursor = ts ++ rest) (hfollows : Follows p rest)
    (hn : ts.length + rest.length ≤ n) (hmin : min.rank ≤ p.rank)
    (hlt : ∀ q, Precedence.of? (headKind rest) = some q → q.rank < min.rank) :
    result (Expression.read (productions n) min) (src.compiler d) =
      (e.emit? d.scopes.flatten d.code).map fun r =>
        (r.1.ty, src.compiler { d with code := r.2, cursor := d.cursor + ts.length }) := by
  obtain ⟨k, hk, hread⟩ := h n min d rest hscopes hdeclared hahead hfollows hn hmin
  rw [hread]
  cases e.emit? d.scopes.flatten d.code with
  | none => rfl
  | some r =>
    refine result_operators_of_lt (Nat.zero_lt_of_lt hk) ?_
    rw [Source.ahead_add hahead]
    exact hlt

/-- A loaded operand is read before the operators behind it. -/
theorem reads_of_loaded (h : ∀ (n : Nat) (d : Draft) (rest : List Token), d.scopes ≠ [] →
    e.Declared d.scopes.flatten → src.ahead d.cursor = ts ++ rest → Follows .unary rest →
    ts.length + rest.length ≤ n →
    result (loaded (productions n)) (src.compiler d) =
      (e.emit? d.scopes.flatten d.code).map fun r =>
        (r.1.ty, src.compiler { d with code := r.2, cursor := d.cursor + ts.length })) :
    Reads src .unary e ts := by
  intro n min d rest hscopes hdeclared hahead hfollows hn hmin
  refine ⟨rest.length + 1, Nat.lt_succ_self _, ?_⟩
  rw [read_eq, result_bind, h n d rest hscopes hdeclared hahead hfollows hn]
  cases e.emit? d.scopes.flatten d.code with
  | none => rfl
  | some r =>
    simp only [Option.map_some, Option.bind_some, result_bind, Draft.result_budget,
      Source.ahead_add hahead]

theorem reads_name {t : Token} (ht : t.kind = .identifier) :
    Reads src .unary (.name t.lexeme) [t] := by
  refine reads_of_loaded fun n d rest hscopes hdeclared hahead hfollows hn => ?_
  obtain ⟨⟨ty, k⟩, hslot⟩ := hdeclared t.lexeme (List.mem_singleton_self _)
  rw [result_loaded_name hscopes hahead ht hslot hfollows, emit?, hslot, Option.bind_some]
  by_cases hk : k < 65536
  · rw [if_pos hk, if_pos hk]
    rfl
  · rw [if_neg hk, if_neg hk]
    rfl

theorem Reads.unary {op : UnaryOp} {t : Token} (ht : t.kind = op.kind) (h : Reads src .unary e ts) :
    Reads src .unary (.unary op e) (t :: ts) := by
  refine reads_of_loaded fun n d rest hscopes hdeclared hahead hfollows hn => ?_
  rw [List.length_cons] at hn ⊢
  obtain ⟨m, rfl, hexpression⟩ := productions_succ (n := n) (by omega)
  have hread := h.expression m .unary { d with cursor := d.cursor + 1 } hscopes hdeclared
    (Source.ahead_succ hahead) hfollows (by omega) (Nat.le_refl _) (fun q hq => rank_of?_lt hq)
  rw [show ({ d with cursor := d.cursor + 1 } : Draft).cursor + ts.length =
    d.cursor + (ts.length + 1) by show d.cursor + 1 + _ = _; omega] at hread
  simp only [loaded, operand, result_bind, Draft.result_current hahead, Option.bind_some,
    Draft.result_kind, hahead, headKind, List.cons_append, ht]
  cases op with
  | negate =>
    simp only [UnaryOp.kind, negation, result_bind, Draft.result_advance hahead,
      Option.bind_some, hexpression, hread, emit?]
    cases e.emit? d.scopes.flatten d.code with
    | none => rfl
    | some r =>
      obtain ⟨ty, code⟩ := r
      cases ty <;> rfl
  | complement =>
    simp only [UnaryOp.kind, complement, result_bind, Draft.result_advance hahead,
      Option.bind_some, hexpression, hread, emit?]
    cases e.emit? d.scopes.flatten d.code with
    | none => rfl
    | some r =>
      obtain ⟨ty, code⟩ := r
      cases ty <;> rfl

theorem Reads.parentheses {o c : Token} (ho : o.kind = .symbol .leftParen) (h : Reads src .or e ts)
    (hc : c.kind = .symbol .rightParen) : Reads src .unary e (o :: ts ++ [c]) := by
  refine reads_of_loaded fun n d rest hscopes hdeclared hahead hfollows hn => ?_
  simp only [List.cons_append, List.append_assoc, List.nil_append] at hahead
  simp only [List.length_append, List.length_cons, List.length_nil] at hn ⊢
  obtain ⟨m, rfl, hexpression⟩ := productions_succ (n := n) (by omega)
  have hends : ∀ q, Precedence.of? (headKind (c :: rest)) ≠ some q := by
    intro q
    rw [headKind, hc]
    simp [Precedence.of?]
  -- the inner expression ends at the parenthesis, which is no operator
  have hclosed : Follows .or (c :: rest) :=
    ⟨by simp [headKind, hc], by simp [headKind, hc], fun q hq => absurd hq (hends q)⟩
  have hahead' : src.ahead (d.cursor + 1) = ts ++ c :: rest := Source.ahead_succ hahead
  have hclose : src.ahead (d.cursor + 1 + ts.length) = c :: rest := Source.ahead_add hahead'
  have hread := h.expression m .or { d with cursor := d.cursor + 1 } hscopes hdeclared hahead'
    hclosed (by rw [List.length_cons]; omega) (Nat.le_refl _) (fun q hq => absurd hq (hends q))
  refine result_loaded_primary hahead (by simp [ho]) (by simp [ho]) (by simp [ho]) ?_
    ?_ hfollows
  · simp only [primary, result_bind, Draft.result_current hahead, Option.bind_some, ho,
      Draft.result_advance hahead, hexpression, hread]
    cases e.emit? d.scopes.flatten d.code with
    | none => rfl
    | some r =>
      simp only [Option.map_some, Option.bind_some]
      rw [Draft.result_consume (d := { d with code := r.2, cursor := d.cursor + 1 + ts.length })
        hclose, if_pos hc]
      rw [show d.cursor + (ts.length + 1 + (0 + 1)) = d.cursor + 1 + ts.length + 1 by omega]
      rfl
  · rw [show d.cursor + (ts.length + 1 + (0 + 1)) = d.cursor + 1 + ts.length + 1 by omega]
    exact Source.ahead_succ hclose

theorem Reads.binary {op : BinaryOp} {t : Token} {l r : Tree} {ls rs : List Token}
    (hl : Reads src op.precedence l ls) (ht : t.kind = op.kind)
    (hr : Reads src op.precedence.next r rs) :
    Reads src op.precedence (.binary op l r) (ls ++ t :: rs) := by
  intro n min d rest hscopes hdeclared hahead hfollows hn hmin
  rw [List.append_assoc, List.cons_append] at hahead
  simp only [List.length_append, List.length_cons] at hn ⊢
  have hoperator : Follows op.precedence (t :: (rs ++ rest)) := by
    refine ⟨?_, ?_, fun q hq => ?_⟩
    · rw [headKind, ht]
      cases op <;> simp [BinaryOp.kind]
    · rw [headKind, ht]
      cases op <;> simp [BinaryOp.kind]
    · rw [headKind, ht, of?_kind] at hq
      cases hq
      exact Nat.le_refl _
  obtain ⟨k, hk, hread⟩ := hl n min d (t :: (rs ++ rest)) hscopes
    (fun x hx => hdeclared x (List.mem_append_left _ hx)) hahead hoperator
    (by rw [List.length_cons, List.length_append]; omega) hmin
  rw [List.length_cons, List.length_append] at hk
  obtain ⟨k, rfl⟩ := Nat.exists_eq_succ_of_ne_zero (Nat.ne_of_gt (Nat.zero_lt_of_lt hk))
  obtain ⟨m, rfl, hexpression⟩ := productions_succ (n := n) (by omega)
  refine ⟨k, by omega, ?_⟩
  rw [hread, emit?]
  cases l.emit? d.scopes.flatten d.code with
  | none => rfl
  | some a =>
    have hop : src.ahead (d.cursor + ls.length) = t :: (rs ++ rest) := Source.ahead_add hahead
    simp only [Option.bind_some]
    rw [operators, result_bind, Draft.result_kind]
    simp only [Option.bind_some, hop, headKind, ht, of?_kind, if_neg (Nat.not_lt.mpr hmin),
      result_bind, Draft.result_advance (d := { d with code := a.2, cursor := d.cursor + ls.length })
        hop, hexpression]
    -- the right operand ends at an operator that binds no tighter than this one
    have hright := hr.expression m op.precedence.next
      { d with code := a.2, cursor := d.cursor + ls.length + 1 } hscopes
      (fun x hx => hdeclared x (List.mem_append_right _ hx)) (Source.ahead_succ hop)
      (hfollows.mono (by rw [rank_next]; omega)) (by omega) (Nat.le_refl _)
      (fun q hq => by
        have hq' := hfollows.operator q hq
        rw [rank_next]
        omega)
    rw [hright]
    cases r.emit? d.scopes.flatten a.2 with
    | none => rfl
    | some b =>
      simp only [Option.map_some, Option.bind_some]
      rw [result_binary src _ ht]
      rw [show d.cursor + ls.length + 1 + rs.length = d.cursor + (ls.length + (rs.length + 1)) by
        omega]
      cases op.type? a.1 b.1 <;> rfl

/-- Reading the tokens of a tree emits its code and goes on with the operators behind them. -/
theorem Written.reads (h : Written p e ts) : Reads src p e ts := by
  induction h with
  | number ht =>
    exact reads_of_loaded fun n d rest _ _ hahead hfollows _ =>
      result_loaded_number hahead ht hfollows _
  | true ht =>
    exact reads_of_loaded fun n d rest _ _ hahead hfollows _ =>
      result_loaded_truth (b := .true) hahead ht hfollows _
  | false ht =>
    exact reads_of_loaded fun n d rest _ _ hahead hfollows _ =>
      result_loaded_truth (b := .false) hahead ht hfollows _
  | name ht => exact reads_name ht
  | unary ht _ ih => exact ih.unary ht
  | binary _ ht _ ihl ihr => exact ihl.binary ht ihr
  | parentheses ho _ hc ih => exact ih.parentheses ho hc
  | looser hpq _ ih =>
    intro n min d rest hscopes hdeclared hahead hfollows hn hmin
    exact ih n min d rest hscopes hdeclared hahead (hfollows.mono hpq) hn (Nat.le_trans hmin hpq)

end Tree

end WordScript
