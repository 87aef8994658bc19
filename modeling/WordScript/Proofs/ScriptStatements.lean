/-
Statements are read as the code of scripts.

Each statement is described on its own, from what is known of the expressions and
bodies in it.  A body is read in a scope of its own, with whatever code and loops
stand before it.

* `Statement.ReadsBodyAt` — the bodies at a place;
* `Statement.result_conditional_cond`, `result_whileLoop` and so on — the statements;
* `Statement.result_elseFollows` — where an `else` is looked for.
-/
import WordScript.Proofs.ScriptEmission

namespace WordScript

namespace Statement

open CompileM

variable {src : Source} {d : Draft} {g : Productions} {e : Tree} {s t : Script} {depth len : Nat}
  {rest es ts us : List Token}

/-- A body is read as a script. -/
def ReadsBody (src : Source) (g : Productions) (depth : Nat) (d : Draft) (s : Script) (len : Nat) :
    Prop :=
  result (Block.body g depth) (src.compiler d) =
    (s.body? (innermost d.loops) d.scopes d.code).map fun r =>
      ((), src.compiler (r.draft d.loops (d.cursor + len)))

/-- Bodies at a place are read as a script, whatever the code and the loops before it are. -/
def ReadsBodyAt (src : Source) (g : Productions) (depth k : Nat) (Γ : Scopes) (s : Script)
    (len : Nat) : Prop :=
  ∀ code loops, ReadsBody src g depth ⟨Γ, code, loops, k⟩ s len

theorem result_condition (hread : ReadsWhole src g d e len) :
    result (condition g) (src.compiler d) = (e.test? d.scopes.flatten d.code).map fun code =>
      ((), src.compiler { d with code, cursor := d.cursor + len }) := by
  rw [condition, result_bind]
  show Option.bind (some _) _ = _
  rw [Option.bind_some, result_bind, show result (g.expression .or) _ = _ from hread, Tree.test?]
  cases e.emit? d.scopes.flatten d.code with
  | none => rfl
  | some r =>
    simp only [Option.map_some, Option.bind_some]
    rw [show (Ty.bool : Ty) = Scalar.bool.ty from rfl, Draft.result_expectType]
    by_cases hbool : r.1 = .bool
    · rw [if_pos hbool, if_pos hbool.symm]
      rfl
    · rw [if_neg hbool, if_neg (Ne.symm hbool)]
      rfl

/-- A conditional without an `else`. -/
theorem result_conditional_when {i th : Token}
    (h : src.ahead d.cursor = i :: (es ++ th :: rest)) (hth : th.kind = .keyword .then_)
    (hread : ReadsWhole src g { d with cursor := d.cursor + 1 } e es.length)
    (hbody : ReadsBodyAt src g depth (d.cursor + 1 + es.length + 1) d.scopes s len)
    (helse : ∀ d' : Draft, d'.cursor = d.cursor + 1 + es.length + 1 + len →
      result (elseFollows depth) (src.compiler d') = some (false, src.compiler d')) :
    result (conditional g depth) (src.compiler d) =
      ((Script.when e s).emit? (innermost d.loops) d.scopes d.code).map fun r =>
        ((), src.compiler (r.draft d.loops (d.cursor + 1 + es.length + 1 + len))) := by
  have hes : src.ahead (d.cursor + 1) = es ++ th :: rest := Source.ahead_succ h
  have hthen : src.ahead (d.cursor + 1 + es.length) = th :: rest := Source.ahead_add hes
  rw [conditional, result_bind, Draft.result_advance h, Option.bind_some, result_bind,
    result_condition hread, Script.emit?]
  cases e.test? d.scopes.flatten d.code with
  | none => rfl
  | some c₁ =>
    simp only [Option.map_some, Option.bind_some, result_bind]
    rw [Draft.result_consume (d := { d with code := c₁, cursor := d.cursor + 1 + es.length }) hthen,
      if_pos hth]
    simp only [Option.bind_some, Draft.result_emitJump]
    rw [hbody (c₁.open_ .jumpIfFalse) d.loops, Script.body?]
    cases (s.emit? (innermost d.loops) ([] :: d.scopes) (c₁.open_ .jumpIfFalse)).bind
        Emitted.leave? with
    | none => rfl
    | some r =>
      simp only [Option.map_some, Option.bind_some]
      rw [helse _ rfl]
      simp only [Option.bind_some, Bool.false_eq_true, if_false, Draft.result_patchJump]
      show Option.map _ (r.code.land? c₁.code.size) = _
      cases r.code.land? c₁.code.size <;> rfl

/-- A conditional with an `else`. -/
theorem result_conditional_cond {i th : Token} {gap len' : Nat}
    (h : src.ahead d.cursor = i :: (es ++ th :: rest)) (hth : th.kind = .keyword .then_)
    (hread : ReadsWhole src g { d with cursor := d.cursor + 1 } e es.length)
    (hbody : ReadsBodyAt src g depth (d.cursor + 1 + es.length + 1) d.scopes s len)
    (helse : ∀ d' : Draft, d'.cursor = d.cursor + 1 + es.length + 1 + len →
      result (elseFollows depth) (src.compiler d') =
        some (true, src.compiler { d' with cursor := d'.cursor + gap }))
    (hbody' : ReadsBodyAt src g depth (d.cursor + 1 + es.length + 1 + len + gap) d.scopes t len') :
    result (conditional g depth) (src.compiler d) =
      ((Script.cond e s t).emit? (innermost d.loops) d.scopes d.code).map fun r =>
        ((), src.compiler (r.draft d.loops (d.cursor + 1 + es.length + 1 + len + gap + len'))) := by
  have hes : src.ahead (d.cursor + 1) = es ++ th :: rest := Source.ahead_succ h
  have hthen : src.ahead (d.cursor + 1 + es.length) = th :: rest := Source.ahead_add hes
  rw [conditional, result_bind, Draft.result_advance h, Option.bind_some, result_bind,
    result_condition hread, Script.emit?]
  cases e.test? d.scopes.flatten d.code with
  | none => rfl
  | some c₁ =>
    simp only [Option.map_some, Option.bind_some, result_bind]
    rw [Draft.result_consume (d := { d with code := c₁, cursor := d.cursor + 1 + es.length }) hthen,
      if_pos hth]
    simp only [Option.bind_some, Draft.result_emitJump]
    rw [hbody (c₁.open_ .jumpIfFalse) d.loops]
    cases hs : s.body? (innermost d.loops) d.scopes (c₁.open_ .jumpIfFalse) with
    | none =>
      rw [Script.body?] at hs
      rw [hs]
      rfl
    | some r =>
      -- the first body is done: its scope is closed, and what follows is read as the branch of `else`
      obtain ⟨Γ, breaks, code⟩ := r
      obtain rfl : Γ = d.scopes := Script.body?_scopes hs
      rw [Script.body?] at hs
      rw [hs]
      simp only [Option.map_some, Option.bind_some]
      rw [helse _ rfl]
      simp only [Option.bind_some, if_true, result_bind, Draft.result_emitJump,
        Draft.result_patchJump]
      show Option.bind (Option.map _ ((code.open_ .jump).land? c₁.code.size)) _ = _
      cases (code.open_ .jump).land? c₁.code.size with
      | none => rfl
      | some c₂ =>
        simp only [Option.map_some, Option.bind_some, Emitted.draft]
        rw [hbody' c₂ (withBreaks breaks d.loops), Script.body?, innermost_withBreaks]
        cases (t.emit? (innermost d.loops) ([] :: d.scopes) c₂).bind Emitted.leave? with
        | none => rfl
        | some r' =>
          simp only [Option.map_some, Option.bind_some, Draft.result_patchJump, Option.map_map,
            Function.comp_def, withBreaks_append]
          rfl

section Loops

theorem result_openLoop (hscopes : d.scopes ≠ []) (start : Nat) :
    result (openLoop start) (src.compiler d) =
      some ((), src.compiler { d with loops := ⟨start, [], d.scopes.flatten.length⟩ :: d.loops }) := by
  obtain ⟨scopes, code, loops, cursor⟩ := d
  obtain ⟨Γ, outer, rfl⟩ := List.exists_cons_of_ne_nil hscopes
  have hwords : (src.compiler ⟨Γ :: outer, code, loops, cursor⟩).scopeWords =
      (Γ :: outer).flatten.length := Scopes.wordLength_tree Γ outer
  rw [openLoop]
  show some ((), Compiler.mapBuilder (fun b => { b with loops := { start, scopeWords := (src.compiler
    ⟨Γ :: outer, code, loops, cursor⟩).scopeWords } :: b.loops }) _) = _
  rw [hwords]
  rfl

theorem result_closeLoop {l : LoopContext} {loops : List LoopContext} (hloops : d.loops = l :: loops)
    (token : Token) :
    result (closeLoop token) (src.compiler d) = (d.code.landAll? l.breaks.reverse).map fun code =>
      ((), src.compiler { d with loops, code }) := by
  obtain ⟨scopes, code, loops', cursor⟩ := d
  obtain rfl : loops' = l :: loops := hloops
  rw [closeLoop, result_bind, result_ask, Option.bind_some]
  exact Draft.result_patchJumps src ⟨scopes, code, loops, cursor⟩ l.breaks.reverse token

/-- The body of a loop with the jump back and the end of the loop. -/
theorem result_loopBody (hscopes : d.scopes ≠ []) {start : Nat}
    (hbody : ReadsBodyAt src g depth d.cursor d.scopes s len) (token : Token) :
    result (loopBody g start depth token) (src.compiler d) =
      (s.body? (some ⟨start, d.scopes.flatten.length⟩) d.scopes d.code).bind fun r =>
        (r.code.back? start).map fun code =>
          ((), src.compiler ⟨r.scopes, code, ⟨start, r.breaks, d.scopes.flatten.length⟩ :: d.loops,
            d.cursor + len⟩) := by
  rw [loopBody, result_bind, result_openLoop hscopes, Option.bind_some, result_bind,
    show result (Block.body g depth) _ = _ from
      hbody d.code (⟨start, [], d.scopes.flatten.length⟩ :: d.loops)]
  show Option.bind (Option.map _ (s.body? (some ⟨start, d.scopes.flatten.length⟩) d.scopes d.code)) _
    = _
  cases s.body? (some ⟨start, d.scopes.flatten.length⟩) d.scopes d.code with
  | none => rfl
  | some r =>
    simp only [Option.map_some, Option.bind_some, Draft.result_emitLoop, Emitted.draft, withBreaks,
      List.append_nil]

/-- A loop with a condition. -/
theorem result_whileLoop {w : Token} (hscopes : d.scopes ≠ [])
    (h : src.ahead d.cursor = w :: rest)
    (hread : ReadsWhole src g { d with cursor := d.cursor + 1 } e es.length)
    (hbody : ReadsBodyAt src g depth (d.cursor + 1 + es.length) d.scopes s len) :
    result (whileLoop g depth) (src.compiler d) =
      ((Script.while_ e s).emit? (innermost d.loops) d.scopes d.code).map fun r =>
        ((), src.compiler (r.draft d.loops (d.cursor + 1 + es.length + len))) := by
  rw [whileLoop, result_bind, Draft.result_advance h, Option.bind_some, result_bind,
    Draft.result_here, Option.bind_some, result_bind, result_condition hread, Script.emit?]
  cases e.test? d.scopes.flatten d.code with
  | none => rfl
  | some c₁ =>
    simp only [Option.map_some, Option.bind_some, result_bind, Draft.result_emitJump]
    -- the condition is behind; the loop begins in front of it
    rw [result_loopBody (d := ⟨d.scopes, c₁.open_ .jumpIfFalse, d.loops, d.cursor + 1 + es.length⟩)
      hscopes hbody, Script.body?]
    cases (s.emit? (some ⟨d.code.code.size, d.scopes.flatten.length⟩) ([] :: d.scopes)
        (c₁.open_ .jumpIfFalse)).bind Emitted.leave? with
    | none => rfl
    | some r =>
      simp only [Option.bind_some]
      cases r.code.back? d.code.code.size with
      | none => rfl
      | some c₂ =>
        simp only [Option.map_some, Option.bind_some, Draft.result_patchJump]
        cases c₂.land? c₁.code.size with
        | none => rfl
        | some c₃ =>
          simp only [Option.map_some, Option.bind_some]
          rw [result_closeLoop (d := ⟨r.scopes, c₃, _ :: d.loops, _⟩) rfl]
          simp only [Emitted.draft, Option.map_map, Function.comp_def, withBreaks_nil]

/-- A loop without a condition. -/
theorem result_loop {l : Token} (hscopes : d.scopes ≠ []) (h : src.ahead d.cursor = l :: rest)
    (hbody : ReadsBodyAt src g depth (d.cursor + 1) d.scopes s len) :
    result (loop g depth) (src.compiler d) =
      ((Script.loop s).emit? (innermost d.loops) d.scopes d.code).map fun r =>
        ((), src.compiler (r.draft d.loops (d.cursor + 1 + len))) := by
  rw [loop, result_bind, Draft.result_advance h, Option.bind_some, result_bind, Draft.result_here,
    Option.bind_some, result_bind,
    result_loopBody (d := { d with cursor := d.cursor + 1 }) hscopes hbody, Script.emit?,
    Script.body?]
  cases (s.emit? (some ⟨d.code.code.size, d.scopes.flatten.length⟩) ([] :: d.scopes) d.code).bind
      Emitted.leave? with
  | none => rfl
  | some r =>
    simp only [Option.bind_some]
    cases r.code.back? d.code.code.size with
    | none => rfl
    | some c₂ =>
      simp only [Option.map_some, Option.bind_some]
      rw [result_closeLoop (d := ⟨r.scopes, c₂, _ :: d.loops, _⟩) rfl]
      simp only [Emitted.draft, Option.map_map, Function.comp_def, withBreaks_nil]

theorem result_unwindToLoop (hscopes : d.scopes ≠ []) (token : Token) :
    result (unwindToLoop token) (src.compiler d) = (innermost d.loops).bind fun l =>
      (d.code.drop? (d.scopes.flatten.length - l.words)).map fun code =>
        (l.start, src.compiler { d with code }) := by
  obtain ⟨scopes, code, loops, cursor⟩ := d
  obtain ⟨Γ, outer, rfl⟩ := List.exists_cons_of_ne_nil hscopes
  have hwords : (src.compiler ⟨Γ :: outer, code, loops, cursor⟩).scopeWords =
      (Γ :: outer).flatten.length := Scopes.wordLength_tree Γ outer
  rw [unwindToLoop, result_bind, result_ask, Option.bind_some]
  cases loops with
  | nil => rfl
  | cons l loops =>
    show result (ask Compiler.scopeWords >>= fun words =>
      emitPop (words - l.scopeWords) token >>= fun _ => pure l.start) _ = _
    rw [result_bind, result_ask, hwords, Option.bind_some, result_bind, Draft.result_emitPop]
    show Option.bind (Option.map _ (code.drop? ((Γ :: outer).flatten.length - l.scopeWords))) _ =
      Option.map _ (code.drop? ((Γ :: outer).flatten.length - l.scopeWords))
    cases code.drop? ((Γ :: outer).flatten.length - l.scopeWords) <;> rfl

theorem result_break_ {b : Token} {k : Nat} (hscopes : d.scopes ≠ [])
    (h : src.ahead d.cursor = b :: rest) (hend : EndsAt src (d.cursor + 1) k) :
    result break_ (src.compiler d) =
      (Script.break_.emit? (innermost d.loops) d.scopes d.code).map fun r =>
        ((), src.compiler (r.draft d.loops (d.cursor + 1 + k))) := by
  rw [break_, result_bind, Draft.result_advance h, Option.bind_some, result_bind,
    result_unwindToLoop (d := { d with cursor := d.cursor + 1 }) hscopes, Script.emit?]
  obtain ⟨scopes, code, loops, cursor⟩ := d
  cases loops with
  | nil => rfl
  | cons l loops =>
    simp only [innermost, List.head?_cons, Option.map_some, Option.bind_some]
    cases code.drop? (scopes.flatten.length - l.scopeWords) with
    | none => rfl
    | some c₁ =>
      simp only [Option.map_some, Option.bind_some, result_bind, Draft.result_emitJump]
      exact hend ⟨scopes, c₁.open_ .jump, { l with breaks := c₁.code.size :: l.breaks } :: loops,
        cursor + 1⟩ rfl

theorem result_continue_ {c : Token} {k : Nat} (hscopes : d.scopes ≠ [])
    (h : src.ahead d.cursor = c :: rest) (hend : EndsAt src (d.cursor + 1) k) :
    result continue_ (src.compiler d) =
      (Script.continue_.emit? (innermost d.loops) d.scopes d.code).map fun r =>
        ((), src.compiler (r.draft d.loops (d.cursor + 1 + k))) := by
  rw [continue_, result_bind, Draft.result_advance h, Option.bind_some, result_bind,
    result_unwindToLoop (d := { d with cursor := d.cursor + 1 }) hscopes, Script.emit?]
  cases innermost d.loops with
  | none => rfl
  | some l =>
    simp only [Option.bind_some]
    cases d.code.drop? (d.scopes.flatten.length - l.words) with
    | none => rfl
    | some c₁ =>
      simp only [Option.map_some, Option.bind_some, result_bind, Draft.result_emitLoop]
      cases c₁.back? l.start with
      | none => rfl
      | some c₂ =>
        simp only [Option.map_some, Option.bind_some, Emitted.draft, withBreaks_nil]
        exact hend ⟨d.scopes, c₂, d.loops, d.cursor + 1⟩ rfl

end Loops

section Assignments

theorem result_store (src : Source) (d : Draft) (ty : Scalar) (k : Nat) (token : Token) :
    result (store ⟨ty.ty, .global, k⟩ token) (src.compiler d) =
      if k < 65536 then
        some ((), src.compiler { d with
          code := d.code.push (.ofByteShort .storeGlobal 1 (UInt16.ofNat k)) })
      else none := by
  have hbyte : (1 : Nat) < 256 := by decide
  simp only [store, result_bind, Draft.result_wordsOf, Option.bind_some, Draft.result_byte,
    if_pos hbyte, Draft.result_short]
  by_cases h : k < 65536
  · simp only [if_pos h]
    rfl
  · simp only [if_neg h]
    rfl

/-- The value of an expression is put into the place of a variable. -/
theorem result_assign {eq : Token} {k : Nat} {ty : Scalar}
    (h : src.ahead d.cursor = eq :: rest)
    (hread : ReadsWhole src g { d with cursor := d.cursor + 1 } e len) (token : Token) :
    result (assign g (.place ⟨ty.ty, .global, k⟩) token) (src.compiler d) =
      (e.emit? d.scopes.flatten d.code).bind fun r =>
        if ty = r.1 ∧ k < 65536 then
          some ((), src.compiler { d with
            code := r.2.push (.ofByteShort .storeGlobal 1 (UInt16.ofNat k))
            cursor := d.cursor + 1 + len })
        else none := by
  rw [assign, result_bind, Draft.result_advance h, Option.bind_some, result_bind]
  show Option.bind (some _) _ = _
  rw [Option.bind_some, result_bind]
  show Option.bind (some _) _ = _
  rw [Option.bind_some, result_bind, show result (g.expression .or) _ = _ from hread]
  cases e.emit? d.scopes.flatten d.code with
  | none => rfl
  | some r =>
    simp only [Option.map_some, Option.bind_some, result_bind, Draft.result_expectType]
    by_cases hty : ty = r.1
    · subst hty
      simp only [if_true, Option.bind_some, result_store, true_and]
    · rw [if_neg hty, if_neg fun hboth => hty hboth.1]
      rfl

/-- An assignment to a variable. -/
theorem result_expression_assign {name eq : Token} {k : Nat} (hscopes : d.scopes ≠ [])
    (h : src.ahead d.cursor = name :: eq :: rest) (hname : name.kind = .identifier)
    (heq : eq.kind = .symbol .equal)
    (hread : ReadsWhole src g { d with cursor := d.cursor + 1 + 1 } e len)
    (hend : EndsAt src (d.cursor + 1 + 1 + len) k) :
    result (expression g) (src.compiler d) =
      ((Script.assign name.lexeme e).emit? (innermost d.loops) d.scopes d.code).map fun r =>
        ((), src.compiler (r.draft d.loops (d.cursor + 1 + 1 + len + k))) := by
  have hahead : src.ahead (d.cursor + 1) = eq :: rest := Source.ahead_succ h
  have hkind : headKind (eq :: rest) = .symbol .equal := heq
  rw [expression, result_bind, Draft.result_current h, Option.bind_some, result_bind, Script.emit?]
  cases hslot : slot? name.lexeme d.scopes.flatten with
  | none =>
    -- a name that nobody has declared is refused, unless it begins a literal or a call
    have hbare : Expression.Bare (eq :: rest) := by
      constructor <;> simp [hkind]
    have hrefused := Expression.result_name_undeclared (g := g) hscopes h hname hslot hbare
    simp only [Expression.operand, result_bind, Draft.result_kind, h, headKind, hname,
      Option.bind_some, Expression.primary, Draft.result_current h, hrefused]
    rfl
  | some v =>
    obtain ⟨ty, offset⟩ := v
    have hfollows : Expression.Follows .unary (eq :: rest) := by
      constructor <;> simp [hkind, Precedence.of?]
    rw [Expression.result_operand_name hscopes h hname hslot hfollows]
    simp only [Option.bind_some, result_bind, Draft.result_kind, hahead, hkind]
    rw [result_assign (d := { d with cursor := d.cursor + 1 }) hahead hread]
    cases e.emit? d.scopes.flatten d.code with
    | none => rfl
    | some r =>
      simp only [Option.bind_some]
      by_cases hfits : ty = r.1 ∧ offset < 65536
      · simp only [if_pos hfits, Option.bind_some, Option.map_some, Emitted.draft, withBreaks_nil]
        exact hend _ rfl
      · simp only [if_neg hfits]
        rfl

end Assignments

section Ends

variable {ending : Ending} {ends : List Token}

/-- A statement without a body ends as it is written to. -/
theorem endsAt_of_closes {k : Nat} (hcloses : ending.Closes ends) (hbefore : ending.Before depth rest)
    (h : src.ahead k = ends ++ rest) : EndsAt src k ends.length := by
  cases ending with
  | line =>
    obtain ⟨t, ht, rfl⟩ := hcloses
    exact endsAt_terminator h ht
  | else_ =>
    obtain rfl : ends = [] := hcloses
    rintro d rfl
    have hkind : headKind (src.ahead d.cursor) = .keyword .else_ := by
      rw [h]
      exact hbefore
    rw [endStatement, result_bind, Draft.result_kind, hkind]
    rfl
  | open_ => exact hcloses.elim

/-- What an `else` is looked for with: the last token, and the tokens behind it. -/
theorem result_elseFollows {k : Nat} {last : Token} (h : src.ahead k = ts ++ last :: rest)
    (hcursor : d.cursor = k + ts.length + 1) :
    result (elseFollows depth) (src.compiler d) =
      if last.kind ≠ .statementTerminator ∧ headKind rest = .keyword .else_ then
        some (true, src.compiler { d with cursor := d.cursor + 1 })
      else if indents rest = depth ∧ headKind (rest.drop depth) = .keyword .else_ then
        some (true, src.compiler { d with cursor := d.cursor + (depth + 1) })
      else some (false, src.compiler d) := by
  have hlast : src.ahead (k + ts.length) = last :: rest := Source.ahead_add h
  have hrest : src.ahead d.cursor = rest := by rw [hcursor]; exact Source.ahead_succ hlast
  have hdrop : src.ahead (d.cursor + indents rest) = rest.drop (indents rest) := by
    rw [Source.ahead, ← List.drop_drop]
    exact congrArg _ hrest
  -- the line goes on if the token in front is no terminator
  have hsame : (decide (0 < d.cursor) &&
      (src.compiler d).kindAt (d.cursor - 1) != .statementTerminator) =
      decide (last.kind ≠ .statementTerminator) := by
    rw [Source.kindAt_compiler, hcursor, Nat.add_sub_cancel, hlast, headKind,
      decide_eq_true (Nat.succ_pos _), Bool.true_and]
    exact (decide_not ..).symm
  simp only [elseFollows, result_bind, Draft.result_cursor, Option.bind_some, result_ask, hsame,
    Source.indentation_compiler, hrest, Draft.result_check, Draft.result_kindAhead, hdrop,
    result_ite]
  by_cases hhere : last.kind ≠ .statementTerminator ∧ headKind rest = .keyword .else_
  · rw [if_pos hhere, if_pos (by simpa using hhere)]
    rfl
  · rw [if_neg hhere, if_neg (by simpa using hhere)]
    by_cases hnext : indents rest = depth ∧ headKind (rest.drop depth) = .keyword .else_
    · obtain ⟨rfl, helse⟩ := hnext
      rw [if_pos (by simpa using helse), Draft.result_moveTo]
      simp only [true_and, helse, if_true]
      rfl
    · rw [if_neg hnext, if_neg]
      · rfl
      · rintro hboth
        simp only [Bool.and_eq_true, decide_eq_true_eq, beq_iff_eq] at hboth
        exact hnext ⟨hboth.1, hboth.1 ▸ hboth.2⟩

end Ends

end Statement

end WordScript
