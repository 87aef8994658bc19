/-
Expressions and types stay on their line.

A statement ends before a terminator, before an `else` or at the end of the file, and
indents stand at the beginnings of lines.  No expression and no type takes any of these
tokens, so a statement whose parts are expressions ends at the first of them.  The
instance of a template reads tokens that stand elsewhere, and comes back.

* `TokenKind.isBreak` — the tokens that end statements or lead lines;
* `Compiler.Along` — reading on over tokens that are none of them;
* `Inlines`, `InlinesAt` — computations that only read on in this way; the second at a
  token of a kind that is known;
* `Productions.Inline`, `productions_inline` — so do the productions, all but
  statements.

Design notes: what only looks at the tokens or emits code is `Idle` already, and the
lemmas about it carry over.  A token that is taken without a look at it is followed by a
test of its kind, which fails for a break; `Inlines.advance_of_fails` is the rule for that.
This is no `Walk`: a walk lets any token be taken, while here it matters which kind has
been seen before, and statements, which a walk goes through as well, do take breaks.
-/
import WordScript.Proofs.FuelBound

namespace WordScript

/-- A token that ends a statement or leads a line. -/
def TokenKind.isBreak : TokenKind → Bool
  | .statementTerminator | .indent | .endOfFile | .keyword .else_ => true
  | _ => false

namespace Compiler

/-- The later state reads the same tokens, further on, and no break has been passed. -/
structure Along (c c' : Compiler) : Prop where
  tokens : c'.tokens = c.tokens
  cursor : c.cursor ≤ c'.cursor
  passed : ∀ k, c.cursor ≤ k → k < c'.cursor → (c.kindAt k).isBreak = false

theorem kindAt_of_tokens {c c' : Compiler} (h : c'.tokens = c.tokens) (k : Nat) :
    c'.kindAt k = c.kindAt k := by
  rw [kindAt, kindAt, h]

namespace Along

variable {c c' c₁ c₂ c₃ : Compiler}

theorem of_cursor (htokens : c'.tokens = c.tokens) (hcursor : c'.cursor = c.cursor) : c.Along c' := by
  refine ⟨htokens, Nat.le_of_eq hcursor.symm, fun k hle hlt => ?_⟩
  rw [hcursor] at hlt
  exact absurd hlt (Nat.not_lt.mpr hle)

theorem of_beside (h : c.Beside c') : c.Along c' :=
  .of_cursor h.tokens h.cursor

theorem refl (c : Compiler) : c.Along c :=
  .of_beside (.refl c)

theorem trans (h₁ : c₁.Along c₂) (h₂ : c₂.Along c₃) : c₁.Along c₃ := by
  refine ⟨h₂.tokens.trans h₁.tokens, Nat.le_trans h₁.cursor h₂.cursor, fun k hle hlt => ?_⟩
  by_cases hk : k < c₂.cursor
  · exact h₁.passed k hle hk
  · rw [← kindAt_of_tokens h₁.tokens]
    exact h₂.passed k (Nat.not_lt.mp hk) hlt

/-- A token that is no break is passed. -/
theorem step (h : (c.kindAt c.cursor).isBreak = false) :
    c.Along { c with cursor := c.cursor + 1 } := by
  refine ⟨rfl, Nat.le_succ _, fun k hle hlt => ?_⟩
  obtain rfl : k = c.cursor := Nat.le_antisymm (Nat.le_of_lt_succ hlt) hle
  exact h

end Along

theorem kindAt_cursor {c : Compiler} (h : c.cursor < c.tokens.size) :
    c.kindAt c.cursor = c.current.kind := by
  rw [kindAt, Array.getElem?_eq_getElem h, current, Array.getD_eq_getD_getElem?,
    Array.getElem?_eq_getElem h]
  rfl

end Compiler

variable {α β : Type} {g : Productions} {kind : TokenKind}

/-- If the computation succeeds, it has read on and passed no break. -/
def Inlines (x : CompileM α) : Prop :=
  ∀ (c : Compiler) (a : α) (c' : Compiler), x c = .ok (a, c') → c.Along c'

/-- The same where the next token, if there is one, is of a kind that is known. -/
def InlinesAt (kind : TokenKind) (x : CompileM α) : Prop :=
  ∀ (c : Compiler) (a : α) (c' : Compiler), (c.cursor < c.tokens.size → c.kindAt c.cursor = kind) →
    x c = .ok (a, c') → c.Along c'

theorem CompileM.advance_eq_ok {c c' : Compiler} {token : Token}
    (h : CompileM.advance c = .ok (token, c')) :
    token = c.current ∧ (c.cursor < c.tokens.size ∧ c' = { c with cursor := c.cursor + 1 } ∨
      c.tokens.size ≤ c.cursor ∧ c' = c) := by
  rw [CompileM.advance] at h
  split at h
  · next hlt =>
    cases h
    exact ⟨rfl, .inl ⟨hlt, rfl⟩⟩
  · next hge =>
    cases h
    exact ⟨rfl, .inr ⟨Nat.not_lt.mp hge, rfl⟩⟩

namespace Inlines

theorem at_ {x : CompileM α} (h : Inlines x) : InlinesAt kind x :=
  fun c a c' _ hx => h c a c' hx

@[grind ←] theorem bind {x : CompileM α} {k : α → CompileM β} (hx : Inlines x)
    (hk : ∀ a, Inlines (k a)) : Inlines (x >>= k) := by
  intro c b c' h
  obtain ⟨a, c₁, hxa, hka⟩ := CompileM.bind_eq_ok h
  exact (hx c a c₁ hxa).trans (hk a c₁ b c' hka)

@[grind ←] theorem of_idle {x : CompileM α} (h : Idle x) : Inlines x := by
  intro c a c' hx
  cases h c with
  | done hx' _ hq =>
    obtain ⟨rfl, rfl⟩ := Prod.mk.inj (Except.ok.inj (hx'.symm.trans hx))
    exact .of_beside hq
  | stopped hx' =>
    rw [hx] at hx'
    cases hx'

theorem after {x : CompileM α} {k : α → CompileM β} (hx : Idle x) (hk : ∀ a, Inlines (k a)) :
    Inlines (x >>= k) :=
  .bind (.of_idle hx) hk

theorem of_fails {x : CompileM α} (h : Fails x) : Inlines x :=
  fun _ _ _ hx => absurd hx (h _ _ _)

/-- A change of the state that leaves the tokens and the cursor alone. -/
theorem of_modifyGet {f : Compiler → α × Compiler} (htokens : ∀ c, (f c).2.tokens = c.tokens)
    (hcursor : ∀ c, (f c).2.cursor = c.cursor) : Inlines (modifyGet f : CompileM α) := by
  intro c a c' h
  obtain rfl : (f c).2 = c' := congrArg Prod.snd (Except.ok.inj h)
  exact .of_cursor (htokens c) (hcursor c)

@[grind ←] theorem failFuel : Inlines (CompileM.failFuel : CompileM α) :=
  of_fails .failFuel

theorem of_kind {k : TokenKind → CompileM β} (h : ∀ kind, InlinesAt kind (k kind)) :
    Inlines (CompileM.kind >>= k) :=
  fun c b c' hx => h (c.kindAt c.cursor) c b c' (fun _ => rfl) hx

theorem of_current {k : Token → CompileM β} (h : ∀ token, InlinesAt token.kind (k token)) :
    Inlines (CompileM.current >>= k) :=
  fun c b c' hx => h c.current c b c' Compiler.kindAt_cursor hx

/-- A token may be taken whatever it is, if for a break the rest fails. -/
theorem advance_of_fails {k : Token → CompileM β}
    (hbreak : ∀ token, token.kind.isBreak = true → Fails (k token)) (hk : ∀ token, Inlines (k token)) :
    Inlines (CompileM.advance >>= k) := by
  intro c b c' h
  obtain ⟨token, c₁, hadvance, hka⟩ := CompileM.bind_eq_ok h
  obtain ⟨rfl, ⟨hlt, rfl⟩ | ⟨-, rfl⟩⟩ := CompileM.advance_eq_ok hadvance
  · refine (Compiler.Along.step ?_).trans (hk _ _ b c' hka)
    rw [Compiler.kindAt_cursor hlt, ← Bool.not_eq_true]
    exact fun hkind => hbreak _ hkind _ _ _ hka
  · exact hk _ _ b c' hka

end Inlines

namespace InlinesAt

/-- A token that is known to be no break may be taken. -/
theorem advance {k : Token → CompileM β} (hkind : kind.isBreak = false)
    (hk : ∀ token, Inlines (k token)) : InlinesAt kind (CompileM.advance >>= k) := by
  intro c b c' hc h
  obtain ⟨token, c₁, hadvance, hka⟩ := CompileM.bind_eq_ok h
  obtain ⟨rfl, ⟨hlt, rfl⟩ | ⟨-, rfl⟩⟩ := CompileM.advance_eq_ok hadvance
  · exact (Compiler.Along.step (by rw [hc hlt]; exact hkind)).trans (hk _ _ b c' hka)
  · exact hk _ _ b c' hka

theorem take (hkind : kind.isBreak = false) : InlinesAt kind CompileM.advance := by
  intro c a c' hc h
  obtain ⟨-, ⟨hlt, rfl⟩ | ⟨-, rfl⟩⟩ := CompileM.advance_eq_ok h
  · exact .step (by rw [hc hlt]; exact hkind)
  · exact .refl _

theorem bind {x : CompileM α} {k : α → CompileM β} (hx : InlinesAt kind x)
    (hk : ∀ a, Inlines (k a)) : InlinesAt kind (x >>= k) := by
  intro c b c' hc h
  obtain ⟨a, c₁, hxa, hka⟩ := CompileM.bind_eq_ok h
  exact (hx c a c₁ hc hxa).trans (hk a c₁ b c' hka)

/-- Before a token is taken, what leaves the reader alone makes no difference. -/
theorem idle_bind {x : CompileM α} {k : α → CompileM β} (hx : Idle x)
    (hk : ∀ a, InlinesAt kind (k a)) : InlinesAt kind (x >>= k) := by
  intro c b c' hc h
  obtain ⟨a, c₁, hxa, hka⟩ := CompileM.bind_eq_ok h
  cases hx c with
  | done hx' _ hbeside =>
    obtain ⟨rfl, rfl⟩ := Prod.mk.inj (Except.ok.inj (hx'.symm.trans hxa))
    refine (Compiler.Along.of_beside hbeside).trans (hk _ _ b c' (fun hlt => ?_) hka)
    rw [Compiler.kindAt_of_tokens hbeside.tokens, hbeside.cursor]
    exact hc (by rw [← hbeside.tokens, ← hbeside.cursor]; exact hlt)
  | stopped hx' =>
    rw [hxa] at hx'
    cases hx'

end InlinesAt

/-- A token of a known kind is taken; what follows starts behind it. -/
theorem Compiler.Along.of_advance {c c' : Compiler} {k : Token → CompileM β} {b : β}
    (hkind : c.kindAt c.cursor = kind) (hbreak : kind.isBreak = false)
    (h : (CompileM.advance >>= k) c = .ok (b, c'))
    (hk : k c.current { c with cursor := c.cursor + 1 } = .ok (b, c') →
      Compiler.Along { c with cursor := c.cursor + 1 } c') : c.Along c' := by
  obtain ⟨token, c₁, hadvance, hka⟩ := CompileM.bind_eq_ok h
  obtain ⟨rfl, ⟨-, rfl⟩ | ⟨hge, -⟩⟩ := CompileM.advance_eq_ok hadvance
  · exact (Along.step (by rw [hkind]; exact hbreak)).trans (hk hka)
  · rw [kindAt, Array.getElem?_eq_none hge] at hkind
    subst hkind
    cases hbreak

/-- The productions, all but statements, only read on. -/
structure Productions.Inline (g : Productions) : Prop where
  expression : ∀ min, Inlines (g.expression min)
  operand : Inlines g.operand
  typeExpr : ∀ indirection, Inlines (g.typeExpr indirection)
  instantiate : ∀ template arguments token, Inlines (g.instantiate template arguments token)

attribute [grind ←] Productions.Inline.expression Productions.Inline.operand
  Productions.Inline.typeExpr Productions.Inline.instantiate

/-! ### Tokens -/

namespace CompileM

theorem inlines_matchKind {k : TokenKind} (hk : k.isBreak = false) : Inlines (matchKind k) := by
  unfold matchKind check
  rw [bind_assoc]
  refine .of_kind fun kind => ?_
  rw [pure_bind]
  split
  · next hkind =>
    rw [beq_iff_eq.mp hkind]
    exact .advance hk fun _ => .of_idle (.pure _)
  · exact (Inlines.of_idle (.pure _)).at_

theorem inlines_consume {k : TokenKind} (hk : k.isBreak = false) (expected : String) :
    Inlines (consume k expected) := by
  unfold consume check
  rw [bind_assoc]
  refine .of_kind fun kind => ?_
  rw [pure_bind]
  split
  · next hkind =>
    rw [beq_iff_eq.mp hkind]
    exact .take hk
  · exact (Inlines.of_fails (.bind fun _ => .failExpected _ _)).at_

@[grind ←] theorem inlines_matchKind_symbol (s : Symbol) : Inlines (matchKind (.symbol s)) :=
  inlines_matchKind rfl

@[grind ←] theorem inlines_consume_symbol (s : Symbol) (expected : String) :
    Inlines (consume (.symbol s) expected) :=
  inlines_consume rfl expected

@[grind ←] theorem inlines_identifier (what : String) : Inlines (identifier what) :=
  inlines_consume rfl what

@[grind ←] theorem idle_budget : Idle budget :=
  .ask _

end CompileM

/-! ### Types -/

namespace TypeExpr

/-- The suffixes behind a type: each is known by its tokens before they are taken. -/
theorem inlines_suffixes (indirection : Bool) (budget : Nat) (ty : Ty) :
    Inlines (suffixes indirection budget ty) := by
  induction budget generalizing ty with
  | zero => exact .failFuel
  | succ budget ih =>
    intro c a c' h
    have hreturn : (pure ty : CompileM Ty) c = .ok (a, c') → c.Along c' :=
      (Inlines.of_idle (.pure ty)) c a c'
    -- the length has been seen to be a number; it may still be too large
    have hspan : ∀ (length : Token) (found : Option Nat), Inlines (found.elim (failLiteral length)
        fun n => suffixes indirection budget (.span ty (UInt16.ofNat n))) := by
      intro length found
      cases found with
      | none => exact .of_fails (.failLiteral _)
      | some n => exact ih _
    rw [suffixes] at h
    have h := (CompileM.ask_bind _ _ c).symm.trans h
    generalize hkind : c.kindAt c.cursor = kind at h
    split at h
    · have h := (CompileM.ask_bind _ _ c).symm.trans h
      have h := (CompileM.ask_bind _ _ c).symm.trans h
      split at h
      · next hahead =>
        obtain ⟨hlength, hclose⟩ := Bool.and_eq_true_iff.mp hahead
        refine .of_advance hkind rfl h fun h₁ => .of_advance (beq_iff_eq.mp hlength) rfl h₁ fun h₂ =>
          .of_advance (beq_iff_eq.mp hclose) rfl h₂ fun h₃ => by
            generalize Literal.natural? 65535 _ = found at h₃
            exact hspan _ found _ _ _ (by cases found <;> exact h₃)
      · exact hreturn h
    · have h := (CompileM.ask_bind _ _ c).symm.trans h
      split at h
      · next hclose =>
        exact .of_advance hkind rfl h fun h₁ =>
          .of_advance (beq_iff_eq.mp hclose) rfl h₁ (ih _ _ _ _)
      · exact hreturn h
    · split at h
      · exact .of_advance hkind rfl h (ih _ _ _ _)
      · exact hreturn h
    · split at h
      · exact .of_advance hkind rfl h (ih _ _ _ _)
      · exact hreturn h
    · exact hreturn h

theorem inlines_arguments (hg : g.Inline) (budget : Nat) (done : List Ty) :
    Inlines (arguments g budget done) := by
  induction budget generalizing done with
  | zero => exact .failFuel
  | succ budget ih =>
    unfold arguments
    grind -funext

@[grind ←] theorem inlines_applyTemplate (hg : g.Inline) (template : Nat) (args : List Ty)
    (token : Token) : Inlines (applyTemplate g template args token) := by
  unfold applyTemplate
  grind -funext

@[grind ←] theorem inlines_named (hg : g.Inline) (token : Token) : Inlines (named g token) := by
  have harguments := inlines_arguments hg
  unfold named
  refine .after (.ask _) fun bound => ?_
  split
  · exact .of_idle (.pure _)
  split
  · exact .of_idle (.pure _)
  refine .after (.ask _) fun entry => ?_
  split
  · exact .of_idle (.pure _)
  · refine .bind (CompileM.inlines_consume_symbol _ _) fun _ => ?_
    refine .after CompileM.tracks_budget.idle fun n => ?_
    grind -funext
  · exact .of_fails (.fail _ _)

@[grind ←] theorem inlines_read (hg : g.Inline) (indirection : Bool) :
    Inlines (read g indirection) := by
  have hsuffixes := inlines_suffixes indirection
  unfold read
  grind -funext

mutual

@[grind ←] theorem inlines_resolve (hg : g.Inline) (token : Token) :
    ∀ ty : Ty, Inlines (resolve g token ty)
  | .generic template args => by
    rw [resolve]
    have hargs := inlines_resolveAll hg token args
    grind -funext
  | .span element _ | .list element | .pointer element | .reference element => by
    rw [resolve]
    have helement := inlines_resolve hg token element
    grind -funext
  | .placeholder _ | .void | .bool | .int | .float | .string | .structure_ _ => by
    rw [resolve]
    grind -funext

@[grind ←] theorem inlines_resolveAll (hg : g.Inline) (token : Token) :
    ∀ tys : List Ty, Inlines (resolveAll g token tys)
  | [] => by
    rw [resolveAll]
    exact .of_idle (.pure _)
  | ty :: tys => by
    rw [resolveAll]
    have hty := inlines_resolve hg token ty
    have htys := inlines_resolveAll hg token tys
    grind -funext

end

end TypeExpr

/-! ### Calls and accessors -/

namespace Call

@[grind ←] theorem inlines_argument (hg : g.Inline) (parameter : Option Parameter) :
    Inlines (argument g parameter) := by
  unfold argument
  refine .after CompileM.tracks_current.idle fun token => ?_
  split
  · exact .bind hg.operand (by grind -funext)
  · exact .bind (hg.expression _) (by grind -funext)
  · exact .bind (hg.expression _) (by grind -funext)

theorem inlines_arguments (hg : g.Inline) (parameters : List Parameter) (budget found words : Nat) :
    Inlines (arguments g parameters budget found words) := by
  induction budget generalizing found words with
  | zero => exact .failFuel
  | succ budget ih =>
    unfold arguments
    grind -funext

@[grind ←] theorem inlines_read (hg : g.Inline) (header : FunctionHeader)
    (receiver : Option Place) (token : Token) : Inlines (read g header receiver token) := by
  unfold read
  refine .bind (CompileM.inlines_consume_symbol _ _) fun _ => ?_
  -- What follows the arguments is the same for both; then come the arguments and the receiver.
  extract_lets returned counted passed
  have hcounted : ∀ r, Inlines (counted r) := by
    intro r
    refine .bind (CompileM.inlines_consume_symbol _ _) fun _ => .of_idle ?_
    grind -funext
  clear_value counted
  have hpassed : ∀ words, Inlines (passed words) := by
    intro words
    refine .after (CompileM.tracks_check _).idle fun empty => ?_
    split
    · exact .after (.pure _) hcounted
    · refine .after CompileM.tracks_budget.idle fun n => ?_
      exact .bind (inlines_arguments hg _ _ _ _) hcounted
  clear_value passed
  split
  · exact .after (.pure _) hpassed
  · exact .after (CompileM.tracks_addressOf _).idle fun _ => .after (.pure _) hpassed

end Call

namespace Access

@[grind ←] theorem inlines_push (hg : g.Inline) (operand : Operand) (ty : Ty) (name : Token) :
    Inlines (push g operand ty name) := by
  unfold push
  refine .after (CompileM.tracks_placeOf (Walk.good_free _) _).idle fun list => ?_
  refine .after (CompileM.tracks_addressOf _).idle fun _ => ?_
  refine .bind (CompileM.inlines_consume_symbol _ _) fun _ => ?_
  refine .after CompileM.tracks_current.idle fun _ => ?_
  refine .bind (hg.expression _) fun _ => ?_
  grind -funext

@[grind ←] theorem inlines_memberCall (hg : g.Inline) (operand : Operand) (name : Token) :
    Inlines (memberCall g operand name) := by
  unfold memberCall
  split
  · grind -funext
  · refine .after (.ask _) fun method => ?_
    split
    · exact .of_idle (.of_tracks (.failMember _ _ _))
    · refine .after (CompileM.tracks_placeOf (Walk.good_free _) _).idle fun receiver => ?_
      exact .bind (Call.inlines_read hg _ _ _) fun _ => .of_idle (.pure _)
  · exact .of_idle (.of_tracks (.failMember _ _ _))

@[grind ←] theorem inlines_indexExpression (hg : g.Inline) : Inlines (indexExpression g) := by
  unfold indexExpression
  grind -funext

/-- Behind the dot stands a name or a number. -/
theorem inlinesAt_member (hg : g.Inline) (operand : Operand) :
    InlinesAt (.symbol .dot) (member g operand) := by
  unfold member
  refine .advance rfl fun dot => ?_
  refine .after (CompileM.tracks_deref (Walk.good_free _)).idle fun target => ?_
  refine .advance_of_fails (fun token hbreak => ?_) fun token => ?_
  · cases hkind : token.kind <;> rw [hkind] at hbreak <;> first | cases hbreak | skip
    all_goals exact .failExpected _ _
  · split
    · grind
    · grind -funext
    · exact .of_fails (.failExpected _ _)

theorem inlinesAt_index (hg : g.Inline) (operand : Operand) :
    InlinesAt (.symbol .leftBracket) (index g operand) := by
  unfold index
  refine .advance rfl fun _ => .after (CompileM.tracks_deref (Walk.good_free _)).idle fun o => ?_
  split
  · refine .after (CompileM.tracks_placeOf (Walk.good_free _) _).idle fun span => ?_
    -- the address of the span is computed, unless it lies on the stack already
    extract_lets indexed
    have hindexed : ∀ offset, Inlines (indexed offset) := by
      intro offset
      refine .after (CompileM.tracks_wordsOf (Walk.good_free _)).idle fun _ => ?_
      refine .after (CompileM.tracks_byte _ _).idle fun _ => ?_
      grind -funext
    clear_value indexed
    grind -funext
  · refine .after (CompileM.tracks_load (Walk.good_free _)).idle fun _ => ?_
    refine .after (CompileM.tracks_wordsOf (Walk.good_free _)).idle fun _ => ?_
    grind -funext
  · grind -funext

end Access

/-! ### Expressions -/

namespace Expression

@[grind ←] theorem inlines_operators (hg : g.Inline) (min : Precedence) (budget : Nat) (left : Ty) :
    Inlines (operators g min budget left) := by
  induction budget generalizing left with
  | zero => exact .failFuel
  | succ budget ih =>
    unfold operators
    refine .of_kind fun kind => ?_
    split
    · exact (Inlines.of_idle (.pure _)).at_
    · next hprecedence =>
      split
      · exact (Inlines.of_idle (.pure _)).at_
      · refine .advance ?_ (by grind -funext)
        cases kind with
        | keyword k => cases k <;> first | rfl | cases hprecedence
        | symbol s => rfl
        | _ => cases hprecedence

@[grind ←] theorem inlines_continue_ (hg : g.Inline) (operand : Operand) (min : Precedence)
    (token : Token) : Inlines (continue_ g operand min token) := by
  unfold continue_
  grind -funext

@[grind ←] theorem inlines_spanElements (hg : g.Inline) (element : Ty) (budget length : Nat) :
    Inlines (spanElements g element budget length) := by
  induction budget generalizing length with
  | zero => exact .failFuel
  | succ budget ih =>
    unfold spanElements
    grind -funext

theorem inlinesAt_spanLiteral (hg : g.Inline) : InlinesAt (.symbol .leftBrace) (spanLiteral g) := by
  unfold spanLiteral
  refine .advance rfl fun _ => .after (CompileM.tracks_check _).idle fun _ => ?_
  -- What follows the check that there is an element.
  extract_lets elements
  have helements : ∀ u, Inlines (elements u) := by
    intro _
    refine .after CompileM.tracks_current.idle fun first => ?_
    refine .bind (hg.expression _) fun element => ?_
    extract_lets counted
    have hcounted : ∀ u, Inlines (counted u) := by
      intro _
      refine .after CompileM.tracks_budget.idle fun n => ?_
      refine .bind (inlines_spanElements hg _ _ _) fun _ => ?_
      grind -funext
    clear_value counted
    grind -funext
  clear_value elements
  grind -funext

@[grind ←] theorem inlines_initialisers (hg : g.Inline) (s : StructureType) (token : Token)
    (budget : Nat) : Inlines (initialisers g s token budget) := by
  induction budget with
  | zero => exact .failFuel
  | succ budget ih =>
    unfold initialisers
    refine .bind (CompileM.inlines_identifier _) fun name => ?_
    split
    · exact .of_fails (.fail _ _)
    · refine .bind (CompileM.inlines_consume_symbol _ _) fun _ => ?_
      refine .after CompileM.tracks_current.idle fun _ => .bind (hg.expression _) fun _ => ?_
      refine .after (CompileM.tracks_expectType _ _).idle fun _ => ?_
      refine .after (CompileM.tracks_wordsOf (Walk.good_free _)).idle fun _ => ?_
      grind -funext

@[grind ←] theorem inlines_structureLiteral (hg : g.Inline) (id : Nat) (token : Token) :
    Inlines (structureLiteral g id token) := by
  unfold structureLiteral
  refine .bind (CompileM.inlines_consume_symbol _ _) fun _ => .after (.ask _) fun s => ?_
  refine .after (CompileM.tracks_short _ _).idle fun _ => ?_
  refine .after (CompileM.tracks_emit _).idle fun _ => ?_
  grind -funext

theorem inlines_typeLiteral (hg : g.Inline) : Inlines (typeLiteral g) := by
  unfold typeLiteral
  refine .after CompileM.tracks_current.idle fun token => ?_
  refine .bind (TypeExpr.inlines_read hg _) fun ty => ?_
  refine .after (CompileM.tracks_check _).idle fun braced => ?_
  split
  · split
    · exact inlines_structureLiteral hg _ _
    · exact .after (CompileM.tracks_typeName _).idle fun _ => .of_fails (.failMismatch _ _ _)
  · refine .of_idle ?_
    split
    · refine .bind (CompileM.tracks_wordsOf (Walk.good_free _)).idle fun _ => ?_
      grind
    · refine .bind (CompileM.tracks_wordsOf (Walk.good_free _)).idle fun _ => ?_
      grind
    · exact .bind CompileM.tracks_current.idle fun _ => .fail (by simp)

theorem inlinesAt_conversion (hg : g.Inline) : InlinesAt .identifier (conversion g) := by
  unfold conversion
  refine .advance rfl fun token => .bind (CompileM.inlines_consume_symbol _ _) fun _ => ?_
  refine .after CompileM.tracks_current.idle fun _ => .bind (hg.expression _) fun ty => ?_
  refine .bind (CompileM.inlines_consume_symbol _ _) fun _ => .of_idle ?_
  grind -funext

theorem inlinesAt_name (hg : g.Inline) : InlinesAt .identifier (name g) := by
  unfold name
  refine .idle_bind CompileM.tracks_current.idle fun token => .idle_bind (.ask _) fun v => ?_
  split
  · exact .advance rfl fun _ => .of_idle (CompileM.tracks_variableOperand (Walk.good_free _)).idle
  · refine .idle_bind (CompileM.tracks_kindAhead 1).idle fun next => ?_
    split
    · split
      · exact inlinesAt_conversion hg
      · refine .idle_bind (.ask _) fun header => ?_
        split
        · exact (Inlines.of_fails (.fail _ _)).at_
        · exact .advance rfl (by grind -funext)
    · refine .idle_bind (.ask _) fun isType => ?_
      split
      · exact (inlines_typeLiteral hg).at_
      · exact (Inlines.of_fails (.fail _ _)).at_

theorem inlines_primary (hg : g.Inline) : Inlines (primary g) := by
  unfold primary
  refine .of_current fun token => ?_
  split
  · next hkind => rw [hkind]; exact .advance rfl (by grind -funext)
  · next hkind => rw [hkind]; exact .advance rfl (by grind -funext)
  · next hkind => rw [hkind]; exact .advance rfl (by grind -funext)
  · next hkind => rw [hkind]; exact .advance rfl (by grind -funext)
  · next hkind => rw [hkind]; exact .advance rfl (by grind -funext)
  · next hkind => rw [hkind]; exact .advance rfl (by grind -funext)
  · next hkind => rw [hkind]; exact inlinesAt_spanLiteral hg
  · next hkind => rw [hkind]; exact inlinesAt_name hg
  · exact (Inlines.of_fails (.failExpected _ _)).at_

theorem inlines_accessors (hg : g.Inline) (budget : Nat) (operand : Operand) :
    Inlines (accessors g budget operand) := by
  induction budget generalizing operand with
  | zero => exact .failFuel
  | succ budget ih =>
    unfold accessors
    refine .of_kind fun kind => ?_
    split
    · exact (Access.inlinesAt_member hg operand).bind fun _ => ih _
    · exact (Access.inlinesAt_index hg operand).bind fun _ => ih _
    · exact (Inlines.of_idle (.pure _)).at_

theorem inlines_operand (hg : g.Inline) : Inlines (operand g) := by
  have hprimary : Inlines
      (primary g >>= fun first => CompileM.budget >>= fun n => accessors g n first) :=
    .bind (inlines_primary hg) fun _ =>
      .after CompileM.tracks_budget.idle fun _ => inlines_accessors hg _ _
  unfold operand
  refine .of_kind fun kind => ?_
  split
  · unfold negation
    exact .advance rfl (by grind -funext)
  · unfold complement
    exact .advance rfl (by grind -funext)
  · unfold boxed
    exact .advance rfl (by grind -funext)
  · exact hprimary.at_

theorem inlines_read (hg : g.Inline) (min : Precedence) : Inlines (read g min) := by
  unfold read
  refine .after CompileM.tracks_current.idle fun token => ?_
  exact .bind (inlines_operand hg) fun first => inlines_continue_ hg first min token

end Expression

/-! ### Heads of functions, instances -/

namespace Function

@[grind ←] theorem inlines_parameter (hg : g.Inline) (before : List Parameter) :
    Inlines (parameter g before) := by
  unfold parameter
  refine .after CompileM.tracks_current.idle fun token => ?_
  refine .bind (TypeExpr.inlines_read hg true) fun ty => ?_
  grind -funext

@[grind ←] theorem inlines_parameters (hg : g.Inline) (budget : Nat) (done : List Parameter) :
    Inlines (parameters g budget done) := by
  induction budget generalizing done with
  | zero => exact .failFuel
  | succ budget ih =>
    unfold parameters
    grind -funext

@[grind ←] theorem inlines_result (hg : g.Inline) : Inlines (result g) := by
  unfold result
  refine .bind (CompileM.inlines_matchKind rfl) fun given => ?_
  grind -funext

theorem inlines_signature (hg : g.Inline) : Inlines (signature g) := by
  unfold signature
  refine .bind (CompileM.inlines_consume rfl _) fun _ => ?_
  refine .bind (CompileM.inlines_identifier _) fun name => ?_
  refine .bind (CompileM.inlines_consume_symbol _ _) fun _ => ?_
  extract_lets listed
  have hlisted : ∀ r, Inlines (listed r) := by
    intro r
    grind -funext
  clear_value listed
  grind -funext

end Function

namespace Structure

/-- The methods of a structure are read where they stand; then the reader is where it was. -/
theorem methods_eq_ok {id depth : Nat} {at_ : List Nat} {tokens : Array Token} {bindings : Bindings}
    {c c' : Compiler} (h : methods g id at_ depth tokens bindings c = .ok ((), c')) :
    c'.tokens = c.tokens ∧ c'.cursor = c.cursor := by
  unfold methods at h
  have h := (CompileM.ask_bind _ _ c).symm.trans h
  have h := (CompileM.ask_bind _ _ c).symm.trans h
  obtain ⟨_, c₁, -, h⟩ := CompileM.bind_eq_ok h
  obtain ⟨_, c₂, -, h⟩ := CompileM.bind_eq_ok h
  cases h
  exact ⟨rfl, rfl⟩

theorem inlines_methods (id : Nat) (at_ : List Nat) (depth : Nat) (tokens : Array Token)
    (bindings : Bindings) : Inlines (methods g id at_ depth tokens bindings) := by
  intro c _ c' h
  obtain ⟨htokens, hcursor⟩ := methods_eq_ok h
  exact .of_cursor htokens hcursor

@[grind ←] theorem inlines_instanceFields (hg : g.Inline) (definition : StructureTemplate)
    (arguments : List Ty) (fields : List FieldTemplate) :
    Inlines (instanceFields g definition arguments fields) := by
  induction fields with
  | nil => exact .of_idle (.pure _)
  | cons f rest ih =>
    unfold instanceFields
    grind -funext

@[grind ←] theorem inlines_makeInstance (hg : g.Inline) (template : Nat)
    (definition : StructureTemplate) (arguments : List Ty) (token : Token) :
    Inlines (makeInstance g template definition arguments token) := by
  unfold makeInstance
  refine .bind (.of_modifyGet (fun _ => rfl) fun _ => rfl) fun id => ?_
  refine .bind (inlines_instanceFields hg _ _ _) fun fields => .after (idle_layout _ _ _) fun _ => ?_
  exact .bind (inlines_methods _ _ _ _ _) fun _ => .of_idle (.pure id)

theorem inlines_instantiate (hg : g.Inline) (template : Nat) (arguments : List Ty) (token : Token) :
    Inlines (instantiate g template arguments token) := by
  unfold instantiate
  refine .after (.ask _) fun found => ?_
  split
  · exact .of_idle (.pure _)
  refine .after (TypeExpr.tracks_checkArgumentCount _ _ _ _).idle fun _ => ?_
  refine .after (.ask _) fun known => ?_
  split
  · exact .of_fails (.fail _ _)
  extract_lets deepened made
  have hdeepened : ∀ u, Inlines (deepened u) := by
    intro u
    refine .bind (.of_modifyGet (fun _ => rfl) fun _ => rfl) fun _ => ?_
    refine .bind (inlines_makeInstance hg _ _ _ _) fun id => ?_
    exact .bind (.of_modifyGet (fun _ => rfl) fun _ => rfl) fun _ => .of_idle (.pure id)
  clear_value deepened
  have hmade : ∀ u, Inlines (made u) := by
    intro u
    refine .after (.ask _) fun depth => ?_
    split
    · exact .bind (.of_fails (.fail _ _)) hdeepened
    · exact hdeepened ()
  clear_value made
  split
  · exact .bind (.of_fails (.fail _ _)) hmade
  · exact hmade ()

end Structure

/-- Expressions and types read on and pass no break, whatever the fuel. -/
theorem productions_inline : ∀ fuel : Nat, (productions fuel).Inline := by
  intro fuel
  induction fuel with
  | zero => exact ⟨fun _ => .failFuel, .failFuel, fun _ => .failFuel, fun _ _ _ => .failFuel⟩
  | succ fuel ih =>
    exact ⟨fun min => Expression.inlines_read ih min, Expression.inlines_operand ih,
      fun indirection => TypeExpr.inlines_read ih indirection,
      fun template arguments token => Structure.inlines_instantiate ih template arguments token⟩

end WordScript
