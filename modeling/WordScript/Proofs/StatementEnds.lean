/-
Where statements end.

A statement without a body reads on along its line up to a terminator, which it takes, or
up to an `else` or the end of the file, before which it stops.  A statement that owns a
body reads its head along the line and ends where the body ends.  So between statements
the compiler stands at the beginning of a line, at the end of the file, or before an
`else` in the middle of a line.

* `Compiler.Stops`, `Closes`, `ClosesAt` — reading on to the end of a statement;
* `Statement.head?` — what is read before the body of a statement that owns one;
* `Statement.read_eq_ok` — a statement is its head and its body, or it is a
  conditional, the declaration of a structure, or closed on its line;
* `Compiler.Rests` — the places between statements.
-/
import WordScript.Proofs.LineReading

namespace WordScript

variable {α β : Type} {g : Productions} {kind : TokenKind} {c c' c₁ c₂ : Compiler}

/-! ### The end of a line -/

namespace Compiler

/-- Read on up to the end of a statement: past a terminator, or to the place before an `else` or the
end of the file. -/
inductive Stops (c c' : Compiler) : Prop
  | past {c₁ : Compiler} (along : c.Along c₁) (kind : c₁.kindAt c₁.cursor = .statementTerminator)
      (tokens : c'.tokens = c₁.tokens) (cursor : c'.cursor = c₁.cursor + 1)
  | before (along : c.Along c')
      (kind : c'.kindAt c'.cursor = .keyword .else_ ∨ c'.kindAt c'.cursor = .endOfFile)

theorem Along.stops (h : c.Along c₁) (hstops : c₁.Stops c') : c.Stops c' := by
  cases hstops with
  | past along kind tokens cursor => exact .past (h.trans along) kind tokens cursor
  | before along kind => exact .before (h.trans along) kind

theorem Stops.tokens (h : c.Stops c') : c'.tokens = c.tokens := by
  cases h with
  | past along _ tokens _ => exact tokens.trans along.tokens
  | before along _ => exact along.tokens

theorem Stops.beside (h : c.Stops c₁) (hbeside : c₁.Beside c') : c.Stops c' := by
  cases h with
  | past along kind tokens cursor =>
    exact .past along kind (hbeside.tokens.trans tokens) (hbeside.cursor.trans cursor)
  | before along kind =>
    refine .before (along.trans (.of_beside hbeside)) ?_
    rwa [kindAt_of_tokens hbeside.tokens, hbeside.cursor]

end Compiler

/-- If the computation succeeds, it has read on up to the end of a statement. -/
def Closes (x : CompileM α) : Prop :=
  ∀ (c : Compiler) (a : α) (c' : Compiler), x c = .ok (a, c') → c.Stops c'

/-- The same where the next token is of a kind that is known. -/
def ClosesAt (kind : TokenKind) (x : CompileM α) : Prop :=
  ∀ (c : Compiler) (a : α) (c' : Compiler), c.kindAt c.cursor = kind → x c = .ok (a, c') →
    c.Stops c'

theorem Idle.beside_of_eq_ok {x : CompileM α} (hx : Idle x) {a : α} (h : x c = .ok (a, c')) :
    c.Beside c' := by
  cases hx c with
  | done hx' _ hbeside =>
    obtain ⟨rfl, rfl⟩ := Prod.mk.inj (Except.ok.inj (hx'.symm.trans h))
    exact hbeside
  | stopped hx' =>
    rw [h] at hx'
    cases hx'

namespace Closes

theorem at_ {x : CompileM α} (h : Closes x) : ClosesAt kind x :=
  fun c a c' _ hx => h c a c' hx

@[grind ←] theorem bind {x : CompileM α} {k : α → CompileM β} (hx : Inlines x)
    (hk : ∀ a, Closes (k a)) : Closes (x >>= k) := by
  intro c b c' h
  obtain ⟨a, c₁, hxa, hka⟩ := CompileM.bind_eq_ok h
  exact (hx c a c₁ hxa).stops (hk a c₁ b c' hka)

@[grind ←] theorem after {x : CompileM α} {k : α → CompileM β} (hx : Idle x)
    (hk : ∀ a, Closes (k a)) : Closes (x >>= k) :=
  .bind (.of_idle hx) hk

/-- After the end of the statement the reader is left alone. -/
theorem then_idle {x : CompileM α} {k : α → CompileM β} (hx : Closes x) (hk : ∀ a, Idle (k a)) :
    Closes (x >>= k) := by
  intro c b c' h
  obtain ⟨a, c₁, hxa, hka⟩ := CompileM.bind_eq_ok h
  exact (hx c a c₁ hxa).beside ((hk a).beside_of_eq_ok hka)

theorem of_fails {x : CompileM α} (h : Fails x) : Closes x :=
  fun _ _ _ hx => absurd hx (h _ _ _)

theorem of_kind {k : TokenKind → CompileM α} (h : ∀ kind, ClosesAt kind (k kind)) :
    Closes (CompileM.kind >>= k) :=
  fun c a c' hx => h (c.kindAt c.cursor) c a c' rfl hx

end Closes

namespace ClosesAt

theorem bind {x : CompileM α} {k : α → CompileM β} (hx : InlinesAt kind x)
    (hk : ∀ a, Closes (k a)) : ClosesAt kind (x >>= k) := by
  intro c b c' hc h
  obtain ⟨a, c₁, hxa, hka⟩ := CompileM.bind_eq_ok h
  exact (hx c a c₁ (fun _ => hc) hxa).stops (hk a c₁ b c' hka)

theorem advance {k : Token → CompileM α} (hkind : kind.isBreak = false)
    (hk : ∀ token, Closes (k token)) : ClosesAt kind (CompileM.advance >>= k) :=
  .bind (.take hkind) hk

end ClosesAt

@[grind ←] theorem CompileM.closes_endStatement : Closes endStatement := by
  intro c _ c' h
  rw [endStatement] at h
  have h := (ask_bind _ _ c).symm.trans h
  generalize hkind : c.kindAt c.cursor = kind at h
  split at h
  · obtain ⟨token, c₁, hadvance, hreturn⟩ := bind_eq_ok h
    cases hreturn
    obtain ⟨-, ⟨-, rfl⟩ | ⟨hge, -⟩⟩ := advance_eq_ok hadvance
    · exact .past (.refl c) hkind rfl rfl
    · rw [Compiler.kindAt, Array.getElem?_eq_none hge] at hkind
      cases hkind
  · cases h
    exact .before (.refl c) (.inl hkind)
  · cases h
    exact .before (.refl c) (.inr hkind)
  · exact absurd h (Fails.bind (fun _ => .failExpected _ _) _ _ _)

/-! ### Statements without a body -/

namespace Statement

theorem inlines_condition (hg : g.Inline) : Inlines (condition g) := by
  unfold condition
  grind -funext

theorem closesAt_variable_ (hg : g.Inline) : ClosesAt (.keyword .var) (variable_ g) := by
  unfold variable_
  refine .advance rfl fun _ => .bind (CompileM.inlines_identifier _) fun name => ?_
  refine .bind (CompileM.inlines_consume_symbol _ _) fun _ => ?_
  refine .after CompileM.tracks_current.idle fun _ => ?_
  refine .bind (hg.expression _) fun ty => ?_
  grind -funext

theorem closesAt_break_ : ClosesAt (.keyword .break_) break_ := by
  unfold break_
  exact .advance rfl (by grind -funext)

theorem closesAt_continue_ : ClosesAt (.keyword .continue_) continue_ := by
  unfold continue_
  exact .advance rfl (by grind -funext)

theorem closesAt_return_ (hg : g.Inline) : ClosesAt (.keyword .return_) (return_ g) := by
  unfold return_
  refine .advance rfl fun token => .after (.ask _) fun returns => .after (.ask _) fun inEntry => ?_
  refine .after CompileM.tracks_atStatementEnd.idle fun ended => ?_
  split
  · grind -funext
  · split
    · exact .of_fails (.fail _ _)
    · refine .after CompileM.tracks_current.idle fun _ => .bind (hg.expression _) fun ty => ?_
      refine .after (CompileM.tracks_expectType _ _).idle fun _ => ?_
      grind -funext

theorem closesAt_yield (hg : g.Inline) : ClosesAt (.keyword .yield) (yield g) := by
  unfold yield
  exact .advance rfl (by grind -funext)

theorem closesAt_free (hg : g.Inline) : ClosesAt (.keyword .free) (free g) := by
  unfold free
  refine .advance rfl fun _ => .bind hg.operand fun _ => ?_
  refine .after (CompileM.tracks_placeOf (Walk.good_free _) _).idle fun target => ?_
  extract_lets freed
  have hfreed : ∀ u, Closes (freed u) := fun _ => CompileM.closes_endStatement
  clear_value freed
  split
  · refine .after (CompileM.tracks_wordsOf (Walk.good_free _)).idle fun _ => ?_
    grind -funext
  · refine .after (CompileM.tracks_wordsOf (Walk.good_free _)).idle fun _ => ?_
    grind -funext
  · grind -funext

theorem inlinesAt_assign (hg : g.Inline) (hkind : kind.isBreak = false) (operand : Operand)
    (token : Token) : InlinesAt kind (assign g operand token) := by
  unfold assign
  refine .advance hkind fun _ => ?_
  refine .after (CompileM.tracks_placeOf (Walk.good_free _) _).idle fun _ => ?_
  grind -funext

theorem inlinesAt_update (hg : g.Inline) (hkind : kind.isBreak = false) (operand : Operand)
    (token : Token) : InlinesAt kind (update g operand token) := by
  unfold update
  refine .advance hkind fun op => ?_
  refine .after (CompileM.tracks_placeOf (Walk.good_free _) _).idle fun target => ?_
  split
  · exact .of_idle (.of_tracks (.failOperands _ _ _ _))
  · refine .after (tracks_loadForUpdate (Walk.good_free _) _ _).idle fun _ => ?_
    refine .after CompileM.tracks_current.idle fun _ => ?_
    grind -funext

theorem inlinesAt_step (hkind : kind.isBreak = false) (operand : Operand) (opcode : Opcode)
    (token : Token) : InlinesAt kind (step operand opcode token) := by
  unfold step
  exact .advance hkind fun op => .of_idle (by grind)

theorem closes_expression (hg : g.Inline) : Closes (expression g) := by
  unfold expression
  refine .after CompileM.tracks_current.idle fun token => ?_
  refine .bind (Expression.inlines_operand hg) fun operand => .of_kind fun kind => ?_
  extract_lets ended
  have hended : ∀ u, Closes (ended u) := fun _ => CompileM.closes_endStatement
  clear_value ended
  split
  · exact .bind (inlinesAt_assign hg rfl _ _) hended
  · exact .bind (inlinesAt_update hg rfl _ _) hended
  · exact .bind (inlinesAt_update hg rfl _ _) hended
  · exact .bind (inlinesAt_update hg rfl _ _) hended
  · exact .bind (inlinesAt_update hg rfl _ _) hended
  · exact .bind (inlinesAt_step rfl _ _ _) hended
  · exact .bind (inlinesAt_step rfl _ _ _) hended
  · exact Closes.at_ (by grind -funext)

end Statement

theorem Function.closesAt_external (hg : g.Inline) : ClosesAt (.keyword .external) (external g) := by
  unfold external
  refine .advance rfl fun _ => .bind (inlines_signature hg) fun s => ?_
  refine .after (.ask _) fun _ => .after (CompileM.tracks_short _ _).idle fun _ => ?_
  refine .after (tracks_declareGlobal (Walk.good_free _) _ _).idle fun _ => ?_
  exact .bind (.of_modifyGet (fun _ => rfl) fun _ => rfl) fun _ => CompileM.closes_endStatement

/-! ### Between statements -/

/-- The kind of a token; past the end it is the end of the file. -/
def kindIn (tokens : Array Token) (k : Nat) : TokenKind :=
  match tokens[k]? with
  | some t => t.kind
  | none => .endOfFile

/-- A line begins here. -/
def LineStart (tokens : Array Token) (k : Nat) : Prop :=
  k = 0 ∨ ∃ j, k = j + 1 ∧ kindIn tokens j = .statementTerminator

/-- A line of some depth begins here. -/
def LineAt (tokens : Array Token) (depth start : Nat) : Prop :=
  LineStart tokens start ∧ Compiler.indentsFrom tokens start = depth

/-- The place is the first behind the indents of a line of some depth. -/
def Leads (tokens : Array Token) (depth k : Nat) : Prop :=
  ∃ start, LineAt tokens depth start ∧ k = start + depth

/-- The tokens that are counted as indents are indents. -/
theorem kindIn_of_lt_indentsFrom {tokens : Array Token} {j k : Nat}
    (h : j < Compiler.indentsFrom tokens k) : kindIn tokens (k + j) = .indent := by
  fun_induction Compiler.indentsFrom tokens k generalizing j with
  | case1 k hlt hkind ih =>
    cases j with
    | zero => rw [Nat.add_zero, kindIn, Array.getElem?_eq_getElem hlt]; exact hkind
    | succ j => rw [← Nat.add_assoc, Nat.add_right_comm]; exact ih (Nat.lt_of_succ_lt_succ h)
  | case2 => exact absurd h (Nat.not_lt_zero j)
  | case3 => exact absurd h (Nat.not_lt_zero j)

theorem indentsFrom_eq_zero {tokens : Array Token} {k : Nat} (h : kindIn tokens k ≠ .indent) :
    Compiler.indentsFrom tokens k = 0 := by
  by_contra hne
  exact h (kindIn_of_lt_indentsFrom (j := 0) (Nat.pos_of_ne_zero hne))

/-- A place between statements: the beginning of a line, the end of the file, or an `else` in the
middle of a line. -/
inductive Rests (tokens : Array Token) (k : Nat) : Prop
  | line (h : LineStart tokens k)
  | eof (h : kindIn tokens k = .endOfFile)
  | inner (h : kindIn tokens k = .keyword .else_) {j : Nat} (eq : k = j + 1)
      (before : (kindIn tokens j).isBreak = false)

namespace Compiler

/-- The compiler stands between statements. -/
abbrev Rests (c : Compiler) : Prop :=
  WordScript.Rests c.tokens c.cursor

/-- At the end of a statement that begins with another token than an `else`. -/
theorem Stops.rests (h : c.Stops c') (hkind : c.kindAt c.cursor ≠ .keyword .else_) : c'.Rests := by
  cases h with
  | past along kind tokens cursor =>
    rw [Compiler.Rests, tokens, cursor]
    exact .line (.inr ⟨_, rfl, kind⟩)
  | before along kind =>
    obtain helse | heof := kind
    · -- at least the first token has been read, and the last one is no break
      have hlt : c.cursor < c'.cursor := by
        refine Nat.lt_of_le_of_ne along.cursor fun heq => hkind ?_
        rw [heq, ← kindAt_of_tokens along.tokens]
        exact helse
      obtain ⟨j, hj⟩ := Nat.exists_eq_add_one_of_ne_zero (Nat.ne_of_gt (Nat.zero_lt_of_lt hlt))
      refine .inner helse hj ?_
      have hpassed := along.passed j (by omega) (by omega)
      rwa [← kindAt_of_tokens along.tokens] at hpassed
    · exact .eof heof

theorem Beside.rests (hbeside : c.Beside c') (h : c.Rests) : c'.Rests := by
  rw [Compiler.Rests, hbeside.tokens, hbeside.cursor]
  exact h

/-- Between statements, before the end, is the beginning of a line or an `else` inside one. -/
theorem Rests.lineStart_or_inner (h : c.Rests) (hend : c.atEnd = false) :
    LineStart c.tokens c.cursor ∨ kindIn c.tokens c.cursor = .keyword .else_ ∧ c.indentation = 0 := by
  cases h with
  | line h => exact .inl h
  | eof h =>
    have hzero : c.indentation = 0 := indentsFrom_eq_zero (by rw [h]; simp)
    have hend' : c.atEnd = true := by
      rw [atEnd, hzero]
      exact beq_iff_eq.mpr h
    rw [hend] at hend'
    cases hend'
  | inner h => exact .inr ⟨h, indentsFrom_eq_zero (by rw [h]; simp)⟩

/-- Behind the rest of a line is the beginning of a line. -/
theorem rests_lineEndFrom (tokens : Array Token) (k : Nat) :
    WordScript.Rests tokens (lineEndFrom tokens k) := by
  fun_induction lineEndFrom tokens k with
  | case1 k hlt hkind =>
    exact .line (.inr ⟨k, rfl, by rw [kindIn, Array.getElem?_eq_getElem hlt]; exact hkind⟩)
  | case2 k hlt hkind => exact .eof (by rw [kindIn, Array.getElem?_eq_getElem hlt]; exact hkind)
  | case3 k hlt _ _ ih => exact ih
  | case4 k hge => exact .eof (by rw [kindIn, Array.getElem?_eq_none (Nat.not_lt.mp hge)])

theorem rests_blockEndFrom (tokens : Array Token) (depth : Nat) {k : Nat}
    (h : WordScript.Rests tokens k) : WordScript.Rests tokens (blockEndFrom tokens depth k) := by
  fun_induction blockEndFrom tokens depth k with
  | case1 => exact h
  | case2 => exact h
  | case3 k _ _ _ _ _ ih => exact ih (rests_lineEndFrom tokens k)
  | case4 => exact h

end Compiler

/-- If the computation succeeds, it reads the same tokens afterwards. -/
def KeepsTokens (x : CompileM α) : Prop :=
  ∀ (c : Compiler) (a : α) (c' : Compiler), x c = .ok (a, c') → c'.tokens = c.tokens

/-- If the computation succeeds, it reads the same tokens and stands between statements. -/
def Settles (x : CompileM Unit) : Prop :=
  ∀ c c' : Compiler, x c = .ok ((), c') → c'.tokens = c.tokens ∧ c'.Rests

theorem Inlines.keepsTokens {x : CompileM α} (h : Inlines x) : KeepsTokens x :=
  fun c a c' hx => (h c a c' hx).tokens

theorem Settles.bind {x : CompileM α} {k : α → CompileM Unit} (hx : KeepsTokens x)
    (hk : ∀ a, Settles (k a)) : Settles (x >>= k) := by
  intro c c' h
  obtain ⟨a, c₁, hxa, hka⟩ := CompileM.bind_eq_ok h
  obtain ⟨htokens, hrests⟩ := hk a c₁ c' hka
  exact ⟨htokens.trans (hx c a c₁ hxa), hrests⟩

namespace CompileM

theorem keepsTokens_advance : KeepsTokens advance := by
  intro c token c' h
  obtain ⟨-, ⟨-, rfl⟩ | ⟨-, rfl⟩⟩ := advance_eq_ok h <;> rfl

theorem settles_skipBlock (depth : Nat) : Settles (skipBlock depth) := by
  intro c c' h
  cases h
  exact ⟨rfl, Compiler.rests_blockEndFrom _ _ (Compiler.rests_lineEndFrom _ _)⟩

/-- A terminator that is taken is the last token of its line. -/
theorem rests_of_terminator {expected : String} {token : Token}
    (h : consume .statementTerminator expected c = .ok (token, c')) :
    c'.tokens = c.tokens ∧ c'.Rests := by
  rw [consume, check, bind_assoc] at h
  have h := (ask_bind _ _ c).symm.trans h
  rw [pure_bind] at h
  split at h
  · next hkind =>
    have hkind : c.kindAt c.cursor = .statementTerminator := beq_iff_eq.mp hkind
    obtain ⟨-, ⟨-, rfl⟩ | ⟨hge, -⟩⟩ := advance_eq_ok h
    · exact ⟨rfl, .line (.inr ⟨_, rfl, hkind⟩)⟩
    · rw [Compiler.kindAt, Array.getElem?_eq_none hge] at hkind
      cases hkind
  · exact absurd h (Fails.bind (fun _ => .failExpected _ _) _ _ _)

end CompileM

/-! ### Declarations of structures -/

namespace Structure

theorem closesAt_field (hg : g.Inline) (done : List FieldTemplate) :
    ClosesAt (.keyword .field) (field g done) := by
  unfold field
  refine .advance rfl fun _ => .after CompileM.tracks_current.idle fun token => ?_
  refine .bind (TypeExpr.inlines_read hg true) fun ty => ?_
  extract_lets finish
  have hfinish : ∀ u, Closes (finish u) := by
    intro u
    refine .bind (CompileM.inlines_identifier _) fun name => ?_
    extract_lets ended
    have hended : ∀ u, Closes (ended u) := fun _ =>
      CompileM.closes_endStatement.then_idle fun _ => .pure _
    clear_value ended
    grind -funext
  clear_value finish
  split <;> grind -funext

/-- The lines of the members end where a line begins, or at an `else` behind a field.  Every method
that is found leads a line of their depth. -/
theorem rests_memberLines (hg : g.Inline) {depth : Nat} (hdepth : depth ≠ 0) (budget : Nat)
    (fields : List FieldTemplate) (methods : List Nat) {found : List FieldTemplate × List Nat}
    (h : memberLines g depth budget fields methods c = .ok (found, c')) (hc : c.Rests)
    (hmethods : ∀ k ∈ methods, Leads c.tokens depth k) :
    c'.tokens = c.tokens ∧ c'.Rests ∧ ∀ k ∈ found.2, Leads c.tokens depth k := by
  induction budget generalizing fields methods c with
  | zero => exact absurd h (Fails.failFuel _ _ _)
  | succ budget ih =>
    rw [memberLines] at h
    have h := (CompileM.ask_bind _ _ c).symm.trans h
    have h := (CompileM.ask_bind _ _ c).symm.trans h
    split at h
    · cases h
      exact ⟨rfl, hc, fun k hk => hmethods k (List.mem_reverse.mp hk)⟩
    next hgo =>
    split at h
    · exact absurd h (Fails.bind (fun _ => .fail _ _) _ _ _)
    next hdeeper =>
    simp only [Bool.or_eq_true, decide_eq_true_eq, not_or, Nat.not_lt, Bool.not_eq_true] at hgo
    have hindents : c.indentation = depth := Nat.le_antisymm (Nat.not_lt.mp hdeeper) hgo.2
    obtain ⟨_, _, hcursor, h⟩ := CompileM.bind_eq_ok h
    obtain ⟨_, c₁, hmove, h⟩ := CompileM.bind_eq_ok h
    cases hcursor
    cases hmove
    have h := (CompileM.ask_bind _ _ _).symm.trans h
    generalize hkind : Compiler.kindAt _ _ = kind at h
    split at h
    -- a field ends its line; the block of a method is skipped
    · obtain ⟨f, c₂, hfield, hrest⟩ := CompileM.bind_eq_ok h
      have hstops := closesAt_field hg fields _ _ _ hkind hfield
      have htokens₂ : c₂.tokens = c.tokens := hstops.tokens
      obtain ⟨htokens, hrests, hleads⟩ := ih _ _ hrest (hstops.rests (by rw [hkind]; simp))
        (htokens₂.symm ▸ hmethods)
      exact ⟨htokens.trans htokens₂, hrests, htokens₂ ▸ hleads⟩
    · obtain ⟨_, c₂, hskip, hrest⟩ := CompileM.bind_eq_ok h
      obtain ⟨htokens₂, hrests₂⟩ := CompileM.settles_skipBlock depth _ _ hskip
      have htokens₂ : c₂.tokens = c.tokens := htokens₂
      have hstart : LineStart c.tokens c.cursor :=
        (Compiler.Rests.lineStart_or_inner hc hgo.1).resolve_right fun hinner =>
          hdepth (hindents.symm.trans hinner.2)
      have hleads : Leads c.tokens depth (c.cursor + c.indentation) :=
        ⟨c.cursor, ⟨hstart, hindents⟩, by rw [hindents]⟩
      obtain ⟨htokens, hrests, hfound⟩ := ih _ _ hrest hrests₂
        (htokens₂.symm ▸ List.forall_mem_cons.mpr ⟨hleads, hmethods⟩)
      exact ⟨htokens.trans htokens₂, hrests, htokens₂ ▸ hfound⟩
    · exact absurd h (Fails.bind (fun _ => .failExpected _ _) _ _ _)

theorem rests_members (hg : g.Inline) {depth : Nat} (hdepth : depth ≠ 0) (bindings : Bindings)
    {found : List FieldTemplate × List Nat} (h : members g depth bindings c = .ok (found, c'))
    (hc : c.Rests) :
    c'.tokens = c.tokens ∧ c'.Rests ∧ ∀ k ∈ found.2, Leads c.tokens depth k := by
  rw [members] at h
  obtain ⟨_, c₁, hbind, h⟩ := CompileM.bind_eq_ok h
  cases hbind
  obtain ⟨_, c₂, hline, h⟩ := CompileM.bind_eq_ok h
  have hbeside := (Block.tracks_requireLine depth).idle.beside_of_eq_ok hline
  have h := (CompileM.ask_bind _ _ c₂).symm.trans h
  obtain ⟨_, c₃, hlines, h⟩ := CompileM.bind_eq_ok h
  obtain ⟨_, c₄, hunbind, h⟩ := CompileM.bind_eq_ok h
  cases hunbind
  cases h
  have htokens₂ : c₂.tokens = c.tokens := hbeside.tokens
  obtain ⟨htokens, hrests, hleads⟩ := rests_memberLines hg hdepth _ _ _ hlines (hbeside.rests hc)
    (List.forall_mem_nil _)
  exact ⟨htokens.trans htokens₂, hrests, htokens₂ ▸ hleads⟩

theorem rests_plain (hg : g.Inline) {name : Token} {depth : Nat} (hdepth : depth ≠ 0)
    (h : plain g name depth c = .ok ((), c')) (hc : c.Rests) : c'.tokens = c.tokens ∧ c'.Rests := by
  rw [plain] at h
  obtain ⟨id, c₁, hadd, h⟩ := CompileM.bind_eq_ok h
  cases hadd
  obtain ⟨found, c₂, hmembers, h⟩ := CompileM.bind_eq_ok h
  obtain ⟨_, c₃, hlayout, h⟩ := CompileM.bind_eq_ok h
  have h := (CompileM.ask_bind _ _ c₃).symm.trans h
  obtain ⟨htokens, hrests, -⟩ := rests_members hg hdepth [] hmembers hc
  have hbeside := (idle_layout _ _ _).beside_of_eq_ok hlayout
  obtain ⟨htokens', hcursor⟩ := methods_eq_ok h
  refine ⟨htokens'.trans (hbeside.tokens.trans htokens), ?_⟩
  rw [Compiler.Rests, htokens', hcursor]
  exact hbeside.rests hrests

theorem rests_template (hg : g.Inline) {name : Token} {placeholders : List String} {depth : Nat}
    (hdepth : depth ≠ 0) (h : template g name placeholders depth c = .ok ((), c')) (hc : c.Rests) :
    c'.tokens = c.tokens ∧ c'.Rests := by
  rw [template] at h
  obtain ⟨_, c₀, hbyte, h⟩ := CompileM.bind_eq_ok h
  have hbeside := (CompileM.tracks_byte _ _).idle.beside_of_eq_ok hbyte
  obtain ⟨id, c₁, hadd, h⟩ := CompileM.bind_eq_ok h
  cases hadd
  obtain ⟨found, c₂, hmembers, h⟩ := CompileM.bind_eq_ok h
  cases h
  obtain ⟨htokens, hrests, -⟩ := rests_members hg hdepth _ hmembers (hbeside.rests hc)
  exact ⟨htokens.trans hbeside.tokens, hrests⟩

theorem inlines_typeParameters (budget : Nat) (done : List String) :
    Inlines (typeParameters budget done) := by
  induction budget generalizing done with
  | zero => exact .failFuel
  | succ budget ih =>
    unfold typeParameters
    refine .bind (CompileM.inlines_identifier _) fun name => ?_
    grind -funext

/-- A declaration of a structure ends between statements. -/
theorem settles_declaration (hg : g.Inline) (depth : Nat) : Settles (declaration g depth) := by
  unfold declaration
  refine .bind CompileM.keepsTokens_advance fun _ => ?_
  refine .bind (CompileM.inlines_identifier _).keepsTokens fun name => ?_
  refine .bind (Inlines.of_idle (.ask _)).keepsTokens fun taken => ?_
  -- From the last part to the first: the members, then the type parameters.
  extract_lets declared listed
  have hdeclared : ∀ names, Settles (declared names) := by
    intro names c c' h
    obtain ⟨_, c₁, hconsume, h⟩ := CompileM.bind_eq_ok h
    obtain ⟨htokens, hc₁⟩ := CompileM.rests_of_terminator hconsume
    split at h
    · obtain ⟨htokens', hrests⟩ := rests_plain hg (Nat.succ_ne_zero depth) h hc₁
      exact ⟨htokens'.trans htokens, hrests⟩
    · obtain ⟨htokens', hrests⟩ := rests_template hg (Nat.succ_ne_zero depth) h hc₁
      exact ⟨htokens'.trans htokens, hrests⟩
  clear_value declared
  have hlisted : ∀ u, Settles (listed u) := by
    intro u
    refine .bind (CompileM.inlines_matchKind_symbol _).keepsTokens fun generic => ?_
    split
    · refine .bind (Inlines.of_idle CompileM.tracks_budget.idle).keepsTokens fun n => ?_
      refine .bind (inlines_typeParameters _ _).keepsTokens fun names => ?_
      refine .bind (CompileM.inlines_consume_symbol _ _).keepsTokens fun _ => ?_
      exact .bind (Inlines.of_idle (.pure names)).keepsTokens hdeclared
    · exact .bind (Inlines.of_idle (.pure [])).keepsTokens hdeclared
  clear_value listed
  split
  · exact .bind (Inlines.of_idle (.of_tracks (.failRedeclared name _))).keepsTokens hlisted
  · exact hlisted ()

end Structure

/-! ### Statements with a body -/

namespace Statement

open CompileM

variable {depth : Nat}

/-- What a conditional reads before its first branch: the token that errors are about, and the jump
over the branch. -/
def ifHead (g : Productions) : CompileM (Token × Nat) := do
  let token ← advance
  condition g
  let _ ← consume (.keyword .then_) "'then'"
  let skip ← emitJump .jumpIfFalse
  enterBlock
  return (token, skip)

/-- A conditional up to the end of its first branch. -/
def thenBranch (g : Productions) (depth : Nat) : CompileM (Token × Nat) := do
  let p ← ifHead g
  Block.tail g depth
  exitBlock
  return p

/-- What comes between an `else` that has been taken and the second branch. -/
def elseHead (p : Token × Nat) : CompileM Nat := do
  let exit ← emitJump .jump
  patchJump p.2 p.1
  enterBlock
  return exit

theorem conditional_eq (g : Productions) (depth : Nat) :
    conditional g depth = (do
      let p ← thenBranch g depth
      if ← elseFollows depth then
        let exit ← elseHead p
        Block.tail g depth
        exitBlock
        patchJump exit p.1
      else patchJump p.2 p.1) := by
  simp only [conditional, thenBranch, ifHead, elseHead, Block.body, bind_assoc, pure_bind]

/-- What a loop with a condition reads before its body. -/
def whileHead (g : Productions) : CompileM (Token × Nat × Nat) := do
  let token ← advance
  let start ← here
  condition g
  let exit ← emitJump .jumpIfFalse
  openLoop start
  enterBlock
  return (token, start, exit)

theorem whileLoop_eq (g : Productions) (depth : Nat) :
    whileLoop g depth = (do
      let (token, start, exit) ← whileHead g
      Block.tail g depth
      exitBlock
      emitLoop start token
      patchJump exit token
      closeLoop token) := by
  simp only [whileLoop, whileHead, loopBody, Block.body, bind_assoc, pure_bind]

/-- What a loop without a condition reads before its body. -/
def loopHead : CompileM (Token × Nat) := do
  let token ← advance
  let start ← here
  openLoop start
  enterBlock
  return (token, start)

theorem loop_eq (g : Productions) (depth : Nat) :
    loop g depth = (do
      let (token, start) ← loopHead
      Block.tail g depth
      exitBlock
      emitLoop start token
      closeLoop token) := by
  simp only [loop, loopHead, loopBody, Block.body, bind_assoc, pure_bind]

/-- What the declaration of a function reads before its body. -/
def functionHead (g : Productions) : CompileM Signature := do
  requireTopLevel "function declaration"
  let s ← Function.signature g
  let chunk ← Function.reserveChunk s.name.lexeme s.name
  Function.declareGlobal (s.header (.script chunk) none) s.name
  Function.open_ chunk.toNat s.returns
  Function.declareParameters (s.header (.script chunk) none) s.name
  return s

theorem declaration_eq (g : Productions) (depth : Nat) :
    (do requireTopLevel "function declaration"; Function.declaration g depth) = (do
      let s ← functionHead g
      Block.tail g depth
      Function.emitReturn s.returns s.name
      Function.close) := by
  simp only [Function.declaration, functionHead, Function.body, Signature.header, bind_assoc,
    pure_bind]

/-- The statement at hand has been read up to the body that it owns. -/
inductive Enters (g : Productions) (c c₁ : Compiler) : Prop
  | if_ {p : Token × Nat} (kind : c.kindAt c.cursor = .keyword .if_) (head : ifHead g c = .ok (p, c₁))
  | while_ {p : Token × Nat × Nat} (kind : c.kindAt c.cursor = .keyword .while_)
      (head : whileHead g c = .ok (p, c₁))
  | loop {p : Token × Nat} (kind : c.kindAt c.cursor = .keyword .loop)
      (head : loopHead c = .ok (p, c₁))
  | function {s : Signature} (kind : c.kindAt c.cursor = .keyword .function)
      (head : functionHead g c = .ok (s, c₁))

theorem inlinesAt_ifHead (hg : g.Inline) : InlinesAt (.keyword .if_) (ifHead g) := by
  unfold ifHead
  refine .advance rfl fun token => .bind (inlines_condition hg) fun _ => ?_
  refine .bind (inlines_consume rfl _) fun _ => ?_
  grind -funext

theorem inlinesAt_whileHead (hg : g.Inline) : InlinesAt (.keyword .while_) (whileHead g) := by
  unfold whileHead
  refine .advance rfl fun token => .after tracks_here.idle fun start => ?_
  refine .bind (inlines_condition hg) fun _ => ?_
  grind -funext

theorem inlinesAt_loopHead : InlinesAt (.keyword .loop) loopHead := by
  unfold loopHead
  exact .advance rfl fun token => .of_idle (by grind)

theorem inlines_functionHead (hg : g.Inline) : Inlines (functionHead g) := by
  unfold functionHead
  refine .after (tracks_requireTopLevel _).idle fun _ => ?_
  refine .bind (Function.inlines_signature hg) fun s => ?_
  grind -funext

/-- The head of a statement reads on along its line. -/
theorem Enters.along (hg : g.Inline) (h : Enters g c c₁) : c.Along c₁ := by
  cases h with
  | if_ kind head => exact inlinesAt_ifHead hg c _ c₁ (fun _ => kind) head
  | while_ kind head => exact inlinesAt_whileHead hg c _ c₁ (fun _ => kind) head
  | loop kind head => exact inlinesAt_loopHead c _ c₁ (fun _ => kind) head
  | function kind head => exact inlines_functionHead hg c _ c₁ head

theorem Enters.kind_ne (h : Enters g c c₁) : c.kindAt c.cursor ≠ .keyword .else_ := by
  cases h with
  | if_ kind | while_ kind | loop kind | function kind =>
    rw [kind]
    simp

/-- The `else` that is taken continues the line, or it begins a line of the depth at hand. -/
theorem elseFollows_eq_ok {taken : Bool} (h : elseFollows depth c = .ok (taken, c')) :
    taken = false ∧ c' = c ∨
    taken = true ∧ (0 < c.cursor ∧ c.kindAt (c.cursor - 1) ≠ .statementTerminator ∧
        c.kindAt c.cursor = .keyword .else_ ∧ c' = { c with cursor := c.cursor + 1 } ∨
      ¬ (0 < c.cursor ∧ c.kindAt (c.cursor - 1) ≠ .statementTerminator ∧
        c.kindAt c.cursor = .keyword .else_) ∧
      c.indentation = depth ∧ c.kindAt (c.cursor + depth) = .keyword .else_ ∧
      c' = { c with cursor := c.cursor + depth + 1 }) := by
  rw [elseFollows] at h
  have h := (ask_bind _ _ c).symm.trans h
  have h := (ask_bind _ _ c).symm.trans h
  have h := (ask_bind _ _ c).symm.trans h
  obtain ⟨found, c₁, hcheck, h⟩ := bind_eq_ok h
  cases (show (Except.ok (c.kindAt c.cursor == .keyword .else_, c) :
    Except CompileError (Bool × Compiler)) = .ok (found, c₁) from hcheck)
  split at h
  · next hsame =>
    cases h
    simp only [Bool.and_eq_true, decide_eq_true_eq, bne_iff_ne, beq_iff_eq] at hsame
    exact .inr ⟨rfl, .inl ⟨hsame.1.1, hsame.1.2, hsame.2, rfl⟩⟩
  · next hother =>
    simp only [Bool.and_eq_true, decide_eq_true_eq, bne_iff_ne, beq_iff_eq, and_assoc] at hother
    -- otherwise the line must be as deep as the statement
    have hlast : (if (decide (c.indentation = depth) &&
        c.kindAt (c.cursor + c.indentation) == .keyword .else_) = true then
          (do moveTo (c.cursor + c.indentation + 1); return true)
        else return false : CompileM Bool) c = .ok (taken, c') := (ask_bind _ _ c).symm.trans h
    split at hlast
    · next hlevel =>
      simp only [Bool.and_eq_true, decide_eq_true_eq, beq_iff_eq] at hlevel
      obtain ⟨rfl, hkind⟩ := hlevel
      cases hlast
      exact .inr ⟨rfl, .inr ⟨hother, rfl, hkind, rfl⟩⟩
    · cases hlast
      exact .inl ⟨rfl, rfl⟩

/-- A statement has been read, on a line of the given depth. -/
inductive Read (g : Productions) (depth : Nat) (c c' : Compiler) : Prop
  | closed (kind : c.kindAt c.cursor ≠ .keyword .else_) (stops : c.Stops c')
  | body {c₁ c₂ : Compiler} (enters : Enters g c c₁) (tail : Block.tail g depth c₁ = .ok ((), c₂))
      (beside : c₂.Beside c')
  | ifThen {p : Token × Nat} {c₁ : Compiler} (kind : c.kindAt c.cursor = .keyword .if_)
      (branch : thenBranch g depth c = .ok (p, c₁)) (beside : c₁.Beside c')
  | ifElse {p : Token × Nat} {exit : Nat} {c₁ c₂ c₃ c₄ : Compiler}
      (kind : c.kindAt c.cursor = .keyword .if_) (branch : thenBranch g depth c = .ok (p, c₁))
      (follows : elseFollows depth c₁ = .ok (true, c₂)) (head : elseHead p c₂ = .ok (exit, c₃))
      (tail : Block.tail g depth c₃ = .ok ((), c₄)) (beside : c₄.Beside c')
  | structure_ (kind : c.kindAt c.cursor = .keyword .structure_) (settles : c'.tokens = c.tokens)
      (rests : c'.Rests)

/-- No statement begins with an `else`. -/
theorem kind_ne_of_expression (h : expression g c = .ok ((), c')) :
    c.kindAt c.cursor ≠ .keyword .else_ := by
  intro hkind
  have hlt : c.cursor < c.tokens.size := by
    by_contra hge
    rw [Compiler.kindAt, Array.getElem?_eq_none (Nat.not_lt.mp hge)] at hkind
    cases hkind
  have hcurrent : c.current.kind = .keyword .else_ := (Compiler.kindAt_cursor hlt).symm.trans hkind
  -- it would begin an expression, which begins with no such token
  rw [expression] at h
  have h := (ask_bind _ _ c).symm.trans h
  obtain ⟨operand, c₁, hoperand, -⟩ := bind_eq_ok h
  rw [Expression.operand] at hoperand
  have hoperand := (ask_bind _ _ c).symm.trans hoperand
  rw [hkind] at hoperand
  obtain ⟨first, c₂, hprimary, -⟩ := bind_eq_ok hoperand
  rw [Expression.primary] at hprimary
  have hprimary := (ask_bind _ _ c).symm.trans hprimary
  simp only [hcurrent] at hprimary
  exact absurd hprimary (Fails.failExpected _ _ _ _ _)

theorem conditional_eq_ok (hkind : c.kindAt c.cursor = .keyword .if_)
    (h : conditional g depth c = .ok ((), c')) : Read g depth c c' := by
  rw [conditional_eq] at h
  obtain ⟨p, c₁, hbranch, hrest⟩ := bind_eq_ok h
  obtain ⟨taken, c₂, hfollows, hlast⟩ := bind_eq_ok hrest
  cases taken with
  | false =>
    obtain ⟨-, hsame⟩ | ⟨htaken, -⟩ := elseFollows_eq_ok hfollows
    · have hbeside := (tracks_patchJump p.2).idle.beside_of_eq_ok hlast
      exact .ifThen hkind hbranch (hsame ▸ hbeside)
    · cases htaken
  | true =>
    rw [if_pos rfl] at hlast
    obtain ⟨exit, c₃, hhead, hlast⟩ := bind_eq_ok hlast
    obtain ⟨_, c₄, htail, hlast⟩ := bind_eq_ok hlast
    exact .ifElse hkind hbranch hfollows hhead htail (Idle.beside_of_eq_ok (by grind) hlast)

/-- What a statement consists of, by its first token. -/
theorem read_eq_ok (hg : g.Inline) (h : read g depth c = .ok ((), c')) : Read g depth c c' := by
  rw [read] at h
  have h := (ask_bind _ _ c).symm.trans h
  generalize hkind : c.kindAt c.cursor = kind at h
  -- a statement is closed by its end, or begins with a head and goes on with a body
  split at h
  · exact .closed (by rw [hkind]; simp) (closesAt_variable_ hg _ _ _ hkind h)
  · exact conditional_eq_ok hkind h
  · rw [whileLoop_eq] at h
    obtain ⟨p, c₁, hhead, h⟩ := bind_eq_ok h
    obtain ⟨_, c₂, htail, h⟩ := bind_eq_ok h
    exact .body (.while_ hkind hhead) htail (Idle.beside_of_eq_ok (by grind) h)
  · rw [loop_eq] at h
    obtain ⟨p, c₁, hhead, h⟩ := bind_eq_ok h
    obtain ⟨_, c₂, htail, h⟩ := bind_eq_ok h
    exact .body (.loop hkind hhead) htail (Idle.beside_of_eq_ok (by grind) h)
  · exact .closed (by rw [hkind]; simp) (closesAt_break_ _ _ _ hkind h)
  · exact .closed (by rw [hkind]; simp) (closesAt_continue_ _ _ _ hkind h)
  · exact .closed (by rw [hkind]; simp) (closesAt_return_ hg _ _ _ hkind h)
  · exact .closed (by rw [hkind]; simp) (closesAt_yield hg _ _ _ hkind h)
  · exact .closed (by rw [hkind]; simp) (closesAt_free hg _ _ _ hkind h)
  · rw [declaration_eq] at h
    obtain ⟨s, c₁, hhead, h⟩ := bind_eq_ok h
    obtain ⟨_, c₂, htail, h⟩ := bind_eq_ok h
    exact .body (.function hkind hhead) htail (Idle.beside_of_eq_ok (by grind) h)
  · obtain ⟨_, c₁, htop, h⟩ := bind_eq_ok h
    have hbeside := (tracks_requireTopLevel _).idle.beside_of_eq_ok htop
    obtain ⟨htokens, hrests⟩ := Structure.settles_declaration hg depth _ _ h
    exact .structure_ hkind (htokens.trans hbeside.tokens) hrests
  · obtain ⟨_, c₁, htop, h⟩ := bind_eq_ok h
    have hbeside := (tracks_requireTopLevel _).idle.beside_of_eq_ok htop
    have hkind₁ : c₁.kindAt c₁.cursor = .keyword .external := by
      rw [Compiler.kindAt_of_tokens hbeside.tokens, hbeside.cursor]
      exact hkind
    have hstops := Function.closesAt_external hg _ _ _ hkind₁ h
    exact .closed (by rw [hkind]; simp) ((Compiler.Along.of_beside hbeside).stops hstops)
  · exact .closed (kind_ne_of_expression h) (closes_expression hg _ _ _ h)

end Statement

end WordScript
