/-
The productions get on with the tokens.

* `TypeExpr.takes_read`, `Expression.takes_read` — a type and an expression take a
  token, if the productions that they use do;
* `Statement.takes_read` — so does a statement, if declarations of structures do.

Design notes: a loop of the grammar is given as many rounds as there are tokens left
and one more.  Its lemma is by induction on that number: a round takes a token, and
fewer tokens than rounds are left after it.  This is why the grammar is gone through
apart from `Walk` here: what a walk keeps is the same after every part, whereas the
count of tokens goes down.  The parts that take no token are taken from the walk.
-/
import WordScript.Proofs.ReadingProgress

namespace WordScript

variable {α β : Type} {L d b : Nat} {g g' : Productions}

/-! ### Types -/

namespace TypeExpr

theorem passes_suffixes (indirection : Bool) (b : Nat) (ty : Ty) :
    Passes L d b b (suffixes indirection b ty) (suffixes indirection b ty) := by
  induction b generalizing ty with
  | zero => exact .of_zero
  | succ b ih =>
    -- Where no suffix follows, the type is whole.
    have hreturn : Opens L d (b + 1) (b + 1) (pure ty : CompileM Ty) (pure ty) :=
      (Idle.pure ty).passes.opens
    -- Each suffix begins with a token, after which the rounds that are left are enough.
    have hopens : ∀ {k : Token → CompileM Ty}, (∀ token, Passes L d b b (k token) (k token)) →
        Opens L d (b + 1) (b + 1) (CompileM.advance >>= k) (CompileM.advance >>= k) :=
      fun hk => (CompileM.opens_advance.bind hk).mono (Nat.le_succ b)
    unfold suffixes
    refine .of_kind (fun kind _ => ?_) (Idle.pure ty).passes
    split
    · refine (CompileM.tracks_kindAhead 1).idle.opens_bind fun _ => ?_
      refine (CompileM.tracks_kindAhead 2).idle.opens_bind fun _ => ?_
      split
      · exact hopens (by grind -funext)
      · exact hreturn
    · refine (CompileM.tracks_kindAhead 1).idle.opens_bind fun _ => ?_
      split
      · exact hopens (by grind -funext)
      · exact hreturn
    · split
      · exact hopens fun _ => ih _
      · exact hreturn
    · split
      · exact hopens fun _ => ih _
      · exact hreturn
    · exact hreturn

theorem passes_arguments (hg : g.Serve L d b g') (done : List Ty) :
    Passes L d b b (arguments g b done) (arguments g' b done) := by
  induction b generalizing done with
  | zero => exact .of_zero
  | succ b ih =>
    unfold arguments
    refine (Passes.bind (hg.typeExpr b (Nat.lt_succ_self b) true) fun ty => ?_).mono (Nat.le_succ b)
    have hrest := ih (hg.mono (Nat.le_succ b))
    grind -funext

@[grind ←] theorem passes_applyTemplate (hg : g.Serve L d b g') (template : Nat) (args : List Ty)
    (token : Token) :
    Passes L d b b (applyTemplate g template args token)
      (applyTemplate g' template args token) := by
  unfold applyTemplate
  grind -funext

@[grind ←] theorem passes_named (hg : g.Serve L d b g') (token : Token) :
    Passes L d b b (named g token) (named g' token) := by
  unfold named
  refine .seq (Idle.ask _).passes fun bound => ?_
  split
  · exact (Idle.pure _).passes
  split
  · exact (Idle.pure _).passes
  refine .seq (Idle.ask _).passes fun entry => ?_
  split
  · exact (Idle.pure _).passes
  · refine .seq (CompileM.passes_consume _ _) fun _ => .budget fun b₀ h₀ => ?_
    have hg₀ := hg.mono h₀
    exact .seq (passes_arguments hg₀ []) (by grind -funext)
  · exact (Idle.fail (by simp)).passes

/-- A type takes its name. -/
theorem takes_read (hg : g.Serve L d b g') (indirection : Bool) :
    Passes L d (b + 1) b (read g indirection) (read g' indirection) := by
  unfold read
  refine .bind (CompileM.takes_identifier _) fun token => .seq (passes_named hg token) fun ty => ?_
  exact .budget fun b₀ _ => passes_suffixes indirection b₀ ty

@[grind ←] theorem passes_read (hg : g.Serve L d b g') (indirection : Bool) :
    Passes L d b b (read g indirection) (read g' indirection) :=
  .of_takes fun _ h₀ => takes_read (hg.mono (Nat.le_of_lt h₀)) indirection

mutual

@[grind ←] theorem passes_resolve (hg : g.Serve L d b g') (token : Token) :
    ∀ ty : Ty, Passes L d b b (resolve g token ty) (resolve g' token ty)
  | .generic template args => by
    rw [resolve, resolve]
    have hargs := passes_resolveAll hg token args
    grind -funext
  | .span element _ | .list element | .pointer element | .reference element => by
    rw [resolve, resolve]
    have helement := passes_resolve hg token element
    grind -funext
  | .placeholder _ | .void | .bool | .int | .float | .string | .structure_ _ => by
    rw [resolve, resolve]
    grind -funext

@[grind ←] theorem passes_resolveAll (hg : g.Serve L d b g') (token : Token) :
    ∀ tys : List Ty, Passes L d b b (resolveAll g token tys) (resolveAll g' token tys)
  | [] => by
    rw [resolveAll, resolveAll]
    exact (Idle.pure _).passes
  | ty :: tys => by
    rw [resolveAll, resolveAll]
    have hty := passes_resolve hg token ty
    have htys := passes_resolveAll hg token tys
    grind -funext

end

end TypeExpr

/-! ### Calls and accessors -/

namespace Call

/-- An argument takes a token. -/
theorem takes_argument (hg : g.Serve L d (b + 1) g') (parameter : Option Parameter) :
    Passes L d (b + 1) b (argument g parameter) (argument g' parameter) := by
  have hexpression := hg.expression b (Nat.lt_succ_self b)
  have hoperand := hg.operand b (Nat.lt_succ_self b)
  unfold argument
  refine .bind CompileM.tracks_current.idle.passes fun token => ?_
  split
  · exact .bind hoperand (by grind -funext)
  · exact .bind (hexpression _) (by grind -funext)
  · exact .bind (hexpression _) (by grind -funext)

theorem passes_arguments (hg : g.Serve L d b g') (parameters : List Parameter) (found words : Nat) :
    Passes L d b b (arguments g parameters b found words)
      (arguments g' parameters b found words) := by
  induction b generalizing found words with
  | zero => exact .of_zero
  | succ b ih =>
    unfold arguments
    refine (Passes.bind (takes_argument hg _) fun added => ?_).mono (Nat.le_succ b)
    have hrest := ih (hg.mono (Nat.le_succ b))
    grind -funext

@[grind ←] theorem passes_read (hg : g.Serve L d b g') (header : FunctionHeader)
    (receiver : Option Place) (token : Token) :
    Passes L d b b (read g header receiver token) (read g' header receiver token) := by
  unfold read
  refine .seq (CompileM.passes_consume _ _) fun _ => ?_
  -- What follows the arguments is the same for both; then come the arguments and the receiver.
  extract_lets returned counted passed passed'
  have hcounted : ∀ b r, Passes L d b b (counted r) (counted r) := by
    intro b r
    refine .seq (CompileM.passes_consume _ _) fun _ => Idle.passes ?_
    grind -funext
  clear_value counted
  have hpassed : ∀ words, Passes L d b b (passed words) (passed' words) := by
    intro words
    refine .seq (CompileM.tracks_check _).idle.passes fun empty => ?_
    split
    · exact .seq (Idle.pure _).passes fun r => hcounted b r
    · refine .budget fun b₀ h₀ => ?_
      exact .seq (passes_arguments (hg.mono h₀) _ _ _) fun r => hcounted b₀ r
  clear_value passed passed'
  split
  · exact .seq (Idle.pure _).passes fun words => hpassed words
  · refine .seq (CompileM.tracks_addressOf _).idle.passes fun _ => ?_
    exact .seq (Idle.pure _).passes fun words => hpassed words

end Call

namespace Access

theorem passes_push (hg : g.Serve L d b g') (operand : Operand) (ty : Ty)
    (name : Token) : Passes L d b b (push g operand ty name) (push g' operand ty name) := by
  unfold push
  refine .seq (CompileM.tracks_placeOf (Walk.good_free _) _).idle.passes fun list => ?_
  refine .seq (CompileM.tracks_addressOf _).idle.passes fun _ => ?_
  refine .seq (CompileM.passes_consume _ _) fun _ => ?_
  refine .seq CompileM.tracks_current.idle.passes fun _ => ?_
  refine .seq (hg.passes_expression _) fun _ => ?_
  grind -funext

theorem passes_memberCall (hg : g.Serve L d b g') (operand : Operand) (name : Token) :
    Passes L d b b (memberCall g operand name) (memberCall g' operand name) := by
  unfold memberCall
  split
  · split
    · exact passes_push hg _ _ _
    · exact Idle.passes (.of_tracks (.failMember _ _ _))
  · refine .seq (Idle.ask _).passes fun method => ?_
    split
    · exact Idle.passes (.of_tracks (.failMember _ _ _))
    · refine .seq (CompileM.tracks_placeOf (Walk.good_free _) _).idle.passes fun receiver => ?_
      exact .seq (Call.passes_read hg _ _ _) fun _ => (Idle.pure _).passes
  · exact Idle.passes (.of_tracks (.failMember _ _ _))

/-- A member takes its dot. -/
theorem opens_member (hg : g.Serve L d b g') (operand : Operand) :
    Opens L d (b + 1) b (member g operand) (member g' operand) := by
  have hcall := passes_memberCall hg
  unfold member
  exact CompileM.opens_advance.bind (by grind -funext)

@[grind ←] theorem passes_indexExpression (hg : g.Serve L d b g') :
    Passes L d b b (indexExpression g) (indexExpression g') := by
  unfold indexExpression
  grind -funext

/-- An index takes its bracket. -/
theorem opens_index (hg : g.Serve L d b g') (operand : Operand) :
    Opens L d (b + 1) b (index g operand) (index g' operand) := by
  unfold index
  refine CompileM.opens_advance.bind fun _ => ?_
  refine .seq (CompileM.tracks_deref (Walk.good_free _)).idle.passes fun o => ?_
  split
  · refine .seq (CompileM.tracks_placeOf (Walk.good_free _) _).idle.passes fun span => ?_
    -- the address of the span is computed, unless it lies on the stack already
    extract_lets indexed indexed'
    have hindexed : ∀ offset, Passes L d b b (indexed offset) (indexed' offset) := by
      intro offset
      refine .seq (CompileM.tracks_wordsOf (Walk.good_free _)).idle.passes fun _ => ?_
      refine .seq (CompileM.tracks_byte _ _).idle.passes fun _ => ?_
      grind -funext
    clear_value indexed indexed'
    grind -funext
  · refine .seq (CompileM.tracks_load (Walk.good_free _)).idle.passes fun _ => ?_
    refine .seq (CompileM.tracks_wordsOf (Walk.good_free _)).idle.passes fun _ => ?_
    grind -funext
  · grind -funext

end Access

/-! ### Expressions -/

namespace Expression

theorem passes_operators (hg : g.Serve L d b g') (min : Precedence) (left : Ty) :
    Passes L d b b (operators g min b left) (operators g' min b left) := by
  induction b generalizing left with
  | zero => exact .of_zero
  | succ b ih =>
    have hrest := ih (hg.mono (Nat.le_succ b))
    have hright := (hg.mono (Nat.le_succ b)).passes_expression
    unfold operators
    refine .of_kind (fun kind _ => ?_) (Idle.pure left).passes
    split
    · exact (Idle.pure left).passes.opens
    · split
      · exact (Idle.pure left).passes.opens
      · exact (CompileM.opens_advance.bind (by grind -funext)).mono (Nat.le_succ b)

@[grind ←] theorem passes_continue_ (hg : g.Serve L d b g') (operand : Operand) (min : Precedence)
    (token : Token) :
    Passes L d b b (continue_ g operand min token) (continue_ g' operand min token) := by
  unfold continue_
  refine .seq (CompileM.tracks_load (Walk.good_free _)).idle.passes fun left => ?_
  exact .budget fun b₀ h₀ => passes_operators (hg.mono h₀) min left

theorem passes_spanElements (hg : g.Serve L d b g') (element : Ty) (length : Nat) :
    Passes L d b b (spanElements g element b length) (spanElements g' element b length) := by
  induction b generalizing length with
  | zero => exact .of_zero
  | succ b ih =>
    have hrest := ih (hg.mono (Nat.le_succ b))
    unfold spanElements
    refine .seq (CompileM.passes_matchKind _) fun more => ?_
    split
    · refine .seq CompileM.tracks_current.idle.passes fun token => ?_
      exact (Passes.bind (hg.expression b (Nat.lt_succ_self b) _) (by grind -funext)).mono
        (Nat.le_succ b)
    · exact (Idle.pure _).passes

/-- A span literal takes its brace. -/
theorem opens_spanLiteral (hg : g.Serve L d b g') :
    Opens L d (b + 1) b (spanLiteral g) (spanLiteral g') := by
  unfold spanLiteral
  refine CompileM.opens_advance.bind fun _ => .seq (CompileM.tracks_check _).idle.passes fun _ => ?_
  -- What follows the check that there is an element.
  extract_lets elements elements'
  have helements : ∀ u, Passes L d b b (elements u) (elements' u) := by
    intro _
    refine .seq CompileM.tracks_current.idle.passes fun first => ?_
    refine .seq (hg.passes_expression _) fun element => ?_
    extract_lets counted counted'
    have hcounted : ∀ u, Passes L d b b (counted u) (counted' u) := by
      intro _
      refine .budget fun b₀ h₀ => .seq (passes_spanElements (hg.mono h₀) _ _) fun length => ?_
      grind -funext
    clear_value counted counted'
    grind -funext
  clear_value elements elements'
  grind -funext

theorem passes_initialisers (hg : g.Serve L d b g') (s : StructureType) (token : Token) :
    Passes L d b b (initialisers g s token b) (initialisers g' s token b) := by
  induction b with
  | zero => exact .of_zero
  | succ b ih =>
    have hg₀ := hg.mono (Nat.le_succ b)
    have hrest := ih hg₀
    unfold initialisers
    refine (Passes.bind (CompileM.takes_identifier _) fun name => ?_).mono (Nat.le_succ b)
    split
    · exact (Idle.fail (by simp)).passes
    · refine .seq (CompileM.passes_consume _ _) fun _ => ?_
      refine .seq CompileM.tracks_current.idle.passes fun _ => ?_
      refine .seq (hg₀.passes_expression _) fun _ => ?_
      refine .seq (CompileM.tracks_expectType _ _).idle.passes fun _ => ?_
      refine .seq (CompileM.tracks_wordsOf (Walk.good_free _)).idle.passes fun _ => ?_
      grind -funext

@[grind ←] theorem passes_structureLiteral (hg : g.Serve L d b g') (id : Nat) (token : Token) :
    Passes L d b b (structureLiteral g id token) (structureLiteral g' id token) := by
  unfold structureLiteral
  refine .seq (CompileM.passes_consume _ _) fun _ => .seq (Idle.ask _).passes fun s => ?_
  refine .seq (CompileM.tracks_short _ _).idle.passes fun _ => ?_
  refine .seq (CompileM.tracks_emit _).idle.passes fun _ => ?_
  refine .seq (CompileM.tracks_check _).idle.passes fun _ => ?_
  extract_lets closed
  have hclosed : ∀ b u, Passes L d b b (closed u) (closed u) := by grind -funext
  clear_value closed
  split
  · exact .budget fun b₀ h₀ => .seq (passes_initialisers (hg.mono h₀) _ _) fun u => hclosed b₀ u
  · grind -funext

/-- A type where a value is expected takes its name. -/
theorem takes_typeLiteral (hg : g.Serve L d b g') :
    Passes L d (b + 1) b (typeLiteral g) (typeLiteral g') := by
  unfold typeLiteral
  refine .bind CompileM.tracks_current.idle.passes fun token => ?_
  refine .bind (TypeExpr.takes_read hg _) fun ty => ?_
  refine .seq (CompileM.tracks_check _).idle.passes fun braced => ?_
  split
  · split
    · exact passes_structureLiteral hg _ _
    · exact Idle.passes (.bind (CompileM.tracks_typeName _).idle fun _ => .fail (by simp))
  · refine Idle.passes ?_
    split
    · refine .bind (CompileM.tracks_wordsOf (Walk.good_free _)).idle fun _ => ?_
      grind
    · refine .bind (CompileM.tracks_wordsOf (Walk.good_free _)).idle fun _ => ?_
      grind
    · exact .bind CompileM.tracks_current.idle fun _ => .fail (by simp)

/-- A conversion takes the name of its type. -/
theorem opens_conversion (hg : g.Serve L d b g') :
    Opens L d (b + 1) b (conversion g) (conversion g') := by
  unfold conversion
  refine CompileM.opens_advance.bind fun token => ?_
  refine .seq (CompileM.passes_consume _ _) fun _ => ?_
  refine .seq CompileM.tracks_current.idle.passes fun _ => ?_
  refine .seq (hg.passes_expression _) fun ty => .seq (CompileM.passes_consume _ _) fun _ => ?_
  refine Idle.passes ?_
  grind -funext

/-- A name that stands for a value is taken. -/
theorem opens_name (hg : g.Serve L d b g') : Opens L d (b + 1) b (name g) (name g') := by
  unfold name
  refine CompileM.tracks_current.idle.opens_bind fun token => (Idle.ask _).opens_bind fun v => ?_
  split
  · refine CompileM.opens_advance.bind fun _ => ?_
    exact (CompileM.tracks_variableOperand (Walk.good_free _)).idle.passes
  · refine (CompileM.tracks_kindAhead 1).idle.opens_bind fun next => ?_
    split
    · split
      · exact opens_conversion hg
      · refine (Idle.ask _).opens_bind fun header => ?_
        split
        · exact (Idle.fails (.fail (by simp)) (.fail _ _)).opens
        · exact CompileM.opens_advance.bind (by grind -funext)
    · refine (Idle.ask _).opens_bind fun isType => ?_
      split
      · exact (takes_typeLiteral hg).opens
      · exact (Idle.fails (.fail (by simp)) (.fail _ _)).opens

/-- A primary takes a token; at the end of the file there is none. -/
theorem takes_primary (hg : g.Serve L d b g') : Passes L d (b + 1) b (primary g) (primary g') := by
  unfold primary
  refine .of_current (fun token _ => ?_) fun token hend => ?_
  · split
    · exact CompileM.opens_advance.bind (by grind -funext)
    · exact CompileM.opens_advance.bind (by grind -funext)
    · exact CompileM.opens_advance.bind (by grind -funext)
    · exact CompileM.opens_advance.bind (by grind -funext)
    · exact CompileM.opens_advance.bind (by grind -funext)
    · exact CompileM.opens_advance.bind (by grind -funext)
    · exact opens_spanLiteral hg
    · exact opens_name hg
    · exact (Idle.fails (.fail (by simp)) (.failExpected _ _)).opens
  · rw [hend]
    exact Idle.fails (.fail (by simp)) (.failExpected _ _)

theorem passes_accessors (hg : g.Serve L d b g') (operand : Operand) :
    Passes L d b b (accessors g b operand) (accessors g' b operand) := by
  induction b generalizing operand with
  | zero => exact .of_zero
  | succ b ih =>
    have hg₀ := hg.mono (Nat.le_succ b)
    unfold accessors
    refine .of_kind (fun kind _ => ?_) (Idle.pure operand).passes
    split
    · exact ((Access.opens_member hg₀ operand).bind (ih hg₀)).mono (Nat.le_succ b)
    · exact ((Access.opens_index hg₀ operand).bind (ih hg₀)).mono (Nat.le_succ b)
    · exact (Idle.pure operand).passes.opens

/-- An operand takes a token. -/
theorem takes_operand (hg : g.Serve L d b g') : Passes L d (b + 1) b (operand g) (operand g') := by
  have hprimary : Passes L d (b + 1) b
      (primary g >>= fun first => CompileM.budget >>= fun n => accessors g n first)
      (primary g' >>= fun first => CompileM.budget >>= fun n => accessors g' n first) :=
    .bind (takes_primary hg) fun first => .budget fun b₀ h₀ => passes_accessors (hg.mono h₀) first
  unfold operand
  refine .of_kind (fun kind _ => ?_) hprimary
  split
  · unfold negation
    exact CompileM.opens_advance.bind (by grind -funext)
  · unfold complement
    exact CompileM.opens_advance.bind (by grind -funext)
  · unfold boxed
    exact CompileM.opens_advance.bind (by grind -funext)
  · exact hprimary.opens

/-- An expression takes a token. -/
theorem takes_read (hg : g.Serve L d b g') (min : Precedence) :
    Passes L d (b + 1) b (read g min) (read g' min) := by
  unfold read
  refine .bind CompileM.tracks_current.idle.passes fun token => ?_
  exact .bind (takes_operand hg) fun first => passes_continue_ hg first min token

end Expression

/-! ### Blocks and functions -/

namespace CompileM

/-- The cursor moves on. -/
theorem agree_moveTo {c : Compiler} (hc : c.Reading L d b) {n : Nat} (hn : c.cursor ≤ n) :
    Agree (moveTo n) (moveTo n) c fun _ c' => c'.tokens = c.tokens ∧ c'.Reading L d b := by
  refine .done rfl rfl ⟨rfl, hc.forward ?_⟩
  have hleft := hc.left
  rw [Compiler.left] at hleft
  omega

/-- The indents of a line are passed over. -/
theorem passes_indents {b' : Nat} (level : Nat) {k k' : Unit → CompileM β}
    (hk : ∀ u, Passes L d b b' (k u) (k' u)) :
    Passes L d b b' (cursor >>= fun at_ => moveTo (at_ + level) >>= k)
      (cursor >>= fun at_ => moveTo (at_ + level) >>= k') := by
  intro c hc
  refine .ask ((agree_moveTo hc (Nat.le_add_right _ _)).bind fun u c₁ h₁ => ?_)
  exact (hk u c₁ h₁.2).mono fun _ _ h₂ => ⟨h₂.1.trans h₁.1, h₂.2⟩

end CompileM

namespace Block

theorem passes_statements (hg : g.Serve L d b g') (depth : Nat) :
    Passes L d b b (statements g depth b) (statements g' depth b) := by
  induction b with
  | zero => exact .of_zero
  | succ b ih =>
    unfold statements
    refine .seq (Idle.ask _).passes fun level => .seq (Idle.ask _).passes fun done => ?_
    split
    · exact (Idle.pure ()).passes
    · split
      · exact Idle.passes (.bind (.ask _) fun _ => .fail (by simp))
      · refine CompileM.passes_indents level fun _ => ?_
        exact (Passes.bind (hg.statement b (Nat.lt_succ_self b) depth)
          fun _ => ih (hg.mono (Nat.le_succ b))).mono (Nat.le_succ b)

@[grind ←] theorem passes_block (hg : g.Serve L d b g') (depth : Nat) :
    Passes L d b b (block g depth) (block g' depth) := by
  unfold block
  refine .seq (tracks_requireLine depth).idle.passes fun _ => ?_
  exact .budget fun b₀ h₀ => passes_statements (hg.mono h₀) depth

@[grind ←] theorem passes_tail (hg : g.Serve L d b g') (depth : Nat) :
    Passes L d b b (tail g depth) (tail g' depth) := by
  unfold tail
  grind

@[grind ←] theorem passes_body (hg : g.Serve L d b g') (depth : Nat) :
    Passes L d b b (body g depth) (body g' depth) := by
  unfold body
  grind

end Block

namespace Function

/-- A parameter takes its type. -/
theorem takes_parameter (hg : g.Serve L d b g') (before : List Parameter) :
    Passes L d (b + 1) b (parameter g before) (parameter g' before) := by
  unfold parameter
  refine .bind CompileM.tracks_current.idle.passes fun token => ?_
  exact .bind (TypeExpr.takes_read hg true) (by grind -funext)

theorem passes_parameters (hg : g.Serve L d b g') (done : List Parameter) :
    Passes L d b b (parameters g b done) (parameters g' b done) := by
  induction b generalizing done with
  | zero => exact .of_zero
  | succ b ih =>
    have hg₀ := hg.mono (Nat.le_succ b)
    have hrest := ih hg₀
    unfold parameters
    refine (Passes.bind (takes_parameter hg₀ done) fun p => ?_).mono (Nat.le_succ b)
    grind -funext

@[grind ←] theorem passes_result (hg : g.Serve L d b g') :
    Passes L d b b (result g) (result g') := by
  unfold result
  grind -funext

/-- The head of a function takes its keyword. -/
theorem takes_signature (hg : g.Serve L d b g') :
    Passes L d (b + 1) b (signature g) (signature g') := by
  unfold signature
  refine .bind (CompileM.takes_consume (by simp) _) fun _ => ?_
  refine .seq (CompileM.passes_identifier _) fun name => ?_
  refine .seq (CompileM.passes_consume _ _) fun _ => ?_
  extract_lets listed listed'
  have hlisted : ∀ b₀ ≤ b, ∀ r, Passes L d b₀ b₀ (listed r) (listed' r) := by
    intro b₀ h₀ r
    have hg₀ := hg.mono h₀
    grind -funext
  clear_value listed listed'
  refine .seq (CompileM.tracks_check _).idle.passes fun empty => ?_
  split
  · exact .seq (Idle.pure _).passes fun r => hlisted b (Nat.le_refl b) r
  · refine .budget fun b₀ h₀ => ?_
    exact .seq (passes_parameters (hg.mono h₀) []) fun r => hlisted b₀ h₀ r

@[grind ←] theorem passes_signature (hg : g.Serve L d b g') :
    Passes L d b b (signature g) (signature g') :=
  .of_takes fun _ h₀ => takes_signature (hg.mono (Nat.le_of_lt h₀))

@[grind ←] theorem passes_body (hg : g.Serve L d b g') (header : FunctionHeader) (depth : Nat)
    (name : Token) : Passes L d b b (body g header depth name) (body g' header depth name) := by
  unfold body
  cases header.kind with
  | external index => exact (Idle.pure ()).passes
  | script chunk =>
    refine .seq (tracks_open_ (Walk.good_free _) _).idle.passes fun _ => ?_
    refine .seq (tracks_declareParameters (Walk.good_free _) _ _).idle.passes fun _ => ?_
    grind -funext

/-- The declaration of a function takes its keyword. -/
theorem takes_declaration (hg : g.Serve L d b g') (depth : Nat) :
    Passes L d (b + 1) b (declaration g depth) (declaration g' depth) := by
  unfold declaration
  exact .bind (takes_signature hg) (by grind -funext)

/-- The declaration of a function of the host takes its keyword. -/
theorem opens_external (hg : g.Serve L d b g') :
    Opens L d (b + 1) b (external g) (external g') := by
  unfold external
  refine CompileM.opens_advance.bind fun _ => .seq (passes_signature hg) fun s => ?_
  refine .seq (Idle.ask _).passes fun _ => .seq (CompileM.tracks_short _ _).idle.passes fun _ => ?_
  refine .seq (tracks_declareGlobal (Walk.good_free _) _ _).idle.passes fun _ => ?_
  refine .seq (Idle.passes (.of_modify fun _ => ?_)) fun _ => CompileM.passes_endStatement
  exact ⟨rfl, rfl, rfl, rfl, rfl⟩

end Function

/-! ### Statements -/

namespace Statement

@[grind ←] theorem passes_condition (hg : g.Serve L d b g') :
    Passes L d b b (condition g) (condition g') := by
  unfold condition
  grind -funext

@[grind ←] theorem passes_elseFollows (depth : Nat) :
    Passes L d b b (elseFollows depth) (elseFollows depth) := by
  intro c hc
  unfold elseFollows
  refine .ask (.ask (.ask ?_))
  -- What is read before the cursor moves leaves it where it is.
  refine ((CompileM.tracks_check _).idle c).bind fun found c₁ h₁ => ?_
  have hc₁ := hc.beside h₁
  have hmove : ∀ {c₂ : Compiler} (n : Nat), c₂.Reading L d b → c₂.tokens = c.tokens →
      c₂.cursor ≤ n → Agree (CompileM.moveTo n >>= fun _ => pure true)
        (CompileM.moveTo n >>= fun _ => pure true) c₂
        fun _ c' => c'.tokens = c.tokens ∧ c'.Reading L d b :=
    fun n h₂ htokens hn => (CompileM.agree_moveTo h₂ hn).bind fun _ _ h₃ =>
      .pure ⟨h₃.1.trans htokens, h₃.2⟩
  split
  · refine hmove _ hc₁ h₁.tokens ?_
    rw [h₁.cursor]
    exact Nat.le_succ _
  · refine ((CompileM.tracks_kindAhead _).idle c₁).bind fun next c₂ h₂ => ?_
    have hc₂ := hc₁.beside h₂
    split
    · refine hmove _ hc₂ (h₂.tokens.trans h₁.tokens) ?_
      rw [h₂.cursor, h₁.cursor]
      omega
    · exact .pure ⟨h₂.tokens.trans h₁.tokens, hc₂⟩

/-- A declaration of a variable takes its keyword. -/
theorem opens_variable_ (hg : g.Serve L d b g') :
    Opens L d (b + 1) b (variable_ g) (variable_ g') := by
  unfold variable_
  refine CompileM.opens_advance.bind fun _ => .seq (CompileM.passes_identifier _) fun name => ?_
  refine .seq (CompileM.passes_consume _ _) fun _ => ?_
  refine .seq CompileM.tracks_current.idle.passes fun _ => ?_
  refine .seq (hg.passes_expression _) fun ty => ?_
  grind -funext

/-- A conditional takes its keyword. -/
theorem opens_conditional (hg : g.Serve L d b g') (depth : Nat) :
    Opens L d (b + 1) b (conditional g depth) (conditional g' depth) := by
  unfold conditional
  refine CompileM.opens_advance.bind fun _ => .seq (passes_condition hg) fun _ => ?_
  refine .seq (CompileM.passes_consume _ _) fun _ => ?_
  refine .seq (CompileM.tracks_emitJump _).idle.passes fun _ => ?_
  refine .seq (Block.passes_body hg depth) fun _ => .seq (passes_elseFollows depth) fun _ => ?_
  grind -funext

@[grind ←] theorem passes_loopBody (hg : g.Serve L d b g') (start depth : Nat) (token : Token) :
    Passes L d b b (loopBody g start depth token) (loopBody g' start depth token) := by
  unfold loopBody
  grind -funext

/-- A loop takes its keyword. -/
theorem opens_whileLoop (hg : g.Serve L d b g') (depth : Nat) :
    Opens L d (b + 1) b (whileLoop g depth) (whileLoop g' depth) := by
  unfold whileLoop
  refine CompileM.opens_advance.bind fun _ => .seq CompileM.tracks_here.idle.passes fun _ => ?_
  exact .seq (passes_condition hg) (by grind -funext)

theorem opens_loop (hg : g.Serve L d b g') (depth : Nat) :
    Opens L d (b + 1) b (loop g depth) (loop g' depth) := by
  unfold loop
  exact CompileM.opens_advance.bind (by grind -funext)

/-- A jump out of a loop takes its keyword. -/
theorem opens_break_ : Opens L d (b + 1) b break_ break_ := by
  unfold break_
  exact CompileM.opens_advance.bind (by grind -funext)

theorem opens_continue_ : Opens L d (b + 1) b continue_ continue_ := by
  unfold continue_
  exact CompileM.opens_advance.bind (by grind -funext)

/-- A return takes its keyword. -/
theorem opens_return_ (hg : g.Serve L d b g') :
    Opens L d (b + 1) b (return_ g) (return_ g') := by
  unfold return_
  refine CompileM.opens_advance.bind fun _ => .seq (Idle.ask _).passes fun returns => ?_
  refine .seq (Idle.ask _).passes fun inEntry => ?_
  refine .seq CompileM.tracks_atStatementEnd.idle.passes fun ended => ?_
  split
  · grind -funext
  · split
    · exact (Idle.fail (by simp)).passes
    · refine .seq CompileM.tracks_current.idle.passes fun _ => ?_
      refine .seq (hg.passes_expression _) fun ty => ?_
      refine .seq (CompileM.tracks_expectType _ _).idle.passes fun _ => ?_
      grind -funext

theorem opens_yield (hg : g.Serve L d b g') : Opens L d (b + 1) b (yield g) (yield g') := by
  unfold yield
  exact CompileM.opens_advance.bind (by grind -funext)

theorem opens_free (hg : g.Serve L d b g') : Opens L d (b + 1) b (free g) (free g') := by
  unfold free
  refine CompileM.opens_advance.bind fun _ => .seq hg.passes_operand fun _ => ?_
  refine .seq (CompileM.tracks_placeOf (Walk.good_free _) _).idle.passes fun target => ?_
  extract_lets freed
  have hfreed : ∀ u, Passes L d b b (freed u) (freed u) := fun _ => CompileM.passes_endStatement
  clear_value freed
  split
  · refine .seq (CompileM.tracks_wordsOf (Walk.good_free _)).idle.passes fun _ => ?_
    grind -funext
  · refine .seq (CompileM.tracks_wordsOf (Walk.good_free _)).idle.passes fun _ => ?_
    grind -funext
  · grind -funext

@[grind ←] theorem passes_assign (hg : g.Serve L d b g') (operand : Operand) (token : Token) :
    Passes L d b b (assign g operand token) (assign g' operand token) := by
  unfold assign
  refine .seq CompileM.passes_advance fun _ => ?_
  refine .seq (CompileM.tracks_placeOf (Walk.good_free _) _).idle.passes fun _ => ?_
  grind -funext

@[grind ←] theorem passes_update (hg : g.Serve L d b g') (operand : Operand) (token : Token) :
    Passes L d b b (update g operand token) (update g' operand token) := by
  unfold update
  refine .seq CompileM.passes_advance fun op => ?_
  refine .seq (CompileM.tracks_placeOf (Walk.good_free _) _).idle.passes fun target => ?_
  split
  · exact Idle.passes (.of_tracks (.failOperands _ _ _ _))
  · refine .seq (tracks_loadForUpdate (Walk.good_free _) _ _).idle.passes fun _ => ?_
    refine .seq CompileM.tracks_current.idle.passes fun _ => ?_
    grind -funext

@[grind ←] theorem passes_step (operand : Operand) (opcode : Opcode) (token : Token) :
    Passes L d b b (step operand opcode token) (step operand opcode token) := by
  unfold step
  refine .seq CompileM.passes_advance fun op => Idle.passes ?_
  grind

/-- An assignment or an expression takes a token. -/
theorem takes_expression (hg : g.Serve L d b g') :
    Passes L d (b + 1) b (expression g) (expression g') := by
  unfold expression
  refine .bind CompileM.tracks_current.idle.passes fun token => ?_
  refine .bind (Expression.takes_operand hg) fun operand => ?_
  refine .seq CompileM.tracks_kind.idle.passes fun k => ?_
  grind -funext

/-- A statement takes a token, if the declaration of a structure does. -/
theorem takes_read (hg : g.Serve L d b g') {depth : Nat}
    (hstructure : Opens L d (b + 1) b (Structure.declaration g depth)
      (Structure.declaration g' depth)) :
    Passes L d (b + 1) b (read g depth) (read g' depth) := by
  unfold read
  -- at the end of the file an expression is expected, which fails there
  refine .of_kind (fun kind _ => ?_) (takes_expression hg)
  split
  · exact opens_variable_ hg
  · exact opens_conditional hg depth
  · exact opens_whileLoop hg depth
  · exact opens_loop hg depth
  · exact opens_break_
  · exact opens_continue_
  · exact opens_return_ hg
  · exact opens_yield hg
  · exact opens_free hg
  · refine (tracks_requireTopLevel _).idle.opens_bind fun _ => ?_
    exact (Function.takes_declaration hg depth).opens
  · exact (tracks_requireTopLevel _).idle.opens_bind fun _ => hstructure
  · exact (tracks_requireTopLevel _).idle.opens_bind fun _ => Function.opens_external hg
  · exact (takes_expression hg).opens

end Statement

end WordScript
