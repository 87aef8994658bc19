/-
Walks through the grammar.

The functions of the grammar are gone through one after the other: on every walk on
which the productions go along with others, so do blocks, functions, calls, accessors,
expressions and statements.  What is said about all of them, for whatever end, is said
on such a walk.

* `Productions.Track` — productions that go along with others;
* `Function.tracks_body`, `Expression.tracks_read`, `Statement.tracks_read` —
  functions, expressions and statements.

Design notes: a function with branches after a check is a sequence whose last parts
are shared by the branches.  `extract_lets` names these parts on both sides, and they
are shown to go along with each other before the branches are looked at.
-/
import WordScript.Proofs.CompilerWalks

namespace WordScript

variable {W : Walk} {g g' : Productions} {t t' : Token}

/-- The productions of one record go along with those of the other. -/
structure Productions.Track (W : Walk) (g g' : Productions) : Prop
    extends g.TrackTypes W g' where
  expression : ∀ min, Tracks W id (g.expression min) (g'.expression min)
  operand : Tracks W id g.operand g'.operand
  statement : ∀ depth, Tracks W id (g.statement depth) (g'.statement depth)

attribute [grind ←] Productions.Track.expression Productions.Track.operand
  Productions.Track.statement

attribute [grind →] Productions.Track.toTrackTypes

/-! ### Blocks -/

namespace Block

@[grind ←] theorem tracks_requireLine (depth : Nat) :
    Tracks W id (requireLine depth) (requireLine depth) := by
  unfold requireLine
  refine .skip (.look fun c => c.indentation_moved) fun level => ?_
  refine .skip (.look fun c => c.atEnd_moved) fun done => ?_
  split
  · exact .bind_token (.look_token fun c => c.lineStart_moved) fun _ => .fail _ rfl _
  · exact .done ()

variable [W.Moves]

@[grind ←] theorem tracks_statements (hg : g.Track W g') (depth k : Nat) :
    Tracks W id (statements g depth k) (statements g' depth k) := by
  induction k with
  | zero => exact .failFuel _
  | succ k ih =>
    unfold statements
    refine .skip (.look fun c => c.indentation_moved) fun level => ?_
    refine .skip (.look fun c => c.atEnd_moved) fun done => ?_
    split
    · exact .done ()
    split
    · exact .bind_token (.look_token fun c => c.lineStart_moved) fun _ => .fail _ rfl _
    · grind

@[grind ←] theorem tracks_tail (hg : g.Track W g') (depth : Nat) :
    Tracks W id (tail g depth) (tail g' depth) := by
  unfold tail block
  grind -funext

@[grind ←] theorem tracks_body (hg : g.Track W g') (depth : Nat) :
    Tracks W id (body g depth) (body g' depth) := by
  unfold body
  grind -funext

end Block

/-! ### Functions -/

theorem Signature.good_header {s : Signature} (h : W.Good s) (kind : FunctionKind)
    (receiver : Option Nat) : W.Good (s.header kind receiver) :=
  h

namespace Function

@[grind ←] theorem tracks_reserveChunk (name : String) (t t' : Token) :
    Tracks W id (reserveChunk name t) (reserveChunk name t') := by
  unfold reserveChunk
  refine .skip (.look fun _ => rfl) fun _ => .skip (CompileM.tracks_short _ _) fun index => ?_
  refine .skip (.of_modify (fun _ => rfl) fun _ _ hc => ?_) fun _ => .done index
  exact hc.alike ⟨rfl, rfl, rfl, rfl, rfl, rfl⟩ fun _ hg => { hg with }

@[grind ←] theorem tracks_close : Tracks W id close close := by
  refine .of_modify (fun c => ?_) fun _ c hc => ?_
  · rw [c.nested_moved]
    cases c.nested <;> rfl
  · split
    · exact hc
    · rename_i hnested
      exact hc.alike ⟨rfl, rfl, rfl, rfl, rfl, rfl⟩ fun _ hg =>
        { hg with
          scopes := ScopeTree.ground_exit hg.scopes
          nested := (List.forall_mem_cons.mp (hnested ▸ hg.nested)).2 }

section

variable [W.Closed]

@[grind ←] theorem tracks_declareGlobal {header : FunctionHeader} (h : W.Good header)
    (t t' : Token) : Tracks W id (declareGlobal header t) (declareGlobal header t') := by
  intro c₀ c hc
  unfold declareGlobal
  rw [CompileM.ask_bind, CompileM.ask_bind, Compiler.scopes_moved]
  cases hdeclare : c.scopes.declareFunction ScopeTree.globalScope header with
  | error e => exact Walk.allows rfl
  | ok scopes =>
    refine ⟨.done, hc.alike ⟨rfl, rfl, rfl, rfl, rfl, rfl⟩ fun hT hg => ?_, Walk.good_none _⟩
    exact { hg with
      scopes := ScopeTree.ground_declareFunction hg.scopes (h.groundHeader hT) hdeclare }

@[grind ←] theorem tracks_open_ {returns : Ty} (h : W.Good returns) (chunk : Nat) :
    Tracks W id (open_ chunk returns) (open_ chunk returns) :=
  .of_modify (fun _ => rfl) fun _ _ hc => hc.alike ⟨rfl, rfl, rfl, rfl, rfl, rfl⟩ fun hT hg =>
    { hg with
      scopes := ScopeTree.ground_enter hg.scopes _ _
      nested := List.forall_mem_cons.mpr ⟨h.ground hT, hg.nested⟩ }

@[grind ←] theorem tracks_declareParameters {header : FunctionHeader} (h : W.Good header)
    (t t' : Token) :
    Tracks W id (declareParameters header t) (declareParameters header t') := by
  have hparameters := ((Walk.good_header header).mp h).2
  unfold declareParameters
  extract_lets listed listed'
  have hlisted : ∀ u, Tracks W id (listed u) (listed' u) := fun _ =>
    .forM fun p hp => .skip (CompileM.tracks_declare rfl (hparameters p hp)) fun _ => .done ()
  clear_value listed listed'
  cases header.receiver with
  | none => exact hlisted ()
  | some owner => exact .skip (CompileM.tracks_declare rfl (by simp)) fun _ => hlisted ()

@[grind ←] theorem tracks_emitReturn {returns : Ty} (h : W.Good returns) (t t' : Token) :
    Tracks W id (emitReturn returns t) (emitReturn returns t') := by
  unfold emitReturn
  grind -funext

end

variable [W.Moves]

@[grind ←] theorem tracks_parameter (hg : g.TrackTypes W g') (before : List Parameter) :
    Tracks W id (parameter g before) (parameter g' before) := by
  unfold parameter
  refine .bind_token CompileM.tracks_current fun _ => ?_
  refine .bind (TypeExpr.tracks_read hg _) fun ty hty => ?_
  extract_lets named
  have hnamed : ∀ u, Tracks W id (named u) (named u) := fun _ => by
    refine .bind_token (CompileM.tracks_identifier _) fun name => ?_
    simp only [Token.lexeme_moved]
    grind -funext
  clear_value named
  grind -funext

@[grind ←] theorem tracks_parameters (hg : g.TrackTypes W g') (k : Nat) {done : List Parameter}
    (hdone : W.Good done) : Tracks W id (parameters g k done) (parameters g' k done) := by
  induction k generalizing done with
  | zero => exact .failFuel _
  | succ k ih =>
    unfold parameters
    grind -funext

@[grind ←] theorem tracks_result (hg : g.TrackTypes W g') :
    Tracks W id (result g) (result g') := by
  unfold result
  grind -funext

theorem tracks_signature (hg : g.TrackTypes W g') :
    Tracks W (Signature.moved W.place) (signature g) (signature g') := by
  unfold signature
  refine .bind_token (CompileM.tracks_consume _ _) fun _ => ?_
  refine .bind_token (CompileM.tracks_identifier _) fun name => ?_
  refine .bind_token (CompileM.tracks_consume _ _) fun _ => ?_
  refine .skip (CompileM.tracks_check _) fun empty => ?_
  extract_lets listed listed'
  have hlisted : ∀ ps, W.Good ps → Tracks W (Signature.moved W.place) (listed ps) (listed' ps) := by
    intro ps hps
    refine .bind_token (CompileM.tracks_consume _ _) fun _ => ?_
    refine .bind (tracks_result hg) fun returns hreturns => ?_
    exact .pure_moved (a := Signature.mk name ps returns) (by grind)
  clear_value listed listed'
  grind -funext

@[grind ←] theorem tracks_body [W.Closed] (hg : g.Track W g') {header : FunctionHeader}
    (h : W.Good header) (depth : Nat) (t t' : Token) :
    Tracks W id (body g header depth t) (body g' header depth t') := by
  have hreturns := ((Walk.good_header header).mp h).1
  unfold body
  cases header.kind with
  | external index => exact .done ()
  | script chunk =>
    refine .skip (tracks_open_ hreturns _) fun _ => ?_
    refine .skip (tracks_declareParameters h _ _) fun _ => ?_
    refine .skip (Block.tracks_tail hg _) fun _ => ?_
    exact .skip (tracks_emitReturn hreturns _ _) fun _ => tracks_close

@[grind ←] theorem tracks_declaration [W.Closed] (hg : g.Track W g') (depth : Nat) :
    Tracks W id (declaration g depth) (declaration g' depth) := by
  unfold declaration
  refine .bind_moved (tracks_signature hg.toTrackTypes) fun s hs => ?_
  refine .skip (tracks_reserveChunk s.name.lexeme s.name _) fun chunk => ?_
  have hheader := Signature.good_header hs (.script chunk) none
  exact .skip (tracks_declareGlobal hheader _ _) fun _ => tracks_body hg hheader _ _ _

@[grind ←] theorem tracks_external [W.Closed] (hg : g.TrackTypes W g') :
    Tracks W id (external g) (external g') := by
  unfold external
  refine .bind_token CompileM.tracks_advance fun _ => ?_
  refine .bind_moved (tracks_signature hg) fun s hs => .skip (.look fun _ => rfl) fun _ => ?_
  refine .skip (CompileM.tracks_short _ _) fun index => ?_
  refine .skip (tracks_declareGlobal (Signature.good_header hs _ _) _ _) fun _ => ?_
  refine .skip (.of_modify (fun _ => rfl) fun _ _ hc => ?_) fun _ => CompileM.tracks_endStatement
  exact hc.alike ⟨rfl, rfl, rfl, rfl, rfl, rfl⟩ fun _ hg => { hg with }

end Function

/-! ### Calls and accessors -/

namespace Call

variable [W.Closed]

@[grind ←] theorem tracks_argument (hg : g.Track W g') {parameter : Option Parameter}
    (h : W.Good parameter) : Tracks W id (argument g parameter) (argument g' parameter) := by
  unfold argument
  refine .bind_token CompileM.tracks_current fun token => ?_
  split
  · refine .bind hg.operand fun operand hoperand => ?_
    refine .bind (CompileM.tracks_placeOf hoperand _) fun target _ => ?_
    grind -funext
  · grind -funext
  · grind -funext

variable [W.Moves]

@[grind ←] theorem tracks_arguments (hg : g.Track W g') {parameters : List Parameter}
    (h : ∀ p ∈ parameters, W.Good p.ty) (k found words : Nat) :
    Tracks W id (arguments g parameters k found words)
      (arguments g' parameters k found words) := by
  induction k generalizing found words with
  | zero => exact .failFuel _
  | succ k ih =>
    have hparameter : W.Good parameters[found]? :=
      (Walk.good_option _).mpr fun p hp => h p (List.mem_of_getElem? hp)
    unfold arguments
    grind -funext

@[grind ←] theorem tracks_read (hg : g.Track W g') {header : FunctionHeader}
    (h : W.Good header) (receiver : Option Place) (t t' : Token) :
    Tracks W id (read g header receiver t) (read g' header receiver t') := by
  obtain ⟨hreturns, hparameters⟩ := (Walk.good_header header).mp h
  unfold read
  refine .bind_token (CompileM.tracks_consume _ _) fun _ => ?_
  -- What follows the receiver, the arguments and the call itself, from the last one to the first.
  extract_lets returned counted passed counted' passed'
  have hcounted : ∀ r, Tracks W id (counted r) (counted' r) := by
    intro r
    refine .bind_token (CompileM.tracks_consume _ _) fun _ => ?_
    extract_lets emitted emitted'
    have hemitted : ∀ u, Tracks W id (emitted u) (emitted' u) := fun _ => by
      refine .skip (CompileM.tracks_byte _ _) fun words => ?_
      cases header.kind <;> grind -funext
    clear_value emitted emitted'
    grind -funext
  clear_value counted counted'
  have hpassed : ∀ words, Tracks W id (passed words) (passed' words) := by grind -funext
  clear_value passed passed'
  cases receiver with
  | none => exact hpassed 0
  | some place => exact .skip (CompileM.tracks_addressOf _) fun _ => hpassed 1

end Call

namespace Access

section Emitting

variable [W.Closed] {operand : Operand}

@[grind ←] theorem tracks_field (hname : t'.lexeme = t.lexeme) (h : W.Good operand.ty) :
    Tracks W id (field operand t) (field operand t') := by
  unfold field
  rw [hname]
  split
  · refine .bind (.ask (fun _ => rfl) fun c₀ c hc => ?_) fun found hfound => ?_
    · exact (Walk.good_option _).mpr fun f hf => Walk.good_of_ground fun hT =>
        TypeTable.ground_field? (hc.ground hT).structures hf
    split
    · exact CompileM.tracks_select h ((Walk.good_option _).mp hfound _ rfl) _
    · exact .failMember _ _ _
  all_goals grind -funext

@[grind ←] theorem tracks_element (hname : t'.lexeme = t.lexeme) (h : W.Good operand.ty) :
    Tracks W id (element operand t) (element operand t') := by
  unfold element
  rw [hname]
  grind -funext

end Emitting

variable [W.Closed] [W.Moves] {operand : Operand}

@[grind ←] theorem tracks_push (hg : g.Track W g') {ty : Ty} (h : W.Good operand.ty)
    (hty : W.Good ty) (t t' : Token) :
    Tracks W id (push g operand ty t) (push g' operand ty t') := by
  unfold push
  refine .skip (CompileM.tracks_placeOf h _) fun list => ?_
  refine .skip (CompileM.tracks_addressOf _) fun _ => ?_
  refine .bind_token (CompileM.tracks_consume _ _) fun _ => ?_
  refine .bind_token CompileM.tracks_current fun _ => .skip (hg.expression _) fun _ => ?_
  refine .skip (CompileM.tracks_expectType _ _) fun _ => ?_
  refine .bind_token (CompileM.tracks_consume _ _) fun _ => ?_
  grind -funext

@[grind ←] theorem tracks_memberCall (hg : g.Track W g') (hname : t'.lexeme = t.lexeme)
    (h : W.Good operand.ty) :
    Tracks W id (memberCall g operand t) (memberCall g' operand t') := by
  unfold memberCall
  rw [hname]
  split
  · grind -funext
  · refine .bind (.ask (fun _ => rfl) fun c₀ c hc => ?_) fun found hfound => ?_
    · exact (Walk.good_option _).mpr fun m hm => Walk.good_of_groundHeader fun hT =>
        TypeTable.ground_method? (hc.ground hT).structures hm
    split
    · exact .failMember _ _ _
    · have hheader := (Walk.good_option _).mp hfound _ rfl
      refine .skip (CompileM.tracks_placeOf h _) fun _ => ?_
      refine .bind (Call.tracks_read hg hheader _ _ _) fun _ hreturns => .pure ?_
      simpa [Operand.ty]
  · exact .failMember _ _ _

@[grind ←] theorem tracks_member (hg : g.Track W g') (h : W.Good operand.ty) :
    Tracks W id (member g operand) (member g' operand) := by
  unfold member
  refine .bind_token CompileM.tracks_advance fun _ => ?_
  refine .bind (CompileM.tracks_deref h) fun target htarget => ?_
  refine .bind_token CompileM.tracks_advance fun token => ?_
  rw [Token.kind_moved]
  split <;> grind -funext

omit [W.Closed] in
@[grind ←] theorem tracks_indexExpression (hg : g.Track W g') :
    Tracks W id (indexExpression g) (indexExpression g') := by
  unfold indexExpression
  refine .bind_token CompileM.tracks_current fun _ => .skip (hg.expression _) fun _ => ?_
  grind -funext

@[grind ←] theorem tracks_index (hg : g.Track W g') (h : W.Good operand.ty) :
    Tracks W id (index g operand) (index g' operand) := by
  unfold index
  refine .bind_token CompileM.tracks_advance fun _ => ?_
  refine .bind (CompileM.tracks_deref h) fun o ho => ?_
  split
  · rename_i elementTy length heq
    have hspan : W.Good (elementTy.span length) := heq ▸ ho
    refine .skip (CompileM.tracks_placeOf ho _) fun _ => ?_
    -- What follows the address of the span.
    extract_lets indexed indexed'
    have hindexed : ∀ offset, Tracks W id (indexed offset) (indexed' offset) := by grind -funext
    clear_value indexed indexed'
    grind -funext
  · rename_i elementTy heq
    have hlist : W.Good elementTy.list := heq ▸ ho
    refine .skip (CompileM.tracks_load ho) fun _ => ?_
    grind -funext
  · exact .skip (CompileM.tracks_typeName _) fun _ => .fail _ rfl _

end Access

/-! ### Expressions -/

namespace Expression

section Emitting

variable [W.Closed] {left : Ty}

@[grind ←] theorem tracks_equality {ty : Ty} (h : W.Good ty) (opcode : Opcode) (t t' : Token) :
    Tracks W id (equality opcode t ty) (equality opcode t' ty) := by
  unfold equality
  grind -funext

omit [W.Closed] in
@[grind ←] theorem tracks_calculation {ty : Ty} (hkind : t'.kind = t.kind) (h : W.Good ty) :
    Tracks W id (calculation t ty) (calculation t' ty) := by
  unfold calculation
  rw [hkind]
  grind -funext

@[grind ←] theorem tracks_binary (hkind : t'.kind = t.kind) (h : W.Good left) (right : Ty) :
    Tracks W id (binary t left right) (binary t' left right) := by
  unfold binary
  rw [hkind]
  split
  · exact .failOperands _ _ _ _
  · split <;> grind -funext

end Emitting

variable [W.Closed] [W.Moves]

@[grind ←] theorem tracks_operators (hg : g.Track W g') {left : Ty} (h : W.Good left)
    (min : Precedence) (k : Nat) :
    Tracks W id (operators g min k left) (operators g' min k left) := by
  induction k generalizing left with
  | zero => exact .failFuel _
  | succ k ih =>
    unfold operators
    refine .skip CompileM.tracks_kind fun kind => ?_
    split
    · exact .pure h
    split
    · exact .pure h
    refine .bind_token CompileM.tracks_advance fun op => .skip (hg.expression _) fun _ => ?_
    exact .bind (tracks_binary op.kind_moved h _) fun _ hty => ih hty

@[grind ←] theorem tracks_continue_ (hg : g.Track W g') {operand : Operand}
    (h : W.Good operand.ty) (min : Precedence) (t t' : Token) :
    Tracks W id (continue_ g operand min t) (continue_ g' operand min t') := by
  unfold continue_
  grind -funext

omit [W.Closed] in
@[grind ←] theorem tracks_spanElements (hg : g.Track W g') (element : Ty) (k length : Nat) :
    Tracks W id (spanElements g element k length) (spanElements g' element k length) := by
  induction k generalizing length with
  | zero => exact .failFuel _
  | succ k ih =>
    unfold spanElements
    grind -funext

omit [W.Closed] in
@[grind ←] theorem tracks_spanLiteral (hg : g.Track W g') :
    Tracks W id (spanLiteral g) (spanLiteral g') := by
  unfold spanLiteral
  refine .bind_token CompileM.tracks_advance fun _ => .skip (CompileM.tracks_check _) fun _ => ?_
  -- What follows the check that there is an element.
  extract_lets elements elements'
  have helements : ∀ u, Tracks W id (elements u) (elements' u) := fun _ => by
    refine .bind_token CompileM.tracks_current fun _ => .bind (hg.expression _) fun element h => ?_
    extract_lets counted counted'
    have hcounted : ∀ u, Tracks W id (counted u) (counted' u) := fun _ => by
      refine .skip CompileM.tracks_budget fun _ => ?_
      refine .skip (tracks_spanElements hg _ _ _) fun _ => ?_
      refine .bind_token (CompileM.tracks_consume _ _) fun _ => ?_
      exact .skip (CompileM.tracks_short _ _) fun _ => .pure (by simpa [Operand.ty])
    clear_value counted counted'
    grind -funext
  clear_value elements elements'
  grind -funext

@[grind ←] theorem tracks_initialisers (hg : g.Track W g') (s : StructureType) (t t' : Token)
    (k : Nat) : Tracks W id (initialisers g s t k) (initialisers g' s t' k) := by
  induction k with
  | zero => exact .failFuel _
  | succ k ih =>
    unfold initialisers
    refine .bind_token (CompileM.tracks_identifier _) fun name => ?_
    rw [Token.lexeme_moved]
    split
    · exact .fail _ rfl _
    · refine .bind_token (CompileM.tracks_consume _ _) fun _ => ?_
      refine .bind_token CompileM.tracks_current fun _ => .bind (hg.expression _) fun _ hty => ?_
      refine .skip (CompileM.tracks_expectType _ _) fun _ => ?_
      refine .skip (CompileM.tracks_wordsOf hty) fun _ => ?_
      refine .skip (CompileM.tracks_byte _ _) fun _ => ?_
      grind -funext

@[grind ←] theorem tracks_structureLiteral (hg : g.Track W g') (id_ : Nat) (t t' : Token) :
    Tracks W id (structureLiteral g id_ t) (structureLiteral g' id_ t') := by
  unfold structureLiteral
  refine .bind_token (CompileM.tracks_consume _ _) fun _ => .skip (.look fun _ => rfl) fun s => ?_
  refine .skip (CompileM.tracks_short _ _) fun _ => .skip (CompileM.tracks_emit _) fun _ => ?_
  grind -funext

@[grind ←] theorem tracks_typeLiteral (hg : g.Track W g') :
    Tracks W id (typeLiteral g) (typeLiteral g') := by
  unfold typeLiteral
  refine .bind_token CompileM.tracks_current fun _ => ?_
  refine .bind (TypeExpr.tracks_read hg.toTrackTypes _) fun ty hty => ?_
  refine .skip (CompileM.tracks_check _) fun braced => ?_
  cases braced with
  | true => cases ty <;> grind -funext
  | false => cases ty <;> grind -funext

omit [W.Closed] in
@[grind ←] theorem tracks_conversion (hg : g.Track W g') :
    Tracks W id (conversion g) (conversion g') := by
  unfold conversion
  refine .bind_token CompileM.tracks_advance fun token => ?_
  refine .bind_token (CompileM.tracks_consume _ _) fun _ => ?_
  refine .bind_token CompileM.tracks_current fun _ => .skip (hg.expression _) fun ty => ?_
  refine .bind_token (CompileM.tracks_consume _ _) fun _ => ?_
  grind -funext

@[grind ←] theorem tracks_name (hg : g.Track W g') : Tracks W id (name g) (name g') := by
  unfold name
  refine .bind_token CompileM.tracks_current fun token => ?_
  refine .bind (.ask (fun _ => rfl) fun c₀ c hc => ?_) fun v hv => ?_
  · exact (Walk.good_option _).mpr fun v hv => Walk.good_of_ground fun hT =>
      ScopeTree.ground_lookupVariable? (hc.ground hT).scopes hv
  split
  · exact .bind_token CompileM.tracks_advance fun _ =>
      CompileM.tracks_variableOperand ((Walk.good_option _).mp hv _ rfl)
  rw [Token.lexeme_moved]
  refine .skip (CompileM.tracks_kindAhead _) fun next => ?_
  split
  · split
    · exact tracks_conversion hg
    refine .bind (.ask (fun _ => rfl) fun c₀ c hc => ?_) fun f hf => ?_
    · exact (Walk.good_option _).mpr fun f hf => Walk.good_of_groundHeader fun hT =>
        ScopeTree.ground_lookupFunction? (hc.ground hT).scopes hf
    split
    · exact .fail _ rfl _
    · have hheader := (Walk.good_option _).mp hf _ rfl
      refine .bind_token CompileM.tracks_advance fun _ => ?_
      refine .bind (Call.tracks_read hg hheader _ _ _) fun _ hreturns => .pure ?_
      simpa [Operand.ty]
  · exact .skip (.look fun c => c.isTypeName_moved _) fun _ => by grind -funext

@[grind ←] theorem tracks_primary (hg : g.Track W g') :
    Tracks W id (primary g) (primary g') := by
  unfold primary
  refine .bind_token CompileM.tracks_current fun token => ?_
  rw [Token.kind_moved, Token.lexeme_moved]
  split
  · refine .bind_token CompileM.tracks_advance fun _ => ?_
    split <;> grind -funext
  all_goals grind -funext

@[grind ←] theorem tracks_accessors (hg : g.Track W g') (k : Nat) {operand : Operand}
    (h : W.Good operand.ty) : Tracks W id (accessors g k operand) (accessors g' k operand) := by
  induction k generalizing operand with
  | zero => exact .failFuel _
  | succ k ih =>
    unfold accessors
    grind -funext

omit [W.Closed] in
@[grind ←] theorem tracks_negation (hg : g.Track W g') :
    Tracks W id (negation g) (negation g') := by
  unfold negation
  refine .bind_token CompileM.tracks_advance fun _ => .bind (hg.expression _) fun ty hty => ?_
  cases ty <;> grind -funext

omit [W.Closed] in
@[grind ←] theorem tracks_complement (hg : g.Track W g') :
    Tracks W id (complement g) (complement g') := by
  unfold complement
  grind -funext

@[grind ←] theorem tracks_boxed (hg : g.Track W g') : Tracks W id (boxed g) (boxed g') := by
  unfold boxed
  refine .bind_token CompileM.tracks_advance fun _ => .bind (hg.expression _) fun ty hty => ?_
  split <;> grind -funext

@[grind ←] theorem tracks_operand (hg : g.Track W g') :
    Tracks W id (operand g) (operand g') := by
  unfold operand
  grind -funext

@[grind ←] theorem tracks_read (hg : g.Track W g') (min : Precedence) :
    Tracks W id (read g min) (read g' min) := by
  unfold read
  grind -funext

end Expression

/-! ### Statements -/

namespace Statement

section Emitting

@[grind ←] theorem tracks_openLoop (start : Nat) :
    Tracks W id (openLoop start) (openLoop start) :=
  .of_modify (fun c => c.mapBuilder_moved _) fun _ _ hc => hc.mapBuilder fun _ => rfl

@[grind ←] theorem tracks_closeLoop (t t' : Token) :
    Tracks W id (closeLoop t) (closeLoop t') := by
  unfold closeLoop
  refine .bind (.ask (fun _ => rfl) fun _ _ _ => by simp [Walk.good_none]) fun loops _ => ?_
  cases loops with
  | nil => exact .done ()
  | cons l rest =>
    refine .skip (.mapBuilder fun _ => rfl) fun _ => ?_
    exact .forM fun at_ _ => CompileM.tracks_patchJump at_

@[grind ←] theorem tracks_unwindToLoop (t t' : Token) :
    Tracks W id (unwindToLoop t) (unwindToLoop t') := by
  unfold unwindToLoop
  refine .bind (.ask (fun _ => rfl) fun _ _ _ => by simp [Walk.good_none]) fun l _ => ?_
  cases l with
  | none => exact .fail _ rfl _
  | some l =>
    exact .skip (.look fun _ => rfl) fun _ => .skip (CompileM.tracks_emitPop _) fun _ => .done _

@[grind ←] theorem tracks_requireTopLevel (construct : String) :
    Tracks W id (requireTopLevel construct) (requireTopLevel construct) := by
  unfold requireTopLevel
  exact .skip (.look fun _ => rfl) fun _ => by grind -funext

@[grind ←] theorem tracks_loadForUpdate [W.Closed] {target : Place} (h : W.Good target.ty)
    (t t' : Token) : Tracks W id (loadForUpdate target t) (loadForUpdate target t') := by
  unfold loadForUpdate
  grind -funext

end Emitting

@[grind ←] theorem tracks_condition (hg : g.Track W g') :
    Tracks W id (condition g) (condition g') := by
  unfold condition
  grind -funext

section Loops

variable [W.Moves]

@[grind ←] theorem tracks_elseFollows (depth : Nat) :
    Tracks W id (elseFollows depth) (elseFollows depth) := by
  unfold elseFollows
  refine .skip CompileM.tracks_cursor fun at_ => ?_
  refine .skip (.look fun c => by rw [c.kindAt_moved]) fun sameLine => ?_
  refine .skip (.look fun c => c.indentation_moved) fun level => ?_
  grind -funext

@[grind ←] theorem tracks_conditional (hg : g.Track W g') (depth : Nat) :
    Tracks W id (conditional g depth) (conditional g' depth) := by
  unfold conditional
  refine .bind_token CompileM.tracks_advance fun _ => .skip (tracks_condition hg) fun _ => ?_
  refine .bind_token (CompileM.tracks_consume _ _) fun _ => ?_
  refine .skip (CompileM.tracks_emitJump _) fun _ => .skip (Block.tracks_body hg _) fun _ => ?_
  grind -funext

@[grind ←] theorem tracks_loopBody (hg : g.Track W g') (start depth : Nat) (t t' : Token) :
    Tracks W id (loopBody g start depth t) (loopBody g' start depth t') := by
  unfold loopBody
  grind -funext

@[grind ←] theorem tracks_whileLoop (hg : g.Track W g') (depth : Nat) :
    Tracks W id (whileLoop g depth) (whileLoop g' depth) := by
  unfold whileLoop
  refine .bind_token CompileM.tracks_advance fun _ => .skip CompileM.tracks_here fun _ => ?_
  refine .skip (tracks_condition hg) fun _ => .skip (CompileM.tracks_emitJump _) fun _ => ?_
  grind -funext

@[grind ←] theorem tracks_loop (hg : g.Track W g') (depth : Nat) :
    Tracks W id (loop g depth) (loop g' depth) := by
  unfold loop
  grind -funext

@[grind ←] theorem tracks_break_ : Tracks W id break_ break_ := by
  unfold break_
  grind

@[grind ←] theorem tracks_continue_ : Tracks W id continue_ continue_ := by
  unfold continue_
  grind

end Loops

variable [W.Closed] [W.Moves]

@[grind ←] theorem tracks_variable_ (hg : g.Track W g') :
    Tracks W id (variable_ g) (variable_ g') := by
  unfold variable_
  refine .bind_token CompileM.tracks_advance fun _ => ?_
  refine .bind_token (CompileM.tracks_identifier _) fun name => ?_
  refine .bind_token (CompileM.tracks_consume _ _) fun _ => ?_
  refine .bind_token CompileM.tracks_current fun _ => .bind (hg.expression _) fun ty hty => ?_
  grind -funext

@[grind ←] theorem tracks_return_ (hg : g.Track W g') :
    Tracks W id (return_ g) (return_ g') := by
  unfold return_
  refine .bind_token CompileM.tracks_advance fun _ => ?_
  refine .bind (.ask (fun _ => rfl) fun c₀ c hc => ?_) fun returns _ => ?_
  · exact Walk.good_of_ground fun hT => (hc.ground hT).returns_builder
  refine .skip (.look fun _ => rfl) fun inEntry => ?_
  refine .skip CompileM.tracks_atStatementEnd fun ended => ?_
  cases ended with
  | true => grind -funext
  | false =>
    cases inEntry with
    | true => exact .fail _ rfl _
    | false => grind -funext

omit [W.Closed] in
@[grind ←] theorem tracks_yield (hg : g.Track W g') : Tracks W id (yield g) (yield g') := by
  unfold yield
  grind -funext

@[grind ←] theorem tracks_free (hg : g.Track W g') : Tracks W id (free g) (free g') := by
  unfold free
  refine .bind_token CompileM.tracks_advance fun _ => .bind hg.operand fun _ hoperand => ?_
  refine .bind (CompileM.tracks_placeOf hoperand _) fun target htarget => ?_
  extract_lets freed
  have hfreed : ∀ u, Tracks W id (freed u) (freed u) := fun _ => CompileM.tracks_endStatement
  clear_value freed
  split <;> grind -funext

@[grind ←] theorem tracks_assign (hg : g.Track W g') {operand : Operand}
    (h : W.Good operand.ty) (t t' : Token) :
    Tracks W id (assign g operand t) (assign g' operand t') := by
  unfold assign
  grind -funext

@[grind ←] theorem tracks_update (hg : g.Track W g') {operand : Operand}
    (h : W.Good operand.ty) (t t' : Token) :
    Tracks W id (update g operand t) (update g' operand t') := by
  unfold update
  refine .bind_token CompileM.tracks_advance fun op => ?_
  refine .bind (CompileM.tracks_placeOf h _) fun target htarget => ?_
  rw [Token.kind_moved]
  split
  · exact .failOperands _ _ _ _
  · refine .skip (tracks_loadForUpdate htarget _ _) fun _ => ?_
    refine .bind_token CompileM.tracks_current fun _ => ?_
    grind -funext

@[grind ←] theorem tracks_step {operand : Operand} (h : W.Good operand.ty) (opcode : Opcode)
    (t t' : Token) : Tracks W id (step operand opcode t) (step operand opcode t') := by
  unfold step
  refine .bind_token CompileM.tracks_advance fun op => ?_
  refine .bind (CompileM.tracks_placeOf h _) fun target htarget => ?_
  grind

@[grind ←] theorem tracks_expression (hg : g.Track W g') :
    Tracks W id (expression g) (expression g') := by
  unfold expression
  refine .bind_token CompileM.tracks_current fun token => ?_
  refine .bind (Expression.tracks_operand hg) fun _ hoperand => ?_
  extract_lets ended
  have hended : ∀ u, Tracks W id (ended u) (ended u) := fun _ => CompileM.tracks_endStatement
  clear_value ended
  refine .skip CompileM.tracks_kind fun kind => ?_
  split <;> grind -funext

/-- A statement goes along with another one, if the declarations of structures do. -/
theorem tracks_read (hg : g.Track W g') {depth : Nat}
    (hstructure : Tracks W id (Structure.declaration g depth) (Structure.declaration g' depth)) :
    Tracks W id (read g depth) (read g' depth) := by
  unfold read
  refine .skip CompileM.tracks_kind fun kind => ?_
  split <;> grind -funext

end Statement

end WordScript
