/-
Statements keep the discipline of the stack.

Between statements the stack holds the variables of the open scopes.  A block drops
the variables it has declared, and so does a jump out of a loop, which also leaves
all blocks in between.

* `Stage.Ready.declare` — a variable;
* `Stage.Ready.body` — a block in a scope of its own;
* `Stage.Ready.conditional`, `whileLoop`, `loop`, `break_` and so on — the statements.
-/
import WordScript.Proofs.Expressions

namespace WordScript.Stage

variable {D : Debts} {G : Outlook} {s s' : Stage} {n : Nat} {o : Operand} {g : Productions} {ty : Ty}

/-! ### Scopes -/

/-- The tables are in order with other scopes that declare the same functions. -/
theorem Sound.rescope (h : s.Sound D) {sc : ScopeTree} (hsc : sc.Sound s.types)
    (hfunctions : (sc.get 0).functions = (s.scopes.get 0).functions)
    (hwords : s.scopes.wordLength 0 ≤ sc.wordLength 0) : Sound D { s with scopes := sc } := by
  have hknown : ∀ {f : FunctionHeader}, f.Known D s.linkage s.types (s.scopes.wordLength 0) →
      f.Known D s.linkage s.types (sc.wordLength 0) :=
    fun hf => hf.mono (.refl _) (.refl _) hwords
  refine ⟨h.types, hsc, fun id f hf => ?_, fun e he => ?_, h.bindings, h.size, h.entry, h.done,
    h.externals, fun i hi => ?_⟩
  · exact ⟨(h.methods id f hf).1, hknown (h.methods id f hf).2⟩
  · have he : e ∈ (sc.get 0).functions := he
    rw [hfunctions] at he
    exact ⟨(h.functions e he).1, hknown (h.functions e he).2⟩
  · show ∃ e ∈ (sc.get 0).functions, _
    rw [hfunctions]
    exact h.declared i hi

/-- A function does not stand in the global scope. -/
theorem At.scope_ne_zero (h : s.At G n) (hsc : s.scopes.Sound s.types) {shape : ChunkShape}
    (hshape : G.shape = some shape) : s.scope ≠ 0 := by
  intro hzero
  have hframe := h.frame
  rw [hshape] at hframe
  have hlocal := hframe.2.1
  rw [hzero, hsc.isGlobal_root] at hlocal
  cases hlocal

/-- The code under construction goes on after a declaration. -/
theorem At.declared (h : s.At G n) (hsc : s.scopes.Sound s.types) {sc : ScopeTree}
    (hgrown : s.scopes.Grown sc) : At G n { s with scopes := sc } := by
  refine ⟨?_, fun l hl => Nat.le_trans (h.loops l hl) (hgrown.words _), h.current, ?_, h.code⟩
  · show s.scope + 1 = sc.scopes.size
    rw [hgrown.size]
    exact h.scope
  · have hframe := h.frame
    cases hshape : G.shape with
    | none =>
      rw [hshape] at hframe
      refine ⟨hframe.1, ?_⟩
      show sc.isGlobal s.scope = true
      rw [hgrown.isGlobal]
      exact hframe.2
    | some shape =>
      have hne := h.scope_ne_zero hsc hshape
      have hscope := h.scope
      rw [hshape] at hframe
      refine ⟨hframe.1, ?_, ?_, hframe.2.2.2⟩
      · show sc.isGlobal s.scope = false
        rw [hgrown.isGlobal]
        exact hframe.2.1
      · show shape.globals = sc.wordLength 0
        rw [hframe.2.2.1, ScopeTree.wordLength, ScopeTree.wordLength,
          hgrown.get_eq (show 0 + 1 < s.scopes.scopes.size by omega)]

/-- A variable, whose value lies on the stack already. -/
theorem Ready.declare (h : s.Ready G n) (hb : ty.Bounded s.types.structures.size) (name : Token) :
    Moves .statement s (CompileM.declare name ty) fun _ s' =>
      s'.Ready G n ∧ s'.scopeWords = s.scopeWords + s.types.words ty ∧ s'.types = s.types ∧
        s.types.HasSize ty := by
  refine Moves.read (.wordsOf _ _) fun words hwords => ?_
  refine Moves.ask (a := s.scopes.declareVariable s.scope name.lexeme ty words) (fun _ => rfl) ?_
  cases hdeclare : s.scopes.declareVariable s.scope name.lexeme ty words with
  | error _ => exact (Fails.fail _ _).moves
  | ok result =>
    obtain ⟨v, sc⟩ := result
    obtain ⟨hsc, hgrown, hself, hfunctions⟩ :=
      h.sound.scopes.declareVariable h.at_.scope hb hwords hdeclare
    have hle : s.Le .statement { s with scopes := sc } :=
      ⟨.refl _, .refl _, hgrown, rfl, rfl, rfl, rfl, trivial, .of_eq rfl rfl⟩
    refine Moves.bind (Q := fun _ s' => s' = { s with scopes := sc }) ?_
      fun _ s' _ hs' => .pure ?_
    · exact .modify (fun r => ⟨r, rfl⟩) hle rfl
    · subst hs'
      refine ⟨⟨h.sound.rescope hsc hfunctions (hgrown.words 0),
        h.at_.declared h.sound.scopes hgrown⟩, ?_, rfl, TypeTable.hasSize_of_wordLength hwords⟩
      rw [TypeTable.words_of_wordLength hwords]
      exact hself

/-! ### Blocks -/

/-- The stage with other scopes, in the scope with a number. -/
def inScope (s : Stage) (sc : ScopeTree) (id : Nat) : Stage :=
  Stage.mapBuilder (fun b => { b with scope := id }) { s with scopes := sc }

/-- The stage in a new block. -/
def enterBlock (s : Stage) : Stage :=
  s.inScope (s.scopes.enter s.scope .block).2 s.scopes.scopes.size

theorem enterBlock_eq (s : Stage) (r : Reader) :
    CompileM.enterBlock (s.toCompiler.on r) = .ok ((), s.enterBlock.toCompiler.on r) := by
  refine congrArg (fun c => Except.ok ((), c)) ?_
  exact Compiler.mapBuilder_on { s.toCompiler with scopes := (s.scopes.enter s.scope .block).2 } _ r

theorem builder_inScope (s : Stage) (sc : ScopeTree) (id : Nat) :
    (s.inScope sc id).builder = { s.builder with scope := id } :=
  builder_mapBuilder _ { s with scopes := sc }

theorem scopes_inScope (s : Stage) (sc : ScopeTree) (id : Nat) : (s.inScope sc id).scopes = sc :=
  scopes_mapBuilder _ { s with scopes := sc }

theorem types_inScope (s : Stage) (sc : ScopeTree) (id : Nat) :
    (s.inScope sc id).types = s.types :=
  types_mapBuilder _ { s with scopes := sc }

theorem sameBelow_inScope (s : Stage) (sc : ScopeTree) (id : Nat) :
    s.toCompiler.SameBelow (s.inScope sc id).toCompiler := by
  have hscopes : s.toCompiler.SameBelow (Stage.toCompiler { s with scopes := sc }) := .of_eq rfl rfl
  exact hscopes.trans (sameBelow_mapBuilder (fun b => { b with scope := id }) { s with scopes := sc })

/-- The chunk under construction goes on in another scope of the same frame. -/
theorem Ready.inScope (h : s.Ready G n) {sc : ScopeTree} {id : Nat} (hsc : sc.Sound s.types)
    (hroot : sc.get 0 = s.scopes.get 0) (hid : id + 1 = sc.scopes.size)
    (hglobal : sc.isGlobal id = s.scopes.isGlobal s.scope)
    (hloops : ∀ l ∈ s.builder.loops, l.scopeWords ≤ sc.wordLength id) :
    (s.inScope sc id).Ready G n := by
  -- the global scope, and with it what functions may reach, stays the same
  have hwords : s.scopes.wordLength 0 = sc.wordLength 0 := congrArg Scope.wordLength hroot.symm
  have hbuilder := builder_inScope s sc id
  have hscopes := scopes_inScope s sc id
  have htypes := types_inScope s sc id
  have hnil := (sameBelow_inScope s sc id).nil_iff
  have hscope : (s.inScope sc id).scope = id := by
    rw [Compiler.scope, hbuilder]
  refine ⟨(h.sound.rescope hsc (congrArg Scope.functions hroot) (Nat.le_of_eq hwords)).mapBuilder _,
    ?_, ?_, ?_, ?_, ?_⟩
  · rw [hscope, hscopes]
    exact hid
  · rw [hbuilder, Compiler.scopeWords, hscope, hscopes]
    exact hloops
  · rw [hbuilder]
    exact h.at_.current
  · have hframe := h.at_.frame
    cases hshape : G.shape with
    | none =>
      rw [hshape] at hframe
      rw [InFrame, hnil, hscopes, hscope, hglobal]
      exact hframe
    | some shape =>
      rw [hshape] at hframe
      rw [InFrame, ne_eq, hnil, hscopes, hscope, hglobal, ← hwords, htypes, hbuilder]
      exact hframe
  · rw [hbuilder]
    exact h.at_.code

theorem Ready.enterBlock (h : s.Ready G n) : s.enterBlock.Ready G n := by
  have hscope := h.at_.scope
  have hlt : s.scope < s.scopes.scopes.size := by omega
  refine h.inScope (h.sound.scopes.enterBlock hscope)
    (s.scopes.get_enter _ _ h.sound.scopes.nonempty) (ScopeTree.size_enter _ _ _).symm
    (ScopeTree.isGlobal_enter_block hlt) ?_
  rw [ScopeTree.wordLength, ScopeTree.get_enter_block]
  exact h.at_.loops

theorem scopeWords_enterBlock (s : Stage) : s.enterBlock.scopeWords = s.scopeWords := by
  rw [Compiler.scopeWords, Compiler.scope, enterBlock, builder_inScope, scopes_inScope]
  show ScopeTree.wordLength _ s.scopes.scopes.size = _
  rw [ScopeTree.wordLength, ScopeTree.get_enter_block]
  rfl

/-- What the statements of a block have done to the scopes. -/
theorem Le.grown_block (hle : s.enterBlock.Le .statement s') :
    (s.scopes.enter s.scope .block).2.Grown s'.scopes := by
  have hscopes := hle.scopes
  rwa [enterBlock, scopes_inScope] at hscopes

theorem Le.scope_block (hle : s.enterBlock.Le .statement s') : s'.scope = s.scopes.scopes.size := by
  rw [Compiler.scope, hle.scope, enterBlock, builder_inScope]

/-- A block is left: the scopes are what they were before it, and its words are dropped. -/
theorem exitBlock_eq (hle : s.enterBlock.Le .statement s') (r : Reader) :
    CompileM.exitBlock (s'.toCompiler.on r) =
      CompileM.emitPop (s'.scopeWords - s.scopeWords) (s'.toCompiler.on r).current
        ((s'.inScope s.scopes s.scope).toCompiler.on r) := by
  have hparent : ((s'.scopes.get s'.scope).parent).getD ScopeTree.globalScope = s.scope := by
    rw [hle.scope_block, (hle.grown_block.kind _).2, ScopeTree.get_enter_block]
    rfl
  have hwords : s'.scopes.exit.1 = s'.scopeWords - s.scopeWords := by
    rw [ScopeTree.exit_block_of_grown hle.grown_block, Compiler.scopeWords, hle.scope_block]
    rfl
  have hscopes : s'.scopes.exit.2 = s.scopes := ScopeTree.exit_of_grown hle.grown_block
  show CompileM.emitPop s'.scopes.exit.1 _
    (Compiler.mapBuilder (fun b => { b with scope := _ })
      (Compiler.on { s'.toCompiler with scopes := s'.scopes.exit.2 } r)) = _
  rw [hwords, hscopes, Compiler.mapBuilder_on]
  show CompileM.emitPop _ _ (Compiler.on (Compiler.mapBuilder (fun b =>
    { b with scope := ((s'.scopes.get s'.scope).parent).getD ScopeTree.globalScope }) _) r) = _
  rw [hparent]
  rfl

/-- The stage after a block, before its words are dropped. -/
theorem Le.inScope (hle : s.enterBlock.Le .statement s') :
    s.Le .statement (s'.inScope s.scopes s.scope) := by
  have hbuilder := builder_inScope s' s.scopes s.scope
  have hblock : s.enterBlock.builder = { s.builder with scope := s.scopes.scopes.size } :=
    builder_inScope s _ _
  have hchunk := hle.chunk
  have hreturns := hle.returns
  have hloops := hle.loops
  rw [hblock] at hchunk hreturns hloops
  refine ⟨hle.linkage, ?_, ?_, ?_, ?_, ?_, ?_, trivial, ?_⟩
  · rw [types_inScope, ← types_inScope s (s.scopes.enter s.scope .block).2 s.scopes.scopes.size]
    exact hle.types
  · rw [scopes_inScope]
    exact .refl _
  · rw [hbuilder]
    exact hchunk
  · rw [hbuilder]
    rfl
  · rw [hbuilder]
    exact hreturns
  · rw [hbuilder]
    exact hloops
  · exact ((sameBelow_inScope s _ _).trans hle.below).trans (sameBelow_inScope s' _ _)

/-- After a block, the loops around it are as they were. -/
theorem Ready.leaveBlock (h : s.Ready G n) (hle : s.enterBlock.Le .statement s') {m : Nat}
    (h' : s'.Ready G m) : (s'.inScope s.scopes s.scope).Ready G m := by
  have hscope := h.at_.scope
  have htypes : s.types.Le s'.types := by
    have := hle.types
    rwa [Stage.enterBlock, types_inScope] at this
  refine h'.inScope (h.sound.scopes.keep htypes.keeps) ?_ hscope ?_ ?_
  · rw [hle.grown_block.get_eq (by rw [ScopeTree.size_enter]; omega),
      s.scopes.get_enter _ _ (by omega)]
  · rw [hle.scope_block, hle.grown_block.isGlobal, ScopeTree.isGlobal_enter_block (by omega)]
  · intro l hl
    have hlabels := hle.inScope.loops
    rw [builder_inScope] at hlabels
    have hmem : l.label ∈ s'.builder.loops.map LoopContext.label := List.mem_map_of_mem hl
    rw [show s'.builder.loops.map LoopContext.label = _ from hlabels] at hmem
    obtain ⟨l', hl', heq⟩ := List.mem_map.mp hmem
    rw [← show l'.scopeWords = l.scopeWords from congrArg Prod.snd heq]
    exact h.at_.loops l' hl'

/-- A block is left with its variables on the stack. -/
theorem Ready.exitBlock (h : s.Ready G n) (hle : s.enterBlock.Le .statement s')
    (h' : s'.Ready G s'.scopeWords) {r : Reader} {c : Compiler}
    (hexit : CompileM.exitBlock (s'.toCompiler.on r) = .ok ((), c)) :
    ∃ (s₂ : Stage) (r₂ : Reader), c = s₂.toCompiler.on r₂ ∧ s.Le .statement s₂ ∧
      s₂.scopes = s.scopes ∧ s₂.Ready G s.scopeWords := by
  have hwords : s.scopeWords ≤ s'.scopeWords := by
    rw [← scopeWords_enterBlock]
    exact hle.scopeWords_le
  have hpop := (h.leaveBlock hle h').emitPop (e := .value) (Nat.sub_le _ s.scopeWords)
    (s'.toCompiler.on r).current
  rw [exitBlock_eq hle] at hexit
  obtain ⟨s₂, r₂, hc, hle₂, hs₂⟩ := hpop r () c hexit
  rw [Nat.sub_sub_self hwords] at hs₂
  refine ⟨s₂, r₂, hc, hle.inScope.trans hle₂.statement, ?_, hs₂⟩
  rw [hle₂.scopes_eq, scopes_inScope]

theorem Rests.statements (hg : g.Disciplined) (depth : Nat) : ∀ (budget : Nat) {s : Stage},
    s.Rests G →
      Moves .statement s (Block.statements g depth budget) fun _ s' => s'.Rests G := by
  intro budget
  induction budget with
  | zero => exact fun _ => Fails.failFuel.moves
  | succ budget ih =>
    intro s h
    refine Moves.read (.of_ask _) fun level _ => Moves.read (.of_ask _) fun done _ => ?_
    split
    · exact .pure h
    · split
      · exact Fails.moves (.bind fun _ => .fail _ _)
      · refine Moves.read .cursor fun at_ _ => Moves.read (.moveTo _) fun _ _ => ?_
        exact Moves.bind (hg.statement depth h) fun _ s₁ _ hs₁ => ih hs₁

theorem Rests.tail (hg : g.Disciplined) (h : s.Rests G) (depth : Nat) :
    Moves .statement s (Block.tail g depth) fun _ s' => s'.Rests G := by
  refine Moves.read (.matchKind _) fun more _ => ?_
  split
  · refine Moves.read (.requireLine _) fun _ _ => Moves.read .budget fun budget _ => ?_
    exact h.statements hg _ budget
  · exact hg.statement depth h

theorem Rests.enterBlock (h : s.Rests G) : s.enterBlock.Rests G := by
  refine ⟨?_, fun hnil => h.calm ((sameBelow_inScope s _ _).nil_iff.mp hnil)⟩
  rw [scopeWords_enterBlock]
  exact h.ready.enterBlock

/-- A body leaves the scopes and the stack as they were. -/
theorem Rests.body (hg : g.Disciplined) (h : s.Rests G) (depth : Nat) :
    Moves .statement s (Block.body g depth) fun _ s' =>
      s'.Rests G ∧ s'.scopeWords = s.scopeWords := by
  intro r a c hbody
  obtain ⟨_, c₁, henter, hbody⟩ := CompileM.bind_eq_ok hbody
  rw [enterBlock_eq] at henter
  cases henter
  obtain ⟨_, c₂, htail, hexit⟩ := CompileM.bind_eq_ok hbody
  obtain ⟨s₁, r₁, rfl, hle₁, hs₁⟩ := h.enterBlock.tail hg depth r () c₂ htail
  obtain ⟨s₂, r₂, hc, hle₂, hscopes, hs₂⟩ := h.ready.exitBlock hle₁ hs₁.ready hexit
  have hwords : s₂.scopeWords = s.scopeWords := by
    rw [Compiler.scopeWords, Compiler.scope, hle₂.scope, hscopes]
    rfl
  exact ⟨s₂, r₂, hc, hle₂, h.le hle₂ rfl hwords hs₂, hwords⟩

/-! ### Declarations and conditionals -/

theorem Rests.variable_ (hg : g.Disciplined) (h : s.Rests G) :
    Moves .statement s (Statement.variable_ g) fun _ s' => s'.Rests G := by
  refine Moves.read .advance fun _ _ => Moves.read (.identifier _) fun name _ =>
    Moves.read (.consume _ _) fun _ _ => Moves.read .current fun value _ => ?_
  refine Moves.value (hg.expression .or h.ready (Nat.le_refl _)) fun ty s₁ hle₁ hs₁ => ?_
  refine Moves.guard (.failMismatch _ _ _) fun _ => ?_
  refine Moves.bind (hs₁.ready.declare hs₁.fits name) fun _ s₂ hle₂ ⟨hs₂, hwords, _⟩ => ?_
  refine .of_reads .endStatement fun _ _ => h.le (hle₁.statement.trans hle₂) rfl ?_ hs₂
  rw [hwords, hle₁.scopeWords_eq]
  rfl

/-- A condition leaves its word on the stack. -/
theorem Rests.condition (hg : g.Disciplined) (h : s.Rests G) :
    Moves .value s (Statement.condition g) fun _ s' => s'.Ready G (s.scopeWords + 1) := by
  refine Moves.read .current fun token _ => ?_
  refine Moves.bind (hg.expression .or h.ready (Nat.le_refl _)) fun ty s₁ _ hs₁ => ?_
  refine .of_reads (.expectType _ _ _) fun _ hty => ?_
  subst hty
  exact hs₁.ready

/-- The jump over what depends on a condition. -/
theorem Rests.skip (hle : s.Le .value s') (h : s.Rests G) (h' : s'.Ready G (s.scopeWords + 1)) :
    Moves .control s' (CompileM.emitJump .jumpIfFalse) fun k s₂ =>
      s₂.Rests (G.await (k, s.scopeWords)) ∧ s₂.scopeWords = s.scopeWords := by
  have hpops : (Instruction.ofSigned .jumpIfFalse 0).pops .jumpIfFalse ≤ s.scopeWords + 1 :=
    Nat.le_add_left 1 _
  refine (h'.emitJump rfl hpops (fun _ => rfl)).mono fun k s₂ hle₂ hs₂ => ?_
  have hle := hle.control.trans hle₂
  exact ⟨h.le hle rfl hle.same_scopeWords hs₂, hle.same_scopeWords⟩

theorem Rests.conditional (hg : g.Disciplined) (h : s.Rests G) (depth : Nat) :
    Moves .statement s (Statement.conditional g depth) fun _ s' => s'.Rests G := by
  refine Moves.read .advance fun token _ => ?_
  refine Moves.value (h.condition hg) fun _ s₁ hle₁ hs₁ => Moves.read (.consume _ _) fun _ _ => ?_
  refine Moves.part (Rests.skip hle₁ h hs₁) fun skip s₂ hle₂ ⟨hs₂, hwords₂⟩ => ?_
  refine Moves.bind (hs₂.body hg depth) fun _ s₃ hle₃ ⟨hs₃, hwords₃⟩ => ?_
  have hle := (hle₁.control.trans hle₂).statement.trans hle₃
  have hready := hs₃.ready
  rw [hwords₃, hwords₂] at hready
  refine Moves.read (.elseFollows _) fun follows _ => ?_
  split
  -- the jump behind the first body waits until the second one is done
  · refine Moves.part (hready.emitJump (m := s.scopeWords) rfl (Nat.zero_le _)
      (fun hop => nomatch hop)) fun exit s₄ hle₄ hs₄ => ?_
    refine Moves.part (hs₄.swap.patchJump token) fun _ s₅ hle₅ hs₅ => ?_
    have hwords₅ : s₅.scopeWords = s.scopeWords := by
      rw [(hle₄.trans hle₅).same_scopeWords, hwords₃, hwords₂]
    have hle := hle.trans (hle₄.trans hle₅).statement
    have hs₅ : s₅.Rests (G.await (exit, s.scopeWords)) := h.le hle rfl hwords₅ hs₅
    refine Moves.bind (hs₅.body hg depth) fun _ s₆ hle₆ ⟨hs₆, hwords₆⟩ => ?_
    have hready := hs₆.ready
    rw [hwords₆, hwords₅] at hready
    refine Moves.statement ((hready.patchJump token).mono fun _ s₇ hle₇ hs₇ => ?_)
    refine h.le (hle.trans (hle₆.trans hle₇.statement)) rfl ?_ hs₇
    rw [hle₇.same_scopeWords, hwords₆, hwords₅]
  · refine Moves.statement ((hready.patchJump token).mono fun _ s₄ hle₄ hs₄ => ?_)
    refine h.le (hle.trans hle₄.statement) rfl ?_ hs₄
    rw [hle₄.same_scopeWords, hwords₃, hwords₂]

/-! ### Loops -/

/-- The stage in a loop that begins at `start`. -/
def openLoop (s : Stage) (start : Nat) : Stage :=
  s.mapBuilder fun b => { b with loops := { start, scopeWords := s.scopeWords } :: b.loops }

theorem openLoop_eq (s : Stage) (start : Nat) (r : Reader) :
    Statement.openLoop start (s.toCompiler.on r) = .ok ((), (s.openLoop start).toCompiler.on r) :=
  congrArg (fun c => Except.ok ((), c)) (s.toCompiler.mapBuilder_on _ r)

theorem builder_openLoop (s : Stage) (start : Nat) : (s.openLoop start).builder =
    { s.builder with loops := { start, scopeWords := s.scopeWords } :: s.builder.loops } :=
  builder_mapBuilder _ s

theorem scopeWords_openLoop (s : Stage) (start : Nat) :
    (s.openLoop start).scopeWords = s.scopeWords := by
  rw [Compiler.scopeWords, Compiler.scope, builder_openLoop, openLoop, scopes_mapBuilder]
  rfl

theorem Rests.openLoop (h : s.Rests G) {start : Nat} (hlabel : (start, s.scopeWords) ∈ G.labels) :
    (s.openLoop start).Rests G := by
  refine ⟨?_, fun hnil => h.calm ((sameBelow_mapBuilder _ s).nil_iff.mp hnil)⟩
  rw [scopeWords_openLoop]
  refine ⟨h.ready.sound.mapBuilder _, h.ready.at_.mapBuilder rfl rfl rfl ?_ ?_⟩
  · intro l hl
    cases hl with
    | head => exact Nat.le_refl _
    | tail _ hl => exact h.ready.at_.loops l hl
  · refine h.ready.at_.code.congr (fun _ => Iff.rfl) fun l hl => ?_
    obtain hl | hl := List.mem_append.mp hl
    · exact List.mem_append_left _ hl
    · cases hl with
      | head => exact List.mem_append_left _ hlabel
      | tail _ hl => exact List.mem_append_right _ hl

/-- An outlook in which jumps wait for one place. -/
def awaitAll (G : Outlook) (n : Nat) (jumps : List Nat) : Outlook :=
  { G with jumps := jumps.map (fun k => (k, n)) ++ G.jumps }

theorem Ready.patchJumps (token : Token) : ∀ (jumps : List Nat) {s : Stage},
    s.Ready (awaitAll G n jumps) n →
      Moves .control s (jumps.forM fun k => CompileM.patchJump k token) fun _ s' => s'.Ready G n := by
  intro jumps
  induction jumps with
  | nil => exact fun h => .pure h
  | cons k jumps ih =>
    intro s h
    have h : s.Ready ((awaitAll G n jumps).await (k, n)) n := h
    exact Moves.bind (h.patchJump token) fun _ s₁ _ hs₁ => ih hs₁

/-- The stage after a loop, whose jumps still wait. -/
theorem Le.leaveLoop {start : Nat} (hle : (s.openLoop start).Le .statement s')
    {rest : List LoopContext}
    (hrest : rest.map LoopContext.label = s.builder.loops.map LoopContext.label) :
    s.Le .statement (s'.mapBuilder fun b => { b with loops := rest }) := by
  have hbuilder := builder_mapBuilder (fun b => { b with loops := rest }) s'
  have hchunk := hle.chunk
  have hscope := hle.scope
  have hreturns := hle.returns
  rw [builder_openLoop] at hchunk hscope hreturns
  have hbelow : s.toCompiler.SameBelow s'.toCompiler := (sameBelow_mapBuilder _ s).trans hle.below
  refine ⟨hle.linkage, ?_, ?_, ?_, ?_, ?_, ?_, trivial, hbelow.trans (sameBelow_mapBuilder _ s')⟩
  · rw [types_mapBuilder, ← types_mapBuilder _ s]
    exact hle.types
  · rw [scopes_mapBuilder, ← scopes_mapBuilder _ s]
    exact hle.scopes
  · rw [hbuilder]
    exact hchunk
  · rw [hbuilder]
    exact hscope
  · rw [hbuilder]
    exact hreturns
  · rw [hbuilder]
    exact hrest

theorem closeLoop_eq {l : LoopContext} {rest : List LoopContext} (h : s.builder.loops = l :: rest)
    (token : Token) (r : Reader) :
    Statement.closeLoop token (s.toCompiler.on r) =
      (l.breaks.reverse.forM fun k => CompileM.patchJump k token)
        ((s.mapBuilder fun b => { b with loops := rest }).toCompiler.on r) := by
  have hloops : (s.toCompiler.on r).builder.loops = l :: rest := h
  rw [Statement.closeLoop, CompileM.ask_bind, hloops]
  exact congrArg (l.breaks.reverse.forM fun k => CompileM.patchJump k token)
    (s.toCompiler.mapBuilder_on _ r)

/-- The jumps out of a loop land where the code goes on after it. -/
theorem Rests.closeLoop {G₀ : Outlook} (h : s.Rests G₀) (hmaking : G.making = G₀.making)
    {start : Nat} (hle : (s.openLoop start).Le .statement s')
    (h' : s'.Ready G s.scopeWords) (hwords : s'.scopeWords = s.scopeWords) {token : Token}
    {r : Reader} {c : Compiler}
    (hclose : Statement.closeLoop token (s'.toCompiler.on r) = .ok ((), c)) :
    ∃ (s₂ : Stage) (r₂ : Reader), c = s₂.toCompiler.on r₂ ∧ s.Le .statement s₂ ∧ s₂.Rests G ∧
      s₂.scopeWords = s.scopeWords := by
  have hlabels := hle.loops
  rw [builder_openLoop] at hlabels
  cases hloops : s'.builder.loops with
  | nil =>
    rw [hloops] at hlabels
    cases hlabels
  | cons l rest =>
    rw [hloops] at hlabels
    obtain ⟨hlabel, hrest⟩ := List.cons.inj hlabels
    have hl : l.scopeWords = s.scopeWords := congrArg Prod.snd hlabel
    -- the jumps that waited for the end of this loop are the ones to be patched now
    have hs₁ : (s'.mapBuilder fun b => { b with loops := rest }).Ready
        (awaitAll G s.scopeWords l.breaks.reverse) s.scopeWords := by
      refine ⟨h'.sound.mapBuilder _, h'.at_.mapBuilder rfl rfl rfl (fun k hk => ?_) ?_⟩
      · refine h'.at_.loops k ?_
        rw [hloops]
        exact List.mem_cons_of_mem _ hk
      · refine h'.at_.code.congr (fun j => ?_) fun j hj => ?_
        · simp only [Builder.waiting, hloops, hl, List.flatMap_cons, List.mem_append, List.mem_map,
            List.mem_reverse]
          exact or_left_comm.trans or_assoc.symm
        · simp only [Builder.loopLabels, hloops, List.map_cons, List.mem_append, List.mem_cons]
          exact (List.mem_append.mp hj).imp_right .inr
    rw [closeLoop_eq hloops] at hclose
    obtain ⟨s₂, r₂, hc, hle₂, hs₂⟩ := hs₁.patchJumps token _ r () c hclose
    have hle := (hle.leaveLoop hrest).trans hle₂.statement
    have hwords₂ : s₂.scopeWords = s.scopeWords := by
      rw [hle₂.same_scopeWords, Compiler.scopeWords, Compiler.scope, builder_mapBuilder,
        scopes_mapBuilder]
      exact hwords
    exact ⟨s₂, r₂, hc, hle, h.le hle hmaking hwords₂ hs₂, hwords₂⟩

/-- What is read between the beginning and the end of a loop. -/
theorem Rests.inLoop {G₀ : Outlook} (h : s.Rests G₀) (hmaking : G.making = G₀.making)
    {start : Nat} {x : CompileM Unit} (hx : Moves .statement (s.openLoop start) x fun _ s' =>
      s'.Ready G s.scopeWords ∧ s'.scopeWords = s.scopeWords) (token : Token) :
    Moves .statement s (Statement.openLoop start >>= fun _ => x >>= fun _ =>
      Statement.closeLoop token) fun _ s' => s'.Rests G ∧ s'.scopeWords = s.scopeWords := by
  intro r a c hall
  obtain ⟨_, c₁, hopen, hall⟩ := CompileM.bind_eq_ok hall
  rw [openLoop_eq] at hopen
  cases hopen
  obtain ⟨_, c₂, hinner, hclose⟩ := CompileM.bind_eq_ok hall
  obtain ⟨s₁, r₁, rfl, hle₁, hs₁, hwords₁⟩ := hx r () c₂ hinner
  exact h.closeLoop hmaking hle₁ hs₁ hwords₁ hclose

/-- The body of a loop and the jump back. -/
theorem Rests.loopBody (hg : g.Disciplined) (h : s.Rests G) {start : Nat}
    (hlabel : (start, s.scopeWords) ∈ G.labels) (depth : Nat) (token : Token) :
    Moves .statement s (Block.body g depth >>= fun _ => CompileM.emitLoop start token)
      fun _ s' => s'.Ready G s.scopeWords ∧ s'.scopeWords = s.scopeWords := by
  refine Moves.bind (h.body hg depth) fun _ s₁ hle₁ ⟨hs₁, hwords₁⟩ => ?_
  have hready := hs₁.ready
  rw [hwords₁] at hready
  have hback := hready.emitLoop (List.mem_append_left _ hlabel) token s.scopeWords
  refine Moves.statement (hback.mono fun _ s₂ hle₂ hs₂ => ⟨hs₂, ?_⟩)
  rw [hle₂.same_scopeWords, hwords₁]

theorem Rests.whileLoop (hg : g.Disciplined) (h : s.Rests G) (depth : Nat) :
    Moves .statement s (Statement.whileLoop g depth) fun _ s' => s'.Rests G := by
  refine Moves.read .advance fun token _ => Moves.read reads_here fun start hstart => ?_
  subst hstart
  -- the loop begins where the condition does, with nothing above the variables
  have hmarked : s.Rests (G.mark (s.builder.code.code.size, s.scopeWords)) :=
    ⟨h.ready.label, h.calm⟩
  refine Moves.value (hmarked.condition hg) fun _ s₁ hle₁ hs₁ => ?_
  refine Moves.part (Rests.skip hle₁ hmarked hs₁) fun exit s₂ hle₂ ⟨hs₂, hwords₂⟩ => ?_
  generalize s.builder.code.code.size = start at hmarked hs₁ hs₂ ⊢
  have hlabel : (start, s₂.scopeWords) ∈
      ((G.mark (start, s.scopeWords)).await (exit, s.scopeWords)).labels := by
    rw [hwords₂]
    exact List.mem_cons_self
  rw [Statement.loopBody]
  simp only [bind_assoc]
  -- the jump back finds the label, and the jump over the body is patched behind it
  have hinner : Moves .statement (s₂.openLoop start)
      ((Block.body g depth >>= fun _ => CompileM.emitLoop start token) >>= fun _ =>
        CompileM.patchJump exit token) fun _ s' =>
      s'.Ready (G.mark (start, s.scopeWords)) s₂.scopeWords ∧ s'.scopeWords = s₂.scopeWords := by
    have hbody := (hs₂.openLoop hlabel).loopBody hg (by rwa [scopeWords_openLoop]) depth token
    refine Moves.bind hbody fun _ s₃ _ ⟨hs₃, hwords₃⟩ => ?_
    rw [scopeWords_openLoop, hwords₂] at hs₃ hwords₃
    rw [hwords₂]
    refine Moves.statement ((hs₃.patchJump token).mono fun _ s₄ hle₄ hs₄ => ⟨hs₄, ?_⟩)
    rw [hle₄.same_scopeWords, hwords₃]
  have hall := hs₂.inLoop (G := G.mark (start, s.scopeWords)) rfl hinner token
  simp only [bind_assoc] at hall
  exact hall.mono fun _ s₃ _ ⟨hs₃, _⟩ => ⟨hs₃.ready.forget, hs₃.calm⟩

theorem Rests.loop (hg : g.Disciplined) (h : s.Rests G) (depth : Nat) :
    Moves .statement s (Statement.loop g depth) fun _ s' => s'.Rests G := by
  refine Moves.read .advance fun token _ => Moves.read reads_here fun start hstart => ?_
  subst hstart
  have hmarked : s.Rests (G.mark (s.builder.code.code.size, s.scopeWords)) :=
    ⟨h.ready.label, h.calm⟩
  generalize s.builder.code.code.size = start at hmarked ⊢
  rw [Statement.loopBody]
  simp only [bind_assoc]
  have hbody := (hmarked.openLoop List.mem_cons_self).loopBody hg
    (by rw [scopeWords_openLoop]; exact List.mem_cons_self) depth token
  rw [scopeWords_openLoop] at hbody
  have hall := hmarked.inLoop rfl hbody token
  simp only [bind_assoc] at hall
  exact hall.mono fun _ s₁ _ ⟨hs₁, _⟩ => ⟨hs₁.ready.forget, hs₁.calm⟩

/-- The words declared since the innermost loop was entered are dropped. -/
theorem Rests.unwindToLoop (h : s.Rests G) (token : Token) :
    Moves .value s (Statement.unwindToLoop token) fun start s' =>
      ∃ l ∈ s'.builder.loops.head?, start = l.start ∧ s'.Ready G l.scopeWords := by
  refine Moves.ask (a := s.builder.loops.head?) (fun _ => rfl) ?_
  cases hhead : s.builder.loops.head? with
  | none => exact (Fails.fail _ _).moves
  | some l =>
    have hle := h.ready.at_.loops l (List.mem_of_head? hhead)
    refine Moves.ask (a := s.scopeWords) (fun _ => rfl) ?_
    refine Moves.bind (h.ready.emitPop (Nat.sub_le _ l.scopeWords) token) fun _ s₁ hle₁ hs₁ => ?_
    rw [Nat.sub_sub_self hle] at hs₁
    refine .pure ⟨l, ?_, rfl, hs₁⟩
    rw [show s₁.builder.loops = s.builder.loops from hle₁.loops]
    exact hhead

/-- A jump out of the innermost loop waits for the end of the loop. -/
theorem Ready.addBreak {l : LoopContext} (hl : l ∈ s.builder.loops.head?) {k : Nat}
    (h : s.Ready (G.await (k, l.scopeWords)) n) {f : Builder → Builder}
    (hf : f = fun b =>
      match b.loops with
      | [] => b
      | l :: rest => { b with loops := { l with breaks := k :: l.breaks } :: rest }) :
    Moves .statement s (modify (Compiler.mapBuilder f)) fun _ s' =>
      s'.Ready G n ∧ s'.scopeWords = s.scopeWords := by
  cases hloops : s.builder.loops with
  | nil =>
    rw [hloops] at hl
    cases hl
  | cons l' rest =>
    rw [hloops] at hl
    obtain rfl : l' = l := Option.some_inj.mp hl
    -- the loop is the first one that is open
    have hbuilder : f s.builder =
        { s.builder with loops := { l' with breaks := k :: l'.breaks } :: rest } := by
      rw [hf]
      dsimp only
      rw [hloops]
    have hwords : (s.mapBuilder f).scopeWords = s.scopeWords := by
      rw [Compiler.scopeWords, Compiler.scope, builder_mapBuilder, scopes_mapBuilder, hbuilder]
      rfl
    refine moves_mapBuilder (.mapBuilder ?_ ?_ ?_ ?_ trivial)
      ⟨⟨h.sound.mapBuilder f, h.at_.mapBuilder ?_ ?_ ?_ ?_ ?_⟩, hwords⟩
    any_goals rw [hbuilder]
    · show List.map _ _ = List.map _ _
      rw [hloops]
      rfl
    · intro k hk
      have hloops' := h.at_.loops
      rw [hloops] at hloops'
      cases hk with
      | head => exact hloops' l' List.mem_cons_self
      | tail _ hk => exact hloops' k (List.mem_cons_of_mem _ hk)
    -- the jump that the outlook awaits is now one that the builder has waiting
    · refine h.at_.code.congr (fun j => ?_) fun j hj => ?_
      · simp only [Builder.waiting, Outlook.await, hloops, List.flatMap_cons, List.map_cons,
          List.mem_append, List.mem_cons]
        exact or_assoc.trans (or_left_comm.trans (or_congr_right or_assoc.symm))
      · simp only [Builder.loopLabels, hloops, List.map_cons] at hj ⊢
        exact hj

theorem Rests.break_ (h : s.Rests G) :
    Moves .statement s Statement.break_ fun _ s' => s'.Rests G := by
  refine Moves.read .advance fun token _ => ?_
  refine Moves.value (h.unwindToLoop token) fun start s₁ hle₁ ⟨l, hl, _, hs₁⟩ => ?_
  refine Moves.part (hs₁.emitJump (m := s.scopeWords) rfl (Nat.zero_le _) (fun hop => nomatch hop))
    fun k s₂ hle₂ hs₂ => ?_
  have hle := hle₁.control.trans hle₂
  have hl₂ : l ∈ s₂.builder.loops.head? := by
    rw [show s₂.builder.loops = s₁.builder.loops from hle₂.loops]
    exact hl
  refine Moves.bind (Ready.addBreak hl₂ hs₂ rfl) fun _ s₃ hle₃ ⟨hs₃, hwords₃⟩ => ?_
  refine .of_reads .endStatement fun _ _ => ?_
  refine h.le (hle.statement.trans hle₃) rfl ?_ hs₃
  rw [hwords₃, hle.same_scopeWords]

theorem Rests.continue_ (h : s.Rests G) :
    Moves .statement s Statement.continue_ fun _ s' => s'.Rests G := by
  refine Moves.read .advance fun token _ => ?_
  refine Moves.value (h.unwindToLoop token) fun start s₁ hle₁ ⟨l, hl, hstart, hs₁⟩ => ?_
  have hlabel : (start, l.scopeWords) ∈ G.labels ++ s₁.builder.loopLabels := by
    rw [hstart]
    exact List.mem_append_right _ (List.mem_map_of_mem (List.mem_of_head? hl))
  refine Moves.part (hs₁.emitLoop hlabel token s.scopeWords) fun _ s₂ hle₂ hs₂ => ?_
  have hle := hle₁.control.trans hle₂
  exact .of_reads .endStatement fun _ _ => h.le hle rfl hle.same_scopeWords hs₂

/-! ### Returning, waiting, freeing -/

/-- A return from a function takes the words of its result. -/
theorem Ready.emitReturn (h : s.Ready G n) {words : UInt8} (hnested : s.nested ≠ [])
    (hwords : words.toNat = s.types.words s.builder.returns) (hn : words.toNat ≤ n) (m : Nat) :
    Moves .control s (CompileM.emit (.ofBytes .return_ words 0 0)) fun _ s' => s'.Ready G m := by
  refine h.emit_stop .return_ (by simp) ?_ ?_ rfl rfl m
  · exact hn
  have hframe := h.at_.frame
  cases hshape : G.shape with
  | none =>
    rw [hshape] at hframe
    exact absurd hframe.1 hnested
  | some shape =>
    rw [hshape] at hframe
    exact ⟨shape, rfl, hwords.trans hframe.2.2.2.2.symm⟩

theorem Rests.return_ (hg : g.Disciplined) (h : s.Rests G) :
    Moves .statement s (Statement.return_ g) fun _ s' => s'.Rests G := by
  refine Moves.read .advance fun token _ => ?_
  refine Moves.ask (a := s.builder.returns) (fun _ => rfl) ?_
  refine Moves.ask (a := s.nested.isEmpty) (fun _ => rfl) ?_
  refine Moves.read .atStatementEnd fun ends _ => ?_
  -- what comes behind a return is not reached, so any height will do
  have hdone : ∀ s₁ : Stage, s.Le .control s₁ → s₁.Ready G s.scopeWords →
      Moves .statement s₁ CompileM.endStatement fun _ s' => s'.Rests G :=
    fun s₁ hle₁ hs₁ => .of_reads .endStatement fun _ _ => h.le hle₁ rfl hle₁.same_scopeWords hs₁
  split
  · split
    · refine Moves.part (h.ready.emit_stop .halt (by simp) (Nat.zero_le _) trivial rfl rfl _)
        fun _ s₁ hle₁ hs₁ => hdone s₁ hle₁ hs₁
    · rename_i hentry
      split
      · exact Fails.moves (.bind fun _ => .bind_left (.failMismatch _ _ _) _)
      · rename_i hvoid
        have hreturns : s.builder.returns = .void := Decidable.of_not_not hvoid
        refine Moves.part (h.ready.emitReturn ?_ ?_ (Nat.zero_le _) _)
          fun _ s₁ hle₁ hs₁ => hdone s₁ hle₁ hs₁
        · exact fun hnil => hentry (by rw [hnil]; rfl)
        · rw [hreturns]
          rfl
  · refine Moves.else_ (.fail _ _) fun hentry => ?_
    refine Moves.read .current fun value _ => ?_
    refine Moves.value (hg.expression .or h.ready (Nat.le_refl _)) fun ty s₁ hle₁ hs₁ => ?_
    refine Moves.read (.expectType _ _ _) fun _ hty => ?_
    refine Moves.read (.wordsOf _ _) fun words hwords => Moves.read (.byte _ _ _) fun a ha => ?_
    have hwords := TypeTable.words_of_wordLength hwords
    have hready : s₁.Ready G (s.scopeWords + s₁.types.words ty) := hs₁.ready
    refine Moves.part (hready.emitReturn ?_ ?_ ?_ _)
      fun _ s₂ hle₂ hs₂ => hdone s₂ (hle₁.control.trans hle₂) hs₂
    · exact fun hnil => hentry (by rw [hle₁.below.nil_iff.mp hnil]; rfl)
    · rw [ha, ← hwords, hle₁.returns, hty]
    · omega

theorem Rests.yield (hg : g.Disciplined) (h : s.Rests G) :
    Moves .statement s (Statement.yield g) fun _ s' => s'.Rests G := by
  refine Moves.read .advance fun _ _ => Moves.read .atStatementEnd fun ends _ => ?_
  extract_lets finish
  have hdone : ∀ (u : Unit) (s₁ : Stage), s.Le .value s₁ → s₁.Ready G (s.scopeWords + 1) →
      Moves .statement s₁ (finish u) fun _ s' => s'.Rests G := by
    intro _ s₁ hle₁ hs₁
    refine Moves.value (hs₁.emit .yield (by simp) (Nat.le_add_left 1 _) trivial rfl rfl)
      fun _ s₂ hle₂ hs₂ => ?_
    refine .of_reads .endStatement fun _ _ => ?_
    exact h.le (hle₁.trans hle₂) rfl (hle₁.trans hle₂).scopeWords_eq hs₂
  split
  · exact Moves.value (h.ready.emit .pushImmediate (by simp) (Nat.zero_le _) trivial rfl rfl)
      fun _ s₁ hle₁ hs₁ => hdone () s₁ hle₁ hs₁
  · refine Moves.read .current fun token _ => ?_
    refine Moves.value (hg.expression .or h.ready (Nat.le_refl _)) fun ty s₁ hle₁ hs₁ => ?_
    refine Moves.read (.expectType _ _ _) fun _ hty => ?_
    subst hty
    exact hdone () s₁ hle₁ hs₁.ready

theorem Rests.free (hg : g.Disciplined) (h : s.Rests G) :
    Moves .statement s (Statement.free g) fun _ s' => s'.Rests G := by
  refine Moves.read .advance fun token _ => ?_
  refine Moves.value (hg.operand h.ready (Nat.le_refl _)) fun o s₁ hle₁ hs₁ => ?_
  refine Moves.read (.placeOf _ _ _) fun p hp => ?_
  subst hp
  have hready : s₁.Ready G (s.scopeWords + p.height) := hs₁.ready
  extract_lets finish
  have hdone : ∀ (u : Unit) (s₂ : Stage), s.Le .value s₂ → s₂.Ready G s.scopeWords →
      Moves .statement s₂ (finish u) fun _ s' => s'.Rests G :=
    fun _ s₂ hle₂ hs₂ => .of_reads .endStatement fun _ _ => h.le hle₂ rfl hle₂.scopeWords_eq hs₂
  split
  · refine Moves.read (.wordsOf _ _) fun words _ => ?_
    refine Moves.value (hready.addressOf token) fun _ s₂ hle₂ hs₂ => ?_
    refine Moves.read (.byte _ _ _) fun a _ => ?_
    refine Moves.value (hs₂.emit .listFree (by simp) (Nat.le_add_left 1 _) trivial rfl rfl)
      fun _ s₃ hle₃ hs₃ => hdone () s₃ ((hle₁.trans hle₂).trans hle₃) hs₃
  · refine Moves.read (.wordsOf _ _) fun words _ => Moves.read (.short _ _ _) fun k _ => ?_
    refine Moves.value (hready.addressOf token) fun _ s₂ hle₂ hs₂ => ?_
    refine Moves.value (hs₂.emit .freeHeap (by simp) (Nat.le_add_left 1 _) trivial rfl rfl)
      fun _ s₃ hle₃ hs₃ => hdone () s₃ ((hle₁.trans hle₂).trans hle₃) hs₃
  · exact Fails.moves (.bind fun _ => .bind_left (.failMismatch _ _ _) _)

/-! ### Assignments -/

/-- The value of a place lies above what its store needs. -/
theorem Ready.loadForUpdate {p : Place} (h : s.Ready G (n + p.height)) (hn : s.scopeWords ≤ n)
    (hp : p.Fits G s) (token : Token) :
    Moves .value s (Statement.loadForUpdate p token) fun _ s' =>
      s'.Ready G (n + p.height + s.types.words p.ty) := by
  rw [Statement.loadForUpdate]
  -- the address, if there is one, is needed once for the load and once for the store
  have hload : ∀ s₁ : Stage, s.Le .value s₁ → s₁.Ready G (n + p.height + p.height) →
      Moves .value s₁ (CompileM.load (.place p) token >>= fun _ => pure ()) fun _ s' =>
        s'.Ready G (n + p.height + s.types.words p.ty) := by
    intro s₁ hle₁ hs₁
    have hn₁ : s₁.scopeWords ≤ n + p.height := by
      rw [hle₁.scopeWords_eq]
      exact Nat.le_add_right_of_le hn
    refine Moves.bind (hs₁.loadPlace hn₁ (hp.le hle₁) token) fun ty s₂ _ ⟨hty, hs₂⟩ => .pure ?_
    rw [hty, hle₁.types.words_eq hp.bounded] at hs₂
    exact hs₂
  cases hdynamic : p.isDynamic with
  | true =>
    have hheight : p.height = 1 := if_pos (eq_of_beq hdynamic)
    rw [hheight] at h hload ⊢
    refine Moves.bind (Q := fun _ s' => s'.Ready G (n + 1 + 1)) ?_
      fun _ s₁ hle₁ hs₁ => hload s₁ hle₁ hs₁
    exact h.emit .duplicate (by simp) (Nat.le_add_left 1 n) trivial rfl rfl
  | false =>
    have hheight : p.height = 0 := if_neg (fun heq => by simp [Place.isDynamic, heq] at hdynamic)
    rw [hheight] at h hload ⊢
    exact hload s (.refl _ s) h

/-- A value is read and stored into the place below it. -/
theorem Holds.assign (hg : g.Disciplined) (h : s.Holds G n o) (token : Token) :
    Moves .value s (Statement.assign g o token) fun _ s' => s'.Ready G n := by
  refine Moves.read .advance fun _ _ => Moves.read (.placeOf _ _ _) fun p hp => ?_
  subst hp
  refine Moves.read .current fun value _ => ?_
  have hn : s.scopeWords ≤ n + p.height := Nat.le_add_right_of_le h.base
  refine Moves.bind (hg.expression .or h.ready hn) fun ty s₁ hle₁ hs₁ => ?_
  refine Moves.read (.expectType _ _ _) fun _ hty => ?_
  subst hty
  exact hs₁.ready.store (by rw [hle₁.scopeWords_eq]; exact h.base) (Place.Fits.le h.fits hle₁) token

/-- An operation on two numbers leaves a number that is stored. -/
theorem Ready.storeResult {p : Place} (hty : ∀ t : TypeTable, t.words p.ty = 1)
    (h : s.Ready G (n + p.height + 1 + 1)) (hn : s.scopeWords ≤ n) (hp : p.Fits G s) {op : Opcode}
    (hpops : (Instruction.ofOpcode op).pops op = 2)
    (hpushes : (Instruction.ofOpcode op).pushes s.linkage op = 1)
    (hadmits : ∀ m, (Instruction.ofOpcode op).Admits s.linkage G.shape s.builder.code.constants m op)
    (hstraight : op.isStraight = true) (token : Token) :
    Moves .value s (CompileM.emitOp op >>= fun _ => CompileM.store p token) fun _ s' =>
      s'.Ready G n := by
  refine Moves.bind (Q := fun _ s' => s'.Ready G (n + p.height + 1)) ?_ fun _ s₁ hle₁ hs₁ => ?_
  · refine h.emit op (Instruction.opcode?_ofOpcode op) ?_ (hadmits _) hstraight ?_
    · rw [hpops]
      exact Nat.le_add_left 2 _
    · rw [hpops, hpushes]
      omega
  · refine Ready.store ?_ (by rw [hle₁.scopeWords_eq]; exact hn) (hp.le hle₁) token
    rw [hty]
    exact hs₁

theorem Holds.update (hg : g.Disciplined) (h : s.Holds G n o) (token : Token) :
    Moves .value s (Statement.update g o token) fun _ s' => s'.Ready G n := by
  refine Moves.read .advance fun op _ => Moves.read (.placeOf _ _ _) fun p hp => ?_
  subst hp
  split
  · exact (Fails.failOperands _ _ _).moves
  · rename_i opcode hop
    obtain ⟨hty, hpushes, hpops, hstraight, hadmits⟩ := arithmetic_shape hop
    have hwords := (number_shape hty).1
    refine Moves.bind (h.ready.loadForUpdate h.base h.fits token) fun _ s₁ hle₁ hs₁ => ?_
    refine Moves.read .current fun value _ => ?_
    rw [hwords] at hs₁
    have hbase : s₁.scopeWords ≤ n := by
      rw [hle₁.scopeWords_eq]
      exact h.base
    have hn₁ : s₁.scopeWords ≤ n + p.height + 1 :=
      Nat.le_add_right_of_le (Nat.le_add_right_of_le hbase)
    refine Moves.bind (hg.expression .or hs₁ hn₁) fun ty s₂ hle₂ hs₂ => ?_
    refine Moves.read (.expectType _ _ _) fun _ hty' => ?_
    have hs₂ : s₂.Ready G (n + p.height + 1 + s₂.types.words ty) := hs₂.ready
    rw [← hty', hwords] at hs₂
    refine hs₂.storeResult hwords ?_ (Place.Fits.le h.fits (hle₁.trans hle₂)) hpops (hpushes _)
      (hadmits _ _ _) hstraight token
    rw [hle₂.scopeWords_eq]
    exact hbase

theorem Holds.step (h : s.Holds G n o) {opcode : Opcode}
    (hopcode : opcode = .addInt ∨ opcode = .subtractInt) (token : Token) :
    Moves .value s (Statement.step o opcode token) fun _ s' => s'.Ready G n := by
  refine Moves.read .advance fun op _ => Moves.read (.placeOf _ _ _) fun p hp => ?_
  subst hp
  refine Moves.read (.expectType _ _ _) fun _ hty => ?_
  have hwords : ∀ t : TypeTable, t.words p.ty = 1 := by
    rw [← show Ty.int = p.ty from hty]
    exact fun _ => rfl
  refine Moves.bind (h.ready.loadForUpdate h.base h.fits token) fun _ s₁ hle₁ hs₁ => ?_
  rw [hwords] at hs₁
  refine Moves.bind (Q := fun _ s' => s'.Ready G (n + p.height + 1 + 1)) ?_ fun _ s₂ hle₂ hs₂ => ?_
  · exact hs₁.emit .pushImmediate (by simp) (Nat.zero_le _) trivial rfl rfl
  · refine hs₂.storeResult hwords ?_ (Place.Fits.le h.fits (hle₁.trans hle₂)) ?_ ?_ ?_ ?_ token
    · rw [(hle₁.trans hle₂).scopeWords_eq]
      exact h.base
    · obtain rfl | rfl := hopcode <;> rfl
    · obtain rfl | rfl := hopcode <;> rfl
    · obtain rfl | rfl := hopcode <;> exact fun _ => trivial
    · obtain rfl | rfl := hopcode <;> rfl

/-- An assignment, or an expression whose value is dropped. -/
theorem Rests.expression (hg : g.Disciplined) (h : s.Rests G) :
    Moves .statement s (Statement.expression g) fun _ s' => s'.Rests G := by
  refine Moves.read .current fun token _ => ?_
  refine Moves.value (h.ready.operand hg (Nat.le_refl _)) fun o s₁ hle₁ hs₁ => ?_
  refine Moves.read .kind fun k _ => ?_
  extract_lets finish
  have hdone : ∀ (u : Unit) (s₂ : Stage), s₁.Le .value s₂ → s₂.Ready G s.scopeWords →
      Moves .statement s₂ (finish u) fun _ s' => s'.Rests G := by
    intro _ s₂ hle₂ hs₂
    have hle := hle₁.trans hle₂
    exact .of_reads .endStatement fun _ _ => h.le hle rfl hle.scopeWords_eq hs₂
  split
  · exact Moves.value (hs₁.assign hg token) fun _ s₂ hle₂ hs₂ => hdone () s₂ hle₂ hs₂
  · exact Moves.value (hs₁.update hg token) fun _ s₂ hle₂ hs₂ => hdone () s₂ hle₂ hs₂
  · exact Moves.value (hs₁.update hg token) fun _ s₂ hle₂ hs₂ => hdone () s₂ hle₂ hs₂
  · exact Moves.value (hs₁.update hg token) fun _ s₂ hle₂ hs₂ => hdone () s₂ hle₂ hs₂
  · exact Moves.value (hs₁.update hg token) fun _ s₂ hle₂ hs₂ => hdone () s₂ hle₂ hs₂
  · exact Moves.value (hs₁.step (.inl rfl) token) fun _ s₂ hle₂ hs₂ => hdone () s₂ hle₂ hs₂
  · exact Moves.value (hs₁.step (.inr rfl) token) fun _ s₂ hle₂ hs₂ => hdone () s₂ hle₂ hs₂
  · refine Moves.value (hs₁.continue_ hg .or token) fun ty s₂ hle₂ hs₂ => ?_
    refine Moves.read (.wordsOf _ _) fun words hwords => ?_
    have hwords := TypeTable.words_of_wordLength hwords
    have hready : s₂.Ready G (s.scopeWords + s₂.types.words ty) := hs₂.ready
    rw [hwords] at hready
    have hpop := hready.emitPop (e := .value) (Nat.le_add_left words _) token
    rw [Nat.add_sub_cancel] at hpop
    exact Moves.value hpop fun _ s₃ hle₃ hs₃ => hdone () s₃ (hle₂.trans hle₃) hs₃

end WordScript.Stage
