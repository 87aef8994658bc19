/-
Functions keep the discipline of the stack.

A function is linked when its head has been read and is compiled into a chunk of its
own, whose frame begins with the parameters.  The code around it waits meanwhile and
goes on where it was.

* `Outlook.owe` — a function that waits for its code;
* `Stage.Ready.signature` — the head of a function;
* `Stage.Ready.functionBody` — its code;
* `Stage.Rests.declaration`, `Stage.Rests.external` — declarations.
-/
import WordScript.Proofs.Statements

namespace WordScript

/-- Every structure that the types of the signature mention is one of the first `n`. -/
def Signature.Bounded (n : Nat) (s : Signature) : Prop :=
  (∀ p ∈ s.parameters, p.ty.Bounded n) ∧ s.returns.Bounded n

/-- A function waits for its code. -/
def Outlook.owe (G : Outlook) (header : FunctionHeader) : Outlook :=
  { G with
    chunks := fun i => (∃ k, header.kind = .script k ∧ k.toNat = i) ∨ G.chunks i
    headers := fun f => f = header ∨ G.headers f }

namespace Stage

variable {D : Debts} {G : Outlook} {s s' : Stage} {n : Nat} {g : Productions} {header : FunctionHeader}

/-! ### Heads -/

theorem Ready.parameter (hg : g.Disciplined) (h : s.Ready G n) (before : List Parameter) :
    Moves .value s (Function.parameter g before) fun p s' =>
      p.ty.Bounded s'.types.structures.size ∧ s'.Ready G n := by
  refine Moves.read .current fun token _ => ?_
  refine Moves.bind (h.typeExpr hg true) fun ty s₁ _ ⟨hty, hs₁⟩ => ?_
  refine Moves.guard (.failMismatch _ _ _) fun _ => Moves.read (.identifier _) fun name _ => ?_
  exact Moves.guard (.failRedeclared _) fun _ => .pure ⟨hty, hs₁⟩

theorem Ready.parameters (hg : g.Disciplined) : ∀ (budget : Nat) {s : Stage} {done : List Parameter},
    (∀ p ∈ done, p.ty.Bounded s.types.structures.size) → s.Ready G n →
      Moves .value s (Function.parameters g budget done) fun ps s' =>
        (∀ p ∈ ps, p.ty.Bounded s'.types.structures.size) ∧ s'.Ready G n := by
  intro budget
  induction budget with
  | zero => exact fun _ _ => Fails.failFuel.moves
  | succ budget ih =>
    intro s done hdone h
    refine Moves.bind (h.parameter hg done) fun p s₁ hle₁ ⟨hp, hs₁⟩ => ?_
    have hall : ∀ q ∈ p :: done, q.ty.Bounded s₁.types.structures.size := by
      intro q hq
      cases hq with
      | head => exact hp
      | tail _ hq => exact hle₁.types.bounded (hdone q hq)
    refine Moves.read (.matchKind _) fun more _ => ?_
    split
    · exact ih hall hs₁
    · exact .pure ⟨fun q hq => hall q (List.mem_reverse.mp hq), hs₁⟩

theorem Ready.result (hg : g.Disciplined) (h : s.Ready G n) :
    Moves .value s (Function.result g) fun ty s' =>
      ty.Bounded s'.types.structures.size ∧ s'.Ready G n := by
  refine Moves.read (.matchKind _) fun given _ => ?_
  split
  · refine Moves.read .current fun token _ => ?_
    refine Moves.bind (h.typeExpr hg true) fun ty s₁ _ hs₁ => ?_
    split
    · exact Fails.moves (.bind fun _ => .failMismatch _ _ _)
    · exact .pure hs₁
  · exact .pure ⟨Ty.bounded_void _, h⟩

/-- The head of a function. -/
theorem Ready.signature (hg : g.Disciplined) (h : s.Ready G n) :
    Moves .value s (Function.signature g) fun sig s' =>
      sig.Bounded s'.types.structures.size ∧ s'.Ready G n := by
  refine Moves.read (.consume _ _) fun _ _ => Moves.read (.identifier _) fun name _ =>
    Moves.read (.consume _ _) fun _ _ => Moves.read (.check _) fun empty _ => ?_
  extract_lets finish
  have hdone : ∀ (ps : List Parameter) (s₁ : Stage),
      (∀ p ∈ ps, p.ty.Bounded s₁.types.structures.size) → s₁.Ready G n →
      Moves .value s₁ (finish ps) fun sig s' =>
        sig.Bounded s'.types.structures.size ∧ s'.Ready G n := by
    intro ps s₁ hps hs₁
    refine Moves.read (.consume _ _) fun _ _ => ?_
    refine Moves.bind (hs₁.result hg) fun ty s₂ hle₂ ⟨hty, hs₂⟩ => .pure ⟨⟨?_, hty⟩, hs₂⟩
    exact fun p hp => hle₂.types.bounded (hps p hp)
  have hnone : ∀ p ∈ ([] : List Parameter), p.ty.Bounded s.types.structures.size :=
    fun _ hp => nomatch hp
  split
  · refine Moves.bind (Q := fun ps s' => ps = [] ∧ s' = s) (.pure ⟨rfl, rfl⟩) fun ps s₁ _ hps => ?_
    obtain ⟨rfl, rfl⟩ := hps
    exact hdone [] s₁ hnone h
  · refine Moves.read .budget fun budget _ => ?_
    exact Moves.bind (h.parameters hg budget hnone) fun ps s₁ _ ⟨hps, hs₁⟩ => hdone ps s₁ hps hs₁

/-! ### Chunks -/

/-- The code under construction is left alone while other things change. -/
theorem At.le (h : s.At G n) (hle : s.Le .value s') (hbuilder : s'.builder = s.builder) :
    s'.At G n := by
  have hscope : s'.scope = s.scope := congrArg Builder.scope hbuilder
  refine ⟨?_, ?_, ?_, ?_, ?_⟩
  · rw [hscope, hle.scopes_eq]
    exact h.scope
  · rw [hbuilder, hle.scopeWords_eq]
    exact h.loops
  · rw [hbuilder]
    exact hle.linkage.chunk h.current
  · have hframe := h.frame
    cases hshape : G.shape with
    | none =>
      rw [hshape] at hframe
      rw [InFrame, hle.below.nil_iff, hle.scopes_eq, hscope]
      exact hframe
    | some shape =>
      rw [hshape] at hframe
      obtain ⟨hnested, hglobal, hglobals, hb, hreturns⟩ := hframe
      rw [InFrame, ne_eq, hle.below.nil_iff, hle.scopes_eq, hscope, hbuilder,
        hle.types.words_eq hb]
      exact ⟨hnested, hglobal, hglobals, hle.types.bounded hb, hreturns⟩
  · rw [hbuilder]
    exact h.code.link hle.linkage

/-- The code under construction does not depend on what the tables lack. -/
theorem At.debts (h : s.At G n) (D : Debts) : s.At { G with toDebts := D } n :=
  ⟨h.scope, h.loops, h.current, h.frame, h.code⟩

theorem Done.link {L L' : Linkage} {chunks chunks' : Array Chunk} {k : Nat} (h : Done L chunks k)
    (hL : L.Le L') (hk : chunks'[k]? = chunks[k]?) : Done L' chunks' k := by
  obtain ⟨shape, c, heights, hshape, hc, hshaped⟩ := h
  exact ⟨shape, c, heights, hL.chunk hshape, hk.trans hc, hshaped.mono hL⟩

theorem Known.le {f : FunctionHeader}
    (hf : f.Known D s.linkage s.types (s.scopes.wordLength 0)) (hle : s.Le .value s') :
    f.Known D s'.linkage s'.types (s'.scopes.wordLength 0) := by
  rw [hle.scopes_eq]
  exact hf.mono hle.linkage hle.types (Nat.le_refl _)

theorem Sound.functions_le (h : s.Sound D) (hle : s.Le .value s') :
    ∀ e ∈ (s'.scopes.get 0).functions, e.2.receiver = none ∧
      e.2.Known D s'.linkage s'.types (s'.scopes.wordLength 0) := by
  intro e he
  rw [hle.scopes_eq] at he
  exact ⟨(h.functions e he).1, Known.le (h.functions e he).2 hle⟩

/-- A chunk is reserved for a function of a given shape. -/
theorem Ready.reserveChunk (h : s.Ready G n) (shape : ChunkShape) (name : String) (token : Token) :
    Moves .value s (Function.reserveChunk name token) fun k s' =>
      s'.Ready { G with chunks := fun i => i = k.toNat ∨ G.chunks i } n ∧ s'.types = s.types ∧
        s'.linkage.chunks[k.toNat]? = some (some shape) := by
  refine Moves.ask (a := s.chunks.size) (fun _ => rfl) ?_
  refine Moves.read (.short _ _ _) fun k hk => ?_
  -- an empty chunk and its shape are entered; the code comes later
  let s₁ : Stage := { s with
    chunks := s.chunks.push ⟨name, #[], #[]⟩
    linkage := { s.linkage with chunks := s.linkage.chunks ++ [some shape] } }
  have hle : s.Le .value s₁ :=
    ⟨⟨List.prefix_append _ _, List.prefix_refl _⟩, .refl _, rfl, rfl, rfl, rfl, rfl,
      Chunk.Adds.refl _, .of_eq rfl rfl⟩
  refine Moves.bind (Q := fun _ s' => s' = s₁) (.modify (fun r => ⟨r, rfl⟩) hle rfl)
    fun _ s' _ hs' => .pure ?_
  subst hs'
  have hlength := h.sound.size
  refine ⟨⟨⟨h.sound.types, h.sound.scopes, fun id f hf => ?_, ?_, h.sound.bindings, ?_, ?_,
    fun i hi hlt => ?_, h.sound.externals, h.sound.declared⟩, (h.at_.le hle rfl).debts _⟩, rfl, ?_⟩
  · obtain ⟨hreceiver, hknown⟩ := h.sound.methods id f hf
    have hknown := Known.le hknown hle
    exact ⟨hreceiver, hknown.bounded, hknown.fixed, hknown.linked⟩
  · intro e he
    obtain ⟨hreceiver, hknown⟩ := h.sound.functions_le hle e he
    exact ⟨hreceiver, hknown.bounded, hknown.fixed, hknown.linked⟩
  · show (s.linkage.chunks ++ [some shape]).length = (s.chunks.push _).size
    rw [List.length_append, Array.size_push, hlength]
    rfl
  · exact hle.linkage.chunk h.sound.entry
  · have hlt : i < (s.chunks.push ⟨name, #[], #[]⟩).size := hlt
    rw [Array.size_push] at hlt
    by_cases heq : i = s.chunks.size
    · exact .inl (.inl (heq.trans hk.symm))
    · have hlt : i < s.chunks.size := by omega
      refine (h.sound.done i hi hlt).imp .inr fun hdone => hdone.link hle.linkage ?_
      exact Array.getElem?_push.trans (if_neg heq)
  · show (s.linkage.chunks ++ [some shape])[k.toNat]? = _
    rw [hk, ← hlength, List.getElem?_append_right (Nat.le_refl _), Nat.sub_self]
    rfl

/-! ### Bodies -/

/-- The outlook inside of a function: its code owes nothing yet. -/
def inside (G : Outlook) (shape : ChunkShape) : Outlook :=
  { G with shape := some shape, jumps := [], labels := [] }

/-- The stage at the beginning of the code of a function. -/
def openFunction (s : Stage) (k : Nat) (returns : Ty) : Stage :=
  { s with
    scopes := (s.scopes.enter 0 .function).2
    nested := ⟨k, ⟨(s.chunks[k]?.map Chunk.name).getD "", #[], #[]⟩, s.scopes.scopes.size, returns, []⟩
      :: s.nested }

theorem Ready.openFunction (h : s.Ready G n) {k : Nat} {shape : ChunkShape} {returns : Ty}
    (hk : s.linkage.chunks[k]? = some (some shape)) (hglobals : shape.globals = s.scopes.wordLength 0)
    (hb : returns.Bounded s.types.structures.size) (hreturns : shape.returns = s.types.words returns) :
    (s.openFunction k returns).Ready (inside G shape) shape.parameters := by
  have hpos := h.sound.scopes.nonempty
  have hroot : (s.scopes.enter 0 .function).2.get 0 = s.scopes.get 0 := s.scopes.get_enter _ _ hpos
  have hwords : (s.scopes.enter 0 .function).2.wordLength 0 = s.scopes.wordLength 0 :=
    congrArg Scope.wordLength hroot
  have hkind : ((s.scopes.enter 0 .function).2.get s.scopes.scopes.size).kind = .function :=
    congrArg Scope.kind ((ScopeTree.get_push s.scopes _ _).trans (if_pos rfl))
  refine ⟨?_, ?_, fun l hl => (nomatch hl), hk, ⟨fun hnil => (nomatch hnil), ?_, ?_, hb, hreturns⟩,
    .start _ _ _⟩
  · have hsound := h.sound.rescope h.sound.scopes.enterFunction (congrArg Scope.functions hroot)
      (Nat.le_of_eq hwords.symm)
    exact hsound.of_eq rfl rfl rfl rfl rfl rfl
  · exact (ScopeTree.size_enter _ _ _).symm
  · exact ScopeTree.isGlobal_function hkind
  · exact hglobals.trans hwords.symm

/-- Parameters are declared one after the other. -/
theorem Ready.declareAll (token : Token) : ∀ (ps : List Parameter) {s : Stage},
    (∀ p ∈ ps, p.ty.Bounded s.types.structures.size) → s.Ready G n →
      Moves .statement s
        (ps.forM fun p => do
          let _ ← CompileM.declare { token with kind := .identifier, lexeme := p.name } p.ty)
        fun _ s' => s'.Ready G n ∧
          s'.scopeWords = s.scopeWords + s.types.totalWords (ps.map Parameter.ty) ∧
          s'.types = s.types ∧ ∀ p ∈ ps, s.types.HasSize p.ty := by
  intro ps
  induction ps with
  | nil => exact fun _ h => .pure ⟨h, rfl, rfl, fun _ hp => nomatch hp⟩
  | cons p ps ih =>
    intro s hb h
    refine Moves.bind (Q := fun _ s' => s'.Ready G n ∧
      s'.scopeWords = s.scopeWords + s.types.words p.ty ∧ s'.types = s.types ∧
      s.types.HasSize p.ty) ?_ fun _ s₁ _ ⟨hs₁, hwords₁, htypes₁, hsize⟩ => ?_
    · exact Moves.bind (h.declare (hb p List.mem_cons_self) _) fun _ s₁ _ hs₁ => .pure hs₁
    · have hb₁ : ∀ q ∈ ps, q.ty.Bounded s₁.types.structures.size := fun q hq => by
        rw [htypes₁]
        exact hb q (List.mem_cons_of_mem _ hq)
      refine (ih hb₁ hs₁).mono fun _ s₂ _ ⟨hs₂, hwords₂, htypes₂, hsizes⟩ => ⟨hs₂, ?_, ?_, ?_⟩
      · rw [hwords₂, hwords₁, htypes₁, Nat.add_assoc]
        rfl
      · rw [htypes₂, htypes₁]
      · intro q hq
        cases hq with
        | head => exact hsize
        | tail _ hq =>
          rw [← htypes₁]
          exact hsizes q hq

/-- The parameters of a function, after its receiver. -/
theorem Ready.declareParameters (h : s.Ready G n) (hb : header.Bounded s.types.structures.size)
    (howner : ∀ owner, header.receiver = some owner → owner < s.types.structures.size)
    (token : Token) :
    Moves .statement s (Function.declareParameters header token) fun _ s' => s'.Ready G n ∧
      s'.scopeWords = s.scopeWords + (header.callShape s.types).parameters ∧
      s'.types = s.types ∧ ∀ p ∈ header.parameters, s.types.HasSize p.ty := by
  rw [Function.declareParameters, FunctionHeader.callShape]
  cases hreceiver : header.receiver with
  | none =>
    refine (h.declareAll token header.parameters hb.1).mono fun _ s₁ _ hdeclared => ?_
    obtain ⟨hs₁, hwords, hrest⟩ := hdeclared
    refine ⟨hs₁, ?_, hrest⟩
    rw [hwords]
    simp
  | some owner =>
    -- a method has a reference to its owner in front, which is one word
    have hreference : (Ty.reference (.structure_ owner)).Bounded s.types.structures.size :=
      Ty.bounded_reference.mpr (Ty.bounded_structure.mpr (howner owner hreceiver))
    refine Moves.bind (h.declare hreference _) fun _ s₁ _ hdeclared => ?_
    obtain ⟨hs₁, hwords₁, htypes₁, -⟩ := hdeclared
    have hb₁ : ∀ p ∈ header.parameters, p.ty.Bounded s₁.types.structures.size := by
      rw [htypes₁]
      exact hb.1
    refine (hs₁.declareAll token header.parameters hb₁).mono fun _ s₂ _ hall => ?_
    obtain ⟨hs₂, hwords₂, htypes₂, hsizes⟩ := hall
    rw [htypes₁] at hwords₂ htypes₂ hsizes
    refine ⟨hs₂, ?_, htypes₂, hsizes⟩
    rw [hwords₂, hwords₁]
    show _ + 1 + _ = _ + (1 + _)
    omega

/-- The result of a function that has come to its end. -/
def zeros (returns : Ty) (name : Token) : CompileM UInt8 := do
  if returns = .void then pure 0
  else
    let words ← CompileM.wordsOf returns name
    let count ← CompileM.short words name "return value"
    CompileM.emit (.ofByteShort .pushZero 0 count)
    CompileM.byte words name "return value"

theorem emitReturn_eq (returns : Ty) (name : Token) : Function.emitReturn returns name =
    zeros returns name >>= fun words => CompileM.emit (.ofBytes .return_ words 0 0) := by
  rw [Function.emitReturn, zeros]
  split
  · rfl
  · simp only [bind_assoc]

theorem Ready.zeros (h : s.Ready G n) (returns : Ty) (name : Token) :
    Moves .value s (zeros returns name) fun words s' => words.toNat = s.types.words returns ∧
      s.types.HasSize returns ∧ s'.Ready G (n + words.toNat) := by
  rw [Stage.zeros]
  split
  · rename_i hvoid
    subst hvoid
    exact .pure ⟨rfl, TypeTable.hasSize_void _, h⟩
  · refine Moves.read (.wordsOf _ _) fun words hwords => Moves.read (.short _ _ _) fun k hk => ?_
    refine Moves.bind (Q := fun _ s' => s'.Ready G (n + words)) ?_ fun _ s₁ _ hs₁ => ?_
    · refine h.emit .pushZero (by simp) (Nat.zero_le _) trivial rfl ?_
      simp only [Instruction.pops, Instruction.pushes, Instruction.short_ofByteShort, hk]
      rfl
    · refine .of_reads (.byte _ _ _) fun a ha => ⟨?_, TypeTable.hasSize_of_wordLength hwords, ?_⟩
      · rw [ha, TypeTable.words_of_wordLength hwords]
      · rwa [ha]

/-- A function has its code, and its words are fixed. -/
theorem Sound.pay (h : s.Sound (G.owe header).toDebts) (hfixed : header.Fixed s.types)
    (hdone : ∀ k, header.kind = .script k → Done s.linkage s.chunks k.toNat) :
    s.Sound G.toDebts := by
  have hknown : ∀ {f : FunctionHeader},
      f.Known (G.owe header).toDebts s.linkage s.types (s.scopes.wordLength 0) →
      f.Known G.toDebts s.linkage s.types (s.scopes.wordLength 0) := by
    intro f hf
    refine ⟨hf.bounded, ?_, hf.linked⟩
    obtain (rfl | howed) | hf := hf.fixed
    · exact .inr hfixed
    · exact .inl howed
    · exact .inr hf
  refine ⟨h.types, h.scopes, fun id f hf => ?_, fun e he => ?_, h.bindings, h.size, h.entry,
    fun i hi hlt => ?_, h.externals, h.declared⟩
  · exact ⟨(h.methods id f hf).1, hknown (h.methods id f hf).2⟩
  · exact ⟨(h.functions e he).1, hknown (h.functions e he).2⟩
  · obtain (⟨k, hkind, rfl⟩ | howed) | hi := h.done i hi hlt
    · exact .inr (hdone k hkind)
    · exact .inl howed
    · exact .inr hi

/-- A chunk that waits for its code is given some. -/
theorem Sound.putChunk (h : s.Sound D) {k : Nat} (hk : D.chunks k) (c : Chunk) :
    Sound D { s with chunks := s.chunks.setIfInBounds k c } := by
  refine ⟨h.types, h.scopes, h.methods, h.functions, h.bindings, ?_, h.entry, fun i hi hlt => ?_,
    h.externals, h.declared⟩
  · show s.linkage.chunks.length = (s.chunks.setIfInBounds k c).size
    rw [Array.size_setIfInBounds, h.size]
  · have hlt : i < (s.chunks.setIfInBounds k c).size := hlt
    rw [Array.size_setIfInBounds] at hlt
    by_cases heq : i = k
    · exact .inl (heq ▸ hk)
    · refine (h.done i hi hlt).imp_right fun hdone => hdone.link (.refl _) ?_
      exact Array.getElem?_setIfInBounds_ne (Ne.symm heq)

/-- The stage after a function, in which the code around it goes on. -/
def closeFunction (s s' : Stage) (k : Nat) (c : Chunk) : Stage :=
  { s' with nested := s.nested, scopes := s.scopes, chunks := s'.chunks.setIfInBounds k c }

section

variable {k : Nat} {returns : Ty} (hle : (s.openFunction k returns).Le .statement s')

include hle

/-- The chunk of a function lies above those around it. -/
theorem Le.nested_eq : s'.nested = s'.builder :: s.nested := by
  cases hnested : s'.nested with
  | nil => exact absurd (hle.below.nil_iff.mp hnested) (List.cons_ne_nil _ _)
  | cons b rest =>
    have htail := hle.below.tail
    rw [hnested] at htail
    rw [show rest = s.nested from htail, Compiler.builder, hnested]

theorem Le.grown_function : (s.scopes.enter 0 .function).2.Grown s'.scopes :=
  hle.scopes

theorem Le.builder_closeFunction (c : Chunk) : (s.closeFunction s' k c).builder = s.builder := by
  have hentry : s'.entry = s.entry := hle.below.entry (List.cons_ne_nil _ _)
  simp only [Compiler.builder, Stage.closeFunction, hentry]

theorem Le.closeFunction (c : Chunk) : s.Le .value (s.closeFunction s' k c) := by
  have hbuilder := hle.builder_closeFunction c
  have hentry : s'.entry = s.entry := hle.below.entry (List.cons_ne_nil _ _)
  refine ⟨hle.linkage, hle.types, rfl, ?_, ?_, ?_, ?_, ?_, .of_eq rfl hentry⟩
  · rw [hbuilder]
  · rw [hbuilder]
  · rw [hbuilder]
  · rw [hbuilder]
    rfl
  · rw [hbuilder]
    exact Chunk.Adds.refl _

/-- The last instruction is emitted, and the chunk is put in its place. -/
theorem close_eq (i : Instruction) (r : Reader) :
    (CompileM.emit i >>= fun _ => Function.close) (s'.toCompiler.on r) =
      .ok ((), (s.closeFunction s' k
        { s'.builder.code with code := s'.builder.code.code.push i }).toCompiler.on r) := by
  have hnested := hle.nested_eq
  have hscopes := ScopeTree.exit_of_grown hle.grown_function
  have hchunk : s'.builder.chunk = k := hle.chunk
  show Function.close ((s'.toCompiler.on r).mapBuilder (·.push i)) = _
  have hmap : (s'.toCompiler.on r).mapBuilder (·.push i) =
      Compiler.on { s'.toCompiler with nested := s'.builder.push i :: s.nested } r := by
    have hon : (s'.toCompiler.on r).nested = s'.builder :: s.nested := hnested
    simp only [Compiler.mapBuilder, hon]
    rfl
  rw [hmap]
  show Except.ok ((), Compiler.on { s'.toCompiler with
    nested := s.nested
    scopes := s'.scopes.exit.2
    chunks := s'.chunks.setIfInBounds s'.builder.chunk _ } r) = _
  rw [hscopes, hchunk]
  rfl

end

/-- The stage in which a function is compiled to its end, except for the return. -/
theorem Ready.closeFunction {shape : ChunkShape} {k : UInt16} {m : Nat}
    (h : s.Ready (G.owe header) n) (hkind : header.kind = .script k)
    (hshape : s.linkage.chunks[k.toNat]? = some (some shape))
    (hle : (s.openFunction k.toNat header.returns).Le .statement s')
    (h' : s'.Ready (inside (G.owe header) shape) m) (hfixed : header.Fixed s'.types)
    {words : UInt8} (hwords : words.toNat = shape.returns) (hm : words.toNat ≤ m) :
    (s.closeFunction s' k.toNat { s'.builder.code with
      code := s'.builder.code.code.push (.ofBytes .return_ words 0 0) }).Ready G n := by
  have hshape' := hle.linkage.chunk hshape
  have hlt : k.toNat < s'.chunks.size := by
    rw [← h'.sound.size]
    exact (List.getElem?_eq_some_iff.mp hshape').1
  -- no loop is open any more, so no jump waits
  have hloops : s'.builder.loops = [] := List.map_eq_nil_iff.mp hle.loops
  have hcode := h'.at_.code
  rw [Builder.waiting, Builder.loopLabels, hloops] at hcode
  have hop : (Instruction.ofBytes .return_ words 0 0).opcode? = some .return_ := by simp
  obtain ⟨heights, hshaped, -⟩ := hcode.close hop hm ⟨shape, rfl, hwords⟩ rfl rfl
  have hroot : s'.scopes.get 0 = s.scopes.get 0 := by
    have hpos := h.sound.scopes.nonempty
    rw [hle.grown_function.get_eq (by rw [ScopeTree.size_enter]; omega),
      s.scopes.get_enter _ _ hpos]
  have hsound := h'.sound.rescope (h.sound.scopes.keep (TypeTable.Le.keeps hle.types))
    (congrArg Scope.functions hroot.symm) (Nat.le_of_eq (congrArg Scope.wordLength hroot))
  have hput := hsound.putChunk (k := k.toNat) (.inl ⟨k, hkind, rfl⟩)
    { s'.builder.code with code := s'.builder.code.code.push (.ofBytes .return_ words 0 0) }
  have hput : (s.closeFunction s' k.toNat { s'.builder.code with
      code := s'.builder.code.code.push (.ofBytes .return_ words 0 0) }).Sound
        (G.owe header).toDebts :=
    hput.of_eq rfl rfl rfl rfl rfl rfl
  refine ⟨hput.pay hfixed fun k' hk' => ?_, ?_⟩
  · obtain rfl : k = k' := FunctionKind.script.inj (hkind.symm.trans hk')
    exact ⟨shape, _, heights, hshape', Array.getElem?_setIfInBounds_self_of_lt hlt, hshaped⟩
  · exact (h.at_.le (hle.closeFunction _) (hle.builder_closeFunction _)).debts _

/-- The code of a function is compiled into its chunk. -/
theorem Ready.functionBody (hg : g.Disciplined) (h : s.Ready (G.owe header) n) {k : UInt16}
    (hkind : header.kind = .script k) (hshape : s.linkage.chunks[k.toNat]? =
      some (some ⟨header.callShape s.types, s.scopes.wordLength 0⟩))
    (hb : header.Bounded s.types.structures.size)
    (howner : ∀ owner, header.receiver = some owner → owner < s.types.structures.size)
    (depth : Nat) (name : Token) :
    Moves .value s (Function.body g header depth name) fun _ s' =>
      s'.Ready G n ∧ header.Fixed s'.types := by
  intro r a c hbody
  rw [Function.body, hkind] at hbody
  obtain ⟨_, c₀, hopen, hbody⟩ := CompileM.bind_eq_ok hbody
  obtain rfl : (s.openFunction k.toNat header.returns).toCompiler.on r = c₀ :=
    (Prod.mk.inj (Except.ok.inj hopen)).2
  have h₀ := h.openFunction hshape rfl hb.2 rfl
  obtain ⟨_, c₁, hparams, hbody⟩ := CompileM.bind_eq_ok hbody
  obtain ⟨s₁, r₁, rfl, hle₁, hs₁, hwords₁, htypes₁, hsizes⟩ :=
    h₀.declareParameters hb howner name r _ c₁ hparams
  obtain ⟨_, c₂, htail, hbody⟩ := CompileM.bind_eq_ok hbody
  -- the frame of the function begins empty, so its words are those of the parameters
  have hrests : s₁.Rests (inside (G.owe header) ⟨header.callShape s.types, s.scopes.wordLength 0⟩) := by
    refine ⟨?_, fun hnil => absurd (hle₁.below.nil_iff.mp hnil) (List.cons_ne_nil _ _)⟩
    have hnone : (s.openFunction k.toNat header.returns).scopeWords = 0 :=
      congrArg Scope.wordLength ((ScopeTree.get_push s.scopes _ _).trans (if_pos rfl))
    rw [hwords₁, hnone, Nat.zero_add]
    exact hs₁
  obtain ⟨s₂, r₂, rfl, hle₂, hs₂⟩ := hrests.tail hg depth r₁ _ c₂ htail
  rw [emitReturn_eq, bind_assoc] at hbody
  -- a body that runs to its end returns zeros
  obtain ⟨words, c₃, hzeros, hbody⟩ := CompileM.bind_eq_ok hbody
  obtain ⟨s₃, r₃, rfl, hle₃, hwords₃, hsize, hs₃⟩ :=
    hs₂.ready.zeros header.returns name r₂ words c₃ hzeros
  have hle := (hle₁.trans hle₂).trans hle₃.statement
  rw [close_eq hle] at hbody
  cases hbody
  have hfixed : header.Fixed s₃.types := by
    refine ⟨fun p hp => ((hsizes p hp).fixed.keep (TypeTable.Le.keeps hle.types)).1, ?_⟩
    exact (hsize.fixed.keep hle₃.types.keeps).1
  refine ⟨_, r₃, rfl, hle.closeFunction _, ?_, hfixed⟩
  refine h.closeFunction hkind hshape hle hs₃ hfixed ?_ (Nat.le_add_left _ _)
  exact hwords₃.trans ((hle₁.trans hle₂).types.words_eq hb.2)

/-! ### Declarations -/

/-- At the top level only the global scope is open. -/
theorem At.top (h : s.At G n) (htop : s.isTopLevel = true) :
    s.nested = [] ∧ s.scope = 0 ∧ s.scopes.scopes.size = 1 := by
  obtain ⟨hnil, hscope⟩ := Bool.and_eq_true_iff.mp htop
  have hnil : s.nested = [] := List.isEmpty_iff.mp hnil
  have hscope : s.scope = 0 := by
    rw [Compiler.scope, Compiler.builder, hnil]
    exact eq_of_beq hscope
  refine ⟨hnil, hscope, ?_⟩
  rw [← h.scope, hscope]

/-- A function is declared for the whole program. -/
theorem Sound.declareFunction (h : s.Sound D) (hone : s.scopes.scopes.size = 1)
    (hreceiver : header.receiver = none)
    (hknown : header.Known D s.linkage s.types (s.scopes.wordLength 0)) {sc : ScopeTree}
    (hdeclare : s.scopes.declareFunction 0 header = .ok sc) : Sound D { s with scopes := sc } := by
  obtain ⟨hsc, -, hwords, hfunctions⟩ := h.scopes.declareFunction hone hdeclare
  refine ⟨h.types, hsc, ?_, fun e he => ?_, h.bindings, h.size, h.entry, h.done, h.externals,
    fun i hi => ?_⟩
  · show ∀ id, ∀ f ∈ (s.types.at_ id).methods, _ ∧ f.Known D s.linkage s.types (sc.wordLength 0)
    rw [hwords]
    exact h.methods
  · have he : e ∈ (sc.get 0).functions := he
    show _ ∧ e.2.Known D s.linkage s.types (sc.wordLength 0)
    rw [hfunctions] at he
    rw [hwords]
    cases he with
    | head => exact ⟨hreceiver, hknown⟩
    | tail _ he => exact h.functions e he
  · obtain ⟨e, he, hkind⟩ := h.declared i hi
    refine ⟨e, ?_, hkind⟩
    show e ∈ (sc.get 0).functions
    rw [hfunctions]
    exact List.mem_cons_of_mem _ he

theorem Ready.declareGlobal (h : s.Ready G n) (hone : s.scopes.scopes.size = 1)
    (hreceiver : header.receiver = none)
    (hknown : header.Known G.toDebts s.linkage s.types (s.scopes.wordLength 0)) (token : Token) :
    Moves .statement s (Function.declareGlobal header token) fun _ s' => s'.Ready G n ∧
      s'.types = s.types ∧ s'.linkage = s.linkage ∧
      s'.scopes.wordLength 0 = s.scopes.wordLength 0 := by
  refine Moves.ask (a := s.scopes.declareFunction 0 header) (fun _ => rfl) ?_
  cases hdeclare : s.scopes.declareFunction 0 header with
  | error _ => exact (Fails.fail _ _).moves
  | ok sc =>
    obtain ⟨-, hgrown, hwords, -⟩ := h.sound.scopes.declareFunction hone hdeclare
    have hle : s.Le .statement { s with scopes := sc } :=
      ⟨.refl _, .refl _, hgrown, rfl, rfl, rfl, rfl, trivial, .of_eq rfl rfl⟩
    refine .modify (fun r => ⟨r, rfl⟩) hle ⟨⟨?_, ?_⟩, rfl, rfl, hwords⟩
    · exact h.sound.declareFunction hone hreceiver hknown hdeclare
    · exact h.at_.declared h.sound.scopes hgrown

/-- At the top level the words of the frame are those of the global variables. -/
theorem scopeWords_of_scope (hscope : s.scope = 0) : s.scopeWords = s.scopes.wordLength 0 := by
  rw [Compiler.scopeWords, hscope]

theorem Rests.declaration (hg : g.Disciplined) (h : s.Rests G) (htop : s.isTopLevel = true)
    (depth : Nat) :
    Moves .statement s (Function.declaration g depth) fun _ s' => s'.Rests G := by
  obtain ⟨-, hscope, hone⟩ := h.ready.at_.top htop
  refine Moves.value (h.ready.signature hg) fun sig s₁ hle₁ ⟨hsig, hs₁⟩ => ?_
  refine Moves.value (hs₁.reserveChunk
    ⟨(sig.header (.script 0) none).callShape s₁.types, s₁.scopes.wordLength 0⟩ _ _)
    fun k s₂ hle₂ ⟨hs₂, htypes₂, hlinked⟩ => ?_
  extract_lets header
  have hone₂ : s₂.scopes.scopes.size = 1 := by
    rw [(hle₁.trans hle₂).scopes_eq]
    exact hone
  have hb : header.Bounded s₂.types.structures.size := by
    rw [htypes₂]
    exact hsig
  have hlinked : s₂.linkage.chunks[k.toNat]? =
      some (some ⟨header.callShape s₂.types, s₂.scopes.wordLength 0⟩) := by
    rw [hlinked, htypes₂, hle₂.scopes_eq]
    rfl
  -- the function is known before its body is read, so that it may call itself
  have howed : s₂.Ready (G.owe header) s.scopeWords := by
    refine ⟨hs₂.sound.mono (fun _ hid => hid) (fun _ hf => .inr hf) fun i hi => ?_, hs₂.at_.debts _⟩
    exact hi.imp_left fun heq => ⟨k, rfl, heq.symm⟩
  have hknown : header.Known (G.owe header).toDebts s₂.linkage s₂.types (s₂.scopes.wordLength 0) :=
    ⟨hb, .inl (.inl rfl), _, Nat.le_refl _, hlinked⟩
  refine Moves.bind (howed.declareGlobal hone₂ rfl hknown _)
    fun _ s₃ hle₃ ⟨hs₃, htypes₃, hlinkage₃, hwords₃⟩ => ?_
  rw [← htypes₃, ← hlinkage₃, ← hwords₃] at hlinked
  refine Moves.last (hs₃.functionBody hg rfl hlinked (by rwa [htypes₃]) (fun _ ho => nomatch ho)
    depth _) fun _ s₄ hle₄ ⟨hs₄, _⟩ => ?_
  have hle := ((hle₁.trans hle₂).statement.trans hle₃).trans hle₄.statement
  have hscope₄ : s₄.scope = 0 := hle.scope.trans hscope
  refine h.le hle rfl ?_ hs₄
  rw [scopeWords_of_scope hscope₄, hle₄.scopes_eq, hwords₃, (hle₁.trans hle₂).scopes_eq,
    scopeWords_of_scope hscope]

/-- A function of the host is declared and linked. -/
theorem Sound.declareExternal (h : s.Sound D) (hone : s.scopes.scopes.size = 1)
    (hreceiver : header.receiver = none) (hb : header.Bounded s.types.structures.size)
    (hfixed : header.Fixed s.types) {index : UInt16} (hkind : header.kind = .external index)
    (hindex : index.toNat = s.externals.size) {sc : ScopeTree}
    (hdeclare : s.scopes.declareFunction 0 header = .ok sc) (name : String) :
    Sound D { s with
      scopes := sc
      externals := s.externals.push name
      linkage := { s.linkage with externals := s.linkage.externals ++ [header.callShape s.types] } } := by
  obtain ⟨hsc, -, hwords, hfunctions⟩ := h.scopes.declareFunction hone hdeclare
  -- what was linked before keeps its place
  have hL : s.linkage.Le
      { s.linkage with externals := s.linkage.externals ++ [header.callShape s.types] } :=
    ⟨List.prefix_refl _, List.prefix_append _ _⟩
  have hlength := h.externals
  refine ⟨h.types, hsc, fun id f hf => ?_, fun e he => ?_, h.bindings, h.size, h.entry,
    fun i hi hlt => (h.done i hi hlt).imp_right fun hdone => hdone.link hL rfl, ?_, fun i hi => ?_⟩
  · exact ⟨(h.methods id f hf).1, (h.methods id f hf).2.mono hL (.refl _) (Nat.le_of_eq hwords.symm)⟩
  · have he : e ∈ (sc.get 0).functions := he
    rw [hfunctions] at he
    cases he with
    | head =>
      refine ⟨hreceiver, hb, .inr hfixed, ?_⟩
      rw [FunctionHeader.Linked, hkind]
      show (s.linkage.externals ++ [header.callShape s.types])[index.toNat]? = _
      rw [hindex, ← hlength, List.getElem?_append_right (Nat.le_refl _), Nat.sub_self]
      rfl
    | tail _ he =>
      exact ⟨(h.functions e he).1,
        (h.functions e he).2.mono hL (.refl _) (Nat.le_of_eq hwords.symm)⟩
  · show (s.linkage.externals ++ [_]).length = (s.externals.push name).size
    rw [List.length_append, Array.size_push, hlength]
    rfl
  · have hi : i < (s.externals.push name).size := hi
    rw [Array.size_push] at hi
    show ∃ e ∈ (sc.get 0).functions, _
    rw [hfunctions]
    by_cases heq : i = s.externals.size
    · exact ⟨_, List.mem_cons_self, index, hkind, hindex.trans heq.symm⟩
    · obtain ⟨e, he, hk⟩ := h.declared i (by omega)
      exact ⟨e, List.mem_cons_of_mem _ he, hk⟩

theorem Rests.external (hg : g.Disciplined) (h : s.Rests G) (htop : s.isTopLevel = true) :
    Moves .statement s (Function.external g) fun _ s' => s'.Rests G := by
  obtain ⟨hnil, hscope, hone⟩ := h.ready.at_.top htop
  refine Moves.read .advance fun _ _ => ?_
  refine Moves.value (h.ready.signature hg) fun sig s₁ hle₁ ⟨hsig, hs₁⟩ => ?_
  refine Moves.ask (a := s₁.externals.size) (fun _ => rfl) ?_
  refine Moves.read (.short _ _ _) fun index hindex => ?_
  have hone₁ : s₁.scopes.scopes.size = 1 := by
    rw [hle₁.scopes_eq]
    exact hone
  -- no structure waits for its layout at the top level
  have hcomplete : ∀ id < s₁.types.structures.size, (s₁.types.at_ id).complete = true :=
    fun id hid => (hs₁.sound.types.complete id hid).resolve_right (h.calm hnil id)
  have hb : (sig.header (.external index) none).Bounded s₁.types.structures.size := hsig
  have hfixed : (sig.header (.external index) none).Fixed s₁.types :=
    ⟨fun p hp => TypeTable.fixed_of_complete hcomplete (hsig.1 p hp),
      TypeTable.fixed_of_complete hcomplete hsig.2⟩
  rw [Function.declareGlobal, bind_assoc]
  refine Moves.ask (a := s₁.scopes.declareFunction 0 (sig.header (.external index) none))
    (fun _ => rfl) ?_
  cases hdeclare : s₁.scopes.declareFunction 0 (sig.header (.external index) none) with
  | error _ => exact Fails.moves (.bind_left (.fail _ _) _)
  | ok sc =>
    obtain ⟨-, hgrown, hwords, -⟩ := hs₁.sound.scopes.declareFunction hone₁ hdeclare
    have hle₂ : s₁.Le .statement { s₁ with scopes := sc } :=
      ⟨.refl _, .refl _, hgrown, rfl, rfl, rfl, rfl, trivial, .of_eq rfl rfl⟩
    refine Moves.bind (Q := fun _ s' => s' = { s₁ with scopes := sc })
      (.modify (fun r => ⟨r, rfl⟩) hle₂ rfl) fun _ s₂ _ hs₂ => ?_
    subst hs₂
    let s₃ : Stage := { s₁ with
      scopes := sc
      externals := s₁.externals.push sig.name.lexeme
      linkage := { s₁.linkage with externals := s₁.linkage.externals ++
        [(sig.header (.external index) none).callShape s₁.types] } }
    have hle₃ : Stage.Le .value { s₁ with scopes := sc } s₃ :=
      ⟨⟨List.prefix_refl _, List.prefix_append _ _⟩, .refl _, rfl, rfl, rfl, rfl, rfl,
        Chunk.Adds.refl _, .of_eq rfl rfl⟩
    refine Moves.value (Q := fun _ s' => s' = s₃) (.modify (fun r => ⟨r, rfl⟩) hle₃ rfl)
      fun _ s' _ hs' => ?_
    subst hs'
    refine .of_reads .endStatement fun _ _ => ?_
    refine h.le ((hle₁.statement.trans hle₂).trans hle₃.statement) rfl ?_ ⟨?_, ?_⟩ (n := s.scopeWords)
    · show sc.wordLength s₁.scope = _
      rw [show s₁.scope = 0 from hle₁.scope.trans hscope, hwords, hle₁.scopes_eq,
        scopeWords_of_scope hscope]
    · exact hs₁.sound.declareExternal hone₁ rfl hb hfixed rfl hindex hdeclare _
    · exact (hs₁.at_.declared hs₁.sound.scopes hgrown).le hle₃ rfl

end Stage

end WordScript
