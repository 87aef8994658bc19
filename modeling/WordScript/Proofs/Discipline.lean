/-
The discipline of the stack while code is emitted.

At every point of a compilation the height of the stack is known: between statements
it is the words of the open scopes, and inside an expression the operands lie above
them.  The invariant says this of the chunk under construction, together with what
the compiler knows of types, variables and functions.

* `Outlook` — what the code around still owes: jumps without a target, chunks
  without code, structures without a layout;
* `Stage.Sound`, `Stage.At`, `Stage.Ready` — the invariant: of the tables, of the
  chunk under construction, and of both;
* `Place.Fits`, `Operand.Fits` — operands that lie where they should;
* `Stage.Ready.emit` and its companions — emitting an instruction.

Design notes: an outlook never changes on the way through a part of the source, and
what is proved of the part holds for all outlooks.  So the part pays all debts of its
own and none of those around it.
-/
import WordScript.Proofs.Stages

namespace WordScript

/-- What the tables still lack. -/
structure Debts where
  /-- the chunks that wait for their code -/
  chunks : Nat → Prop
  /-- the functions whose words may still change -/
  headers : FunctionHeader → Prop
  /-- the structures that wait for their layout -/
  making : Nat → Prop

/-- What the source around a part of it still has to do. -/
structure Outlook extends Debts where
  /-- the shape of the chunk under construction -/
  shape : Option ChunkShape
  /-- the jumps that wait for a target, and the height of the target -/
  jumps : List (Nat × Nat)
  /-- the places that are jumped to later, and their heights -/
  labels : List (Nat × Nat)

namespace Outlook

/-- One more jump waits for its target. -/
def await (G : Outlook) (jump : Nat × Nat) : Outlook :=
  { G with jumps := jump :: G.jumps }

/-- One more place is jumped to later. -/
def mark (G : Outlook) (label : Nat × Nat) : Outlook :=
  { G with labels := label :: G.labels }

end Outlook

namespace FunctionHeader

/-- The words that a call of the function takes and leaves. -/
def callShape (t : TypeTable) (h : FunctionHeader) : CallShape :=
  ⟨(if h.receiver.isSome then 1 else 0) + t.totalWords (h.parameters.map Parameter.ty),
    t.words h.returns⟩

/-- Every structure that the types of the function mention is one of the first `n`. -/
def Bounded (n : Nat) (h : FunctionHeader) : Prop :=
  (∀ p ∈ h.parameters, p.ty.Bounded n) ∧ h.returns.Bounded n

/-- The words of the function will not change any more. -/
def Fixed (t : TypeTable) (h : FunctionHeader) : Prop :=
  (∀ p ∈ h.parameters, t.Fixed p.ty) ∧ t.Fixed h.returns

/-- The function is linked with the shape that its types give it. -/
def Linked (L : Linkage) (t : TypeTable) (globals : Nat) (h : FunctionHeader) : Prop :=
  match h.kind with
  | .script k => ∃ g ≤ globals, L.chunks[k.toNat]? = some (some ⟨h.callShape t, g⟩)
  | .external k => L.externals[k.toNat]? = some (h.callShape t)

variable {t t' : TypeTable} {h : FunctionHeader}

theorem callShape_congr {n : Nat} (hlayout : ∀ id < n, t'.layoutAt id = t.layoutAt id)
    (hb : h.Bounded n) : h.callShape t' = h.callShape t := by
  rw [callShape, callShape, TypeTable.words_congr hlayout hb.2,
    TypeTable.totalWords_congr hlayout fun ty hty => ?_]
  obtain ⟨p, hp, rfl⟩ := List.mem_map.mp hty
  exact hb.1 p hp

theorem callShape_of_keeps (hk : t.Keeps t') (hf : h.Fixed t) :
    h.callShape t' = h.callShape t := by
  rw [callShape, callShape, (hf.2.keep hk).2, TypeTable.Fixed.totalWords_keep hk]
  intro ty hty
  obtain ⟨p, hp, rfl⟩ := List.mem_map.mp hty
  exact hf.1 p hp

theorem Bounded.mono {m n : Nat} (hb : h.Bounded m) (hmn : m ≤ n) : h.Bounded n :=
  ⟨fun p hp => (hb.1 p hp).mono hmn, hb.2.mono hmn⟩

theorem Fixed.keep (hk : t.Keeps t') (hf : h.Fixed t) : h.Fixed t' :=
  ⟨fun p hp => ((hf.1 p hp).keep hk).1, (hf.2.keep hk).1⟩

theorem Linked.mono {L L' : Linkage} {globals globals' : Nat} (hl : h.Linked L t globals)
    (hL : L.Le L') (hglobals : globals ≤ globals') (hshape : h.callShape t' = h.callShape t) :
    h.Linked L' t' globals' := by
  rw [Linked] at hl ⊢
  split at hl
  · obtain ⟨g, hg, hchunk⟩ := hl
    exact ⟨g, Nat.le_trans hg hglobals, by rw [hshape]; exact hL.chunk hchunk⟩
  · rw [hshape]
    exact hL.external hl

/-- A function is known: its types are there, and it is linked. -/
structure Known (D : Debts) (L : Linkage) (t : TypeTable) (globals : Nat) (h : FunctionHeader) :
    Prop where
  bounded : h.Bounded t.structures.size
  fixed : D.headers h ∨ h.Fixed t
  linked : h.Linked L t globals

theorem Known.mono {D : Debts} {L L' : Linkage} {globals globals' : Nat}
    (hk : h.Known D L t globals) (hL : L.Le L') (hle : t.Le t') (hglobals : globals ≤ globals') :
    h.Known D L' t' globals' :=
  ⟨hk.bounded.mono hle.size_le, hk.fixed.imp_right fun hf => hf.keep hle.keeps,
    hk.linked.mono hL hglobals (callShape_congr hle.layout hk.bounded)⟩

end FunctionHeader

namespace Builder

/-- The jumps out of the open loops, which wait for the ends of the loops. -/
def waiting (b : Builder) : List (Nat × Nat) :=
  b.loops.flatMap fun l => l.breaks.map fun k => (k, l.scopeWords)

/-- The beginnings of the open loops. -/
def loopLabels (b : Builder) : List (Nat × Nat) :=
  b.loops.map LoopContext.label

end Builder

namespace Stage

/-- The chunk with a number has its code, which has the shape that callers rely on. -/
def Done (L : Linkage) (chunks : Array Chunk) (k : Nat) : Prop :=
  ∃ shape c heights, L.chunks[k]? = some (some shape) ∧ chunks[k]? = some c ∧
    c.Shaped L (some shape) heights

/-- The tables of a stage are in order. -/
structure Sound (D : Debts) (s : Stage) : Prop where
  types : s.types.Sound D.making
  scopes : s.scopes.Sound s.types
  methods : ∀ id, ∀ h ∈ (s.types.at_ id).methods, h.receiver.isSome = true ∧
    h.Known D s.linkage s.types (s.scopes.wordLength 0)
  functions : ∀ e ∈ (s.scopes.get 0).functions, e.2.receiver = none ∧
    e.2.Known D s.linkage s.types (s.scopes.wordLength 0)
  bindings : ∀ b ∈ s.bindings, ∀ e ∈ b, e.2.Bounded s.types.structures.size
  size : s.linkage.chunks.length = s.chunks.size
  entry : s.linkage.chunks[0]? = some none
  done : ∀ k, 0 < k → k < s.chunks.size → D.chunks k ∨ Done s.linkage s.chunks k
  externals : s.linkage.externals.length = s.externals.size
  declared : ∀ i < s.externals.size,
    ∃ e ∈ (s.scopes.get 0).functions, ∃ k, e.2.kind = .external k ∧ k.toNat = i

/-- The chunk under construction has the frame that its shape says. -/
def InFrame (s : Stage) : Option ChunkShape → Prop
  | none => s.nested = [] ∧ s.scopes.isGlobal s.scope = true
  | some shape => s.nested ≠ [] ∧ s.scopes.isGlobal s.scope = false ∧
      shape.globals = s.scopes.wordLength 0 ∧
      s.builder.returns.Bounded s.types.structures.size ∧
      shape.returns = s.types.words s.builder.returns

/-- The code under construction has come to a point where the frame has `height` words. -/
structure At (G : Outlook) (height : Nat) (s : Stage) : Prop where
  scope : s.scope + 1 = s.scopes.scopes.size
  loops : ∀ l ∈ s.builder.loops, l.scopeWords ≤ s.scopeWords
  current : s.linkage.chunks[s.builder.chunk]? = some G.shape
  frame : s.InFrame G.shape
  code : s.builder.code.Open s.linkage G.shape (G.jumps ++ s.builder.waiting)
    (G.labels ++ s.builder.loopLabels) height

/-- The invariant. -/
structure Ready (G : Outlook) (height : Nat) (s : Stage) : Prop where
  sound : s.Sound G.toDebts
  at_ : s.At G height

variable {G : Outlook} {s s' : Stage} {n : Nat}

/-- What a chunk may address at the bottom of the stack includes all global variables. -/
theorem Ready.globals_le (h : s.Ready G n) {m : Nat} (hm : s.scopeWords ≤ m) :
    s.scopes.wordLength 0 ≤ reach G.shape m := by
  have hframe := h.at_.frame
  cases hshape : G.shape with
  | none =>
    rw [hshape] at hframe
    have hlt : s.scope < s.scopes.scopes.size := by
      have := h.at_.scope
      omega
    exact Nat.le_trans (h.sound.scopes.wordLength_root_le hlt hframe.2) hm
  | some shape =>
    rw [hshape] at hframe
    rw [← hframe.2.2.1]
    exact Nat.le_refl _

theorem reach_mono {shape : Option ChunkShape} {m n : Nat} (h : m ≤ n) :
    reach shape m ≤ reach shape n := by
  cases shape with
  | none => exact h
  | some s => exact Nat.le_refl _

end Stage

/-! ### Places and operands -/

/-- A place lies inside the frame or among the global variables.  About addresses that are computed
when the program runs, nothing is known. -/
structure Place.Fits (G : Outlook) (s : Stage) (p : Place) : Prop where
  bounded : p.ty.Bounded s.types.structures.size
  frame : p.storage = .frame → p.offset + s.types.words p.ty ≤ s.scopeWords
  global : p.storage = .global → p.offset + s.types.words p.ty ≤ reach G.shape s.scopeWords

/-- The words that a place has on the stack. -/
def Place.height (p : Place) : Nat :=
  if p.storage = .dynamic then 1 else 0

namespace Operand

/-- The words that an operand has on the stack. -/
def height (t : TypeTable) : Operand → Nat
  | place p => p.height
  | value ty => t.words ty

/-- An operand is a place that fits, or a value of a type that is there. -/
def Fits (G : Outlook) (s : Stage) : Operand → Prop
  | place p => p.Fits G s
  | value ty => ty.Bounded s.types.structures.size

end Operand

namespace Place

variable {G : Outlook} {s s' : Stage}

theorem Fits.le {p : Place} (h : p.Fits G s) (hle : s.Le .value s') : p.Fits G s' := by
  have hwords := hle.types.words_eq h.bounded
  refine ⟨hle.types.bounded h.bounded, ?_, ?_⟩
  · rw [hwords, hle.scopeWords_eq]
    exact h.frame
  · rw [hwords, hle.scopeWords_eq]
    exact h.global

theorem fits_atAddress {ty : Ty} (h : ty.Bounded s.types.structures.size) :
    (atAddress ty).Fits G s :=
  ⟨h, fun hs => (nomatch hs), fun hs => (nomatch hs)⟩

/-- A part of a place fits where the whole does. -/
theorem Fits.part {p : Place} (h : p.Fits G s) {ty : Ty} {offset : Nat}
    (hb : ty.Bounded s.types.structures.size)
    (hin : offset + s.types.words ty ≤ s.types.words p.ty) :
    Fits G s { p with ty, offset := p.offset + offset } := by
  refine ⟨hb, fun hs => ?_, fun hs => ?_⟩
  · have := h.frame hs
    show p.offset + offset + s.types.words ty ≤ _
    omega
  · have := h.global hs
    show p.offset + offset + s.types.words ty ≤ _
    omega

end Place

namespace Operand

variable {G : Outlook} {s s' : Stage}

theorem Fits.bounded {o : Operand} (h : o.Fits G s) : o.ty.Bounded s.types.structures.size := by
  cases o with
  | place p => exact Place.Fits.bounded h
  | value ty => exact h

theorem Fits.le {o : Operand} (h : o.Fits G s) (hle : s.Le .value s') : o.Fits G s' := by
  cases o with
  | place p => exact Place.Fits.le h hle
  | value ty => exact hle.types.bounded h

end Operand

/-! ### Emitting code -/

namespace Stage

variable {D : Debts} {G : Outlook} {s s' : Stage} {m n : Nat} {e : Extent}

theorem Sound.of_eq (h : s.Sound D) (htypes : s'.types = s.types) (hscopes : s'.scopes = s.scopes)
    (hbindings : s'.bindings = s.bindings) (hchunks : s'.chunks = s.chunks)
    (hexternals : s'.externals = s.externals) (hlinkage : s'.linkage = s.linkage) : s'.Sound D := by
  constructor
  · rw [htypes]
    exact h.types
  · rw [htypes, hscopes]
    exact h.scopes
  · rw [htypes, hscopes, hlinkage]
    exact h.methods
  · rw [htypes, hscopes, hlinkage]
    exact h.functions
  · rw [hbindings, htypes]
    exact h.bindings
  · rw [hlinkage, hchunks]
    exact h.size
  · rw [hlinkage]
    exact h.entry
  · rw [hlinkage, hchunks]
    exact h.done
  · rw [hlinkage, hexternals]
    exact h.externals
  · rw [hscopes, hexternals]
    exact h.declared

/-- The tables are in order under any outlook that owes as much. -/
theorem Sound.mono {D' : Debts} (h : s.Sound D) (hmaking : ∀ id, D.making id → D'.making id)
    (hheaders : ∀ f, D.headers f → D'.headers f) (hchunks : ∀ k, D.chunks k → D'.chunks k) :
    s.Sound D' := by
  have hknown : ∀ {f : FunctionHeader}, f.Known D s.linkage s.types (s.scopes.wordLength 0) →
      f.Known D' s.linkage s.types (s.scopes.wordLength 0) :=
    fun hf => ⟨hf.bounded, hf.fixed.imp_left (hheaders _), hf.linked⟩
  refine ⟨⟨h.types.names, h.types.instances, h.types.templates, h.types.fields, fun id hid => ?_,
      h.types.reached⟩,
    h.scopes, fun id f hf => ?_, fun d hd => ?_, h.bindings, h.size, h.entry, fun k hk hlt => ?_,
    h.externals, h.declared⟩
  · exact (h.types.complete id hid).imp_right (hmaking id)
  · exact ⟨(h.methods id f hf).1, hknown (h.methods id f hf).2⟩
  · exact ⟨(h.functions d hd).1, hknown (h.functions d hd).2⟩
  · exact (h.done k hk hlt).imp_left (hchunks k)

/-- The stage with a changed chunk under construction. -/
def mapBuilder (f : Builder → Builder) (s : Stage) : Stage :=
  { s with toCompiler := s.toCompiler.mapBuilder f }

theorem builder_mapBuilder (f : Builder → Builder) (s : Stage) :
    (s.mapBuilder f).builder = f s.builder :=
  s.toCompiler.builder_mapBuilder f

@[simp] theorem types_mapBuilder (f : Builder → Builder) (s : Stage) :
    (s.mapBuilder f).types = s.types :=
  s.toCompiler.types_mapBuilder f

@[simp] theorem scopes_mapBuilder (f : Builder → Builder) (s : Stage) :
    (s.mapBuilder f).scopes = s.scopes :=
  s.toCompiler.scopes_mapBuilder f

theorem sameBelow_mapBuilder (f : Builder → Builder) (s : Stage) :
    s.toCompiler.SameBelow (s.mapBuilder f).toCompiler :=
  .mapBuilder s.toCompiler f

theorem Le.mapBuilder {f : Builder → Builder} (hchunk : (f s.builder).chunk = s.builder.chunk)
    (hscope : (f s.builder).scope = s.builder.scope)
    (hreturns : (f s.builder).returns = s.builder.returns)
    (hloops : e.Loops s.builder.loops (f s.builder).loops)
    (hcode : e.Code s.builder.code (f s.builder).code) : s.Le e (s.mapBuilder f) := by
  refine ⟨.refl _, ?_, ?_, ?_, ?_, ?_, ?_, ?_, sameBelow_mapBuilder f s⟩
  · rw [types_mapBuilder]
    exact .refl _
  · rw [scopes_mapBuilder]
    exact e.scopes_refl _
  · rw [builder_mapBuilder, hchunk]
  · rw [builder_mapBuilder, hscope]
  · rw [builder_mapBuilder, hreturns]
  · rw [builder_mapBuilder]
    exact hloops
  · rw [builder_mapBuilder]
    exact hcode

theorem Sound.mapBuilder (h : s.Sound D) (f : Builder → Builder) : (s.mapBuilder f).Sound D :=
  h.of_eq (types_mapBuilder f s) (scopes_mapBuilder f s)
    (s.toCompiler.bindings_mapBuilder f) (s.toCompiler.chunks_mapBuilder f)
    (s.toCompiler.externals_mapBuilder f) rfl

/-- A change of the chunk under construction that leaves its place in the program alone. -/
theorem At.mapBuilder (h : s.At G n) {f : Builder → Builder}
    (hchunk : (f s.builder).chunk = s.builder.chunk)
    (hscope : (f s.builder).scope = s.builder.scope)
    (hreturns : (f s.builder).returns = s.builder.returns)
    (hloops : ∀ l ∈ (f s.builder).loops, l.scopeWords ≤ s.scopeWords)
    {jumps labels : List (Nat × Nat)}
    (hcode : (f s.builder).code.Open s.linkage G.shape (jumps ++ (f s.builder).waiting)
      (labels ++ (f s.builder).loopLabels) m) :
    (s.mapBuilder f).At { G with jumps, labels } m := by
  have hbuilder := builder_mapBuilder f s
  have hscopes := scopes_mapBuilder f s
  have htypes := types_mapBuilder f s
  have hnil : (s.mapBuilder f).nested = [] ↔ s.nested = [] := (sameBelow_mapBuilder f s).nil_iff
  have hscope' : (s.mapBuilder f).scope = s.scope := by
    rw [Compiler.scope, hbuilder, hscope]
    rfl
  refine ⟨?_, ?_, ?_, ?_, ?_⟩
  · rw [hscope', hscopes]
    exact h.scope
  · rw [hbuilder, Compiler.scopeWords, hscope', hscopes]
    exact hloops
  · rw [hbuilder, hchunk]
    exact h.current
  · have hframe := h.frame
    cases hshape : G.shape with
    | none =>
      rw [hshape] at hframe
      rw [InFrame, hnil, hscopes, hscope']
      exact hframe
    | some shape =>
      rw [hshape] at hframe
      rw [InFrame, ne_eq, hnil, hscopes, hscope', htypes, hbuilder, hreturns]
      exact hframe
  · rw [hbuilder]
    exact hcode

theorem moves_mapBuilder {f : Builder → Builder} {Q : Unit → Stage → Prop}
    (hle : s.Le e (s.mapBuilder f)) (h : Q () (s.mapBuilder f)) :
    Moves e s (modify (Compiler.mapBuilder f)) Q :=
  .modify (fun r => ⟨r, s.toCompiler.mapBuilder_on f r⟩) hle h

/-- Emits an instruction that does not jump, after which control goes on. -/
theorem Ready.emit (h : s.Ready G n) {i : Instruction} (op : Opcode) (hop : i.opcode? = some op)
    (hpops : i.pops op ≤ n) (hadmits : i.Admits s.linkage G.shape s.builder.code.constants n op)
    (hstraight : op.isStraight = true) (hheight : m = n - i.pops op + i.pushes s.linkage op) :
    Moves e s (CompileM.emit i) fun _ s' => s'.Ready G m := by
  have hcode := e.code_of_adds (s.builder.code.adds_push hop hstraight)
  refine moves_mapBuilder (.mapBuilder rfl rfl rfl (e.loops_refl _) hcode) ⟨h.sound.mapBuilder _, ?_⟩
  refine h.at_.mapBuilder rfl rfl rfl h.at_.loops ?_
  refine h.at_.code.push hop hpops hadmits (fun _ => hheight) (fun _ hj => hj) (fun _ hj => .inl hj)
    fun hjumps => ?_
  rw [Opcode.isStraight, hjumps, Bool.not_true, Bool.and_false] at hstraight
  cases hstraight

/-- Emits an instruction after which control does not go on; what comes next may have any height. -/
theorem Ready.emit_stop (h : s.Ready G n) {i : Instruction} (op : Opcode) (hop : i.opcode? = some op)
    (hpops : i.pops op ≤ n) (hadmits : i.Admits s.linkage G.shape s.builder.code.constants n op)
    (hjumps : op.jumps = false) (hfalls : op.fallsThrough = false) (m : Nat) :
    Moves .control s (CompileM.emit i) fun _ s' => s'.Ready G m := by
  refine moves_mapBuilder (.mapBuilder rfl rfl rfl rfl trivial) ⟨h.sound.mapBuilder _, ?_⟩
  refine h.at_.mapBuilder rfl rfl rfl h.at_.loops ?_
  refine h.at_.code.push hop hpops hadmits (fun hop => ?_) (fun _ hj => hj) (fun _ hj => .inl hj)
    fun hop => ?_
  · rw [hfalls] at hop
    cases hop
  · rw [hjumps] at hop
    cases hop

theorem Ready.emitPop (h : s.Ready G n) {words : Nat} (hwords : words ≤ n) (token : Token) :
    Moves e s (CompileM.emitPop words token) fun _ s' => s'.Ready G (n - words) := by
  rw [CompileM.emitPop]
  split
  · refine Moves.read (.short _ _ _) fun count hcount => ?_
    refine h.emit .pop (by simp) ?_ trivial rfl ?_
    · simp only [Instruction.pops, Instruction.short_ofByteShort]
      omega
    · simp only [Instruction.pops, Instruction.pushes, Instruction.short_ofByteShort]
      omega
  · refine .pure ?_
    rw [show n - words = n by omega]
    exact h

/-! ### Jumps -/

/-- The place of the next instruction. -/
theorem reads_here {c : Compiler} :
    Reads c CompileM.here fun k => k = c.builder.code.code.size :=
  (Reads.ask _).mono fun _ ⟨_, hr⟩ => hr

/-- The next instruction may be jumped to later. -/
theorem Ready.label (h : s.Ready G n) :
    s.Ready (G.mark (s.builder.code.code.size, n)) n :=
  ⟨h.sound, h.at_.scope, h.at_.loops, h.at_.current, h.at_.frame, h.at_.code.label⟩

/-- A label may be forgotten. -/
theorem Ready.forget {l : Nat × Nat} (h : s.Ready (G.mark l) n) : s.Ready G n :=
  ⟨h.sound, h.at_.scope, h.at_.loops, h.at_.current, h.at_.frame,
    h.at_.code.congr (fun _ => Iff.rfl) fun _ hl => List.mem_cons_of_mem l hl⟩

/-- The order in which jumps wait does not matter. -/
theorem Ready.swap {j k : Nat × Nat} (h : s.Ready ((G.await j).await k) n) :
    s.Ready ((G.await k).await j) n :=
  ⟨h.sound, h.at_.scope, h.at_.loops, h.at_.current, h.at_.frame,
    h.at_.code.congr (fun _ => (List.Perm.swap j k _).mem_iff) fun _ hl => hl⟩

/-- A jump whose target is not known yet. -/
theorem Ready.emitJump (h : s.Ready G n) {op : Opcode} (hjumps : op.jumps = true)
    (hpops : (Instruction.ofSigned op 0).pops op ≤ n)
    (hnext : op.fallsThrough = true → m = n - (Instruction.ofSigned op 0).pops op) :
    Moves .control s (CompileM.emitJump op) fun k s' =>
      s'.Ready (G.await (k, n - (Instruction.ofSigned op 0).pops op)) m := by
  refine Moves.read reads_here fun k hk => ?_
  have hopcode : (Instruction.ofSigned op 0).opcode? = some op := Instruction.opcode?_ofSigned op 0
  generalize Instruction.ofSigned op 0 = i at hpops hnext hopcode ⊢
  refine Moves.bind ?_ fun _ s' _ hs' => .pure hs'
  refine moves_mapBuilder (.mapBuilder rfl rfl rfl rfl trivial) ⟨h.sound.mapBuilder _, ?_⟩
  refine h.at_.mapBuilder rfl rfl rfl h.at_.loops ?_
  refine h.at_.code.push hopcode hpops ?_ (fun hop => ?_) (fun j hj => List.mem_cons_of_mem _ hj)
    (fun j hj => ?_) fun _ => .inr ?_
  · cases op <;> trivial
  · rw [hnext hop]
    cases op <;> first | rfl | cases hjumps
  · rw [hk] at hj
    cases hj with
    | head => exact .inr ⟨hjumps, rfl⟩
    | tail _ hj => exact .inl hj
  · rw [hk]
    exact List.mem_cons_self

/-- A jump lands where the code goes on. -/
theorem Ready.patchJump {k : Nat} (h : s.Ready (G.await (k, n)) n)
    (token : Token) : Moves .control s (CompileM.patchJump k token) fun _ s' => s'.Ready G n := by
  refine Moves.read reads_here fun here hhere => ?_
  refine Moves.read (.displacement _ _ _) fun d ⟨lo, up, hd⟩ => ?_
  refine moves_mapBuilder (.mapBuilder rfl rfl rfl rfl trivial) ⟨h.sound.mapBuilder _, ?_⟩
  refine h.at_.mapBuilder rfl rfl rfl h.at_.loops (h.at_.code.patch lo up ?_)
  rw [hd, hhere]

/-- A jump back to a label. -/
theorem Ready.emitLoop (h : s.Ready G n) {start : Nat}
    (hlabel : (start, n) ∈ G.labels ++ s.builder.loopLabels) (token : Token) (m : Nat) :
    Moves .control s (CompileM.emitLoop start token) fun _ s' => s'.Ready G m := by
  refine Moves.read reads_here fun here hhere => ?_
  refine Moves.read (.displacement _ _ _) fun d ⟨lo, up, hd⟩ => ?_
  refine moves_mapBuilder (.mapBuilder rfl rfl rfl rfl trivial) ⟨h.sound.mapBuilder _, ?_⟩
  refine h.at_.mapBuilder rfl rfl rfl h.at_.loops ?_
  refine h.at_.code.push (Instruction.opcode?_ofSigned .jump d) (Nat.zero_le _) trivial
    (fun hop => nomatch hop) (fun _ hj => hj) (fun _ hj => .inl hj) fun _ => .inl ⟨start, ?_, hlabel⟩
  rw [Instruction.target, Instruction.signedShort_ofSigned _ lo up, ← hhere, hd]

/-! ### Constants -/

theorem Ready.pushConstants (h : s.Ready G n) (ws : Array Word) :
    (s.mapBuilder fun b => b.pushConstants ws).Ready G n :=
  ⟨h.sound.mapBuilder _, h.at_.mapBuilder rfl rfl rfl h.at_.loops (h.at_.code.pushConstants ws)⟩

theorem Le.pushConstants (e : Extent) (s : Stage) (ws : Array Word) :
    s.Le e (s.mapBuilder fun b => b.pushConstants ws) :=
  .mapBuilder rfl rfl rfl (e.loops_refl _) (e.code_of_adds (s.builder.code.adds_constants ws))

/-- A constant has a place in the pool. -/
theorem Ready.addConstant (h : s.Ready G n) (w : Word) (token : Token) :
    Moves e s (CompileM.addConstant w token) fun k s' =>
      s'.Ready G n ∧ k.toNat < s'.builder.code.constants.size := by
  refine Moves.ask (a := s.builder.code.constants.findIdx? (· == w)) (fun _ => rfl) ?_
  cases hfound : s.builder.code.constants.findIdx? (· == w) with
  | some index =>
    have hlt : index < s.builder.code.constants.size := by
      obtain ⟨hlt, -⟩ := Array.findIdx?_eq_some_iff_getElem.mp hfound
      exact hlt
    refine .of_reads (.short _ _ _) fun k hk => ⟨h, ?_⟩
    rwa [hk]
  | none =>
    refine Moves.ask (a := s.builder.code.constants.size) (fun _ => rfl) ?_
    refine Moves.bind (moves_mapBuilder (Q := fun _ s' => s' = _) (.pushConstants e s #[w]) rfl)
      fun _ s' _ hs' => ?_
    refine .of_reads (.short _ _ _) fun k hk => ?_
    rw [hs', builder_mapBuilder, hk]
    refine ⟨h.pushConstants #[w], ?_⟩
    show _ < (s.builder.code.constants ++ #[w]).size
    rw [Array.size_append]
    exact Nat.lt_succ_self _

/-- A string has a place in the pool, with all of its payload. -/
theorem Ready.addString (h : s.Ready G n) (text : String) (token : Token) :
    Moves e s (CompileM.addString text token) fun k s' =>
      s'.Ready G n ∧ ∃ payload, s'.builder.code.constants[k.toNat]? = some payload ∧
        k.toNat + (1 + payload.toNat) ≤ s'.builder.code.constants.size := by
  refine Moves.ask (a := s.builder.code.constants.size) (fun _ => rfl) ?_
  refine Moves.bind
    (moves_mapBuilder (Q := fun _ s' => s' = _) (.pushConstants e s (StringBlock.encode text)) rfl)
    fun _ s' _ hs' => ?_
  refine .of_reads (.short _ _ _) fun k hk => ?_
  rw [hs', builder_mapBuilder, hk]
  refine ⟨h.pushConstants _, (StringBlock.payload text).size.toUInt32, ?_, ?_⟩
  · show (s.builder.code.constants ++ StringBlock.encode text)[_]? = _
    rw [Array.getElem?_append_right (Nat.le_refl _), Nat.sub_self, StringBlock.encode,
      Array.getElem?_append_left (Nat.zero_lt_one)]
    rfl
  · show _ ≤ (s.builder.code.constants ++ StringBlock.encode text).size
    rw [Array.size_append, StringBlock.encode, Array.size_append]
    have hle : (StringBlock.payload text).size.toUInt32.toNat ≤ (StringBlock.payload text).size :=
      Nat.mod_le _ _
    show _ + (1 + _) ≤ _ + (1 + _)
    omega

theorem Ready.emitConstant (h : s.Ready G n) (w : Word) (token : Token) :
    Moves e s (CompileM.emitConstant w token) fun _ s' => s'.Ready G (n + 1) := by
  refine Moves.bind (h.addConstant w token) fun k s' _ ⟨hs', hk⟩ => ?_
  refine hs'.emit .loadConstant (by simp) (Nat.zero_le _) ?_ rfl rfl
  show Nat.lt _ _
  rw [Instruction.short_ofByteShort]
  exact hk

theorem Ready.emitInteger (h : s.Ready G n) (value : Int) (token : Token) :
    Moves e s (CompileM.emitInteger value token) fun _ s' => s'.Ready G (n + 1) := by
  rw [CompileM.emitInteger]
  split
  · exact h.emit .pushImmediate (by simp) (Nat.zero_le _) trivial rfl rfl
  · exact h.emitConstant _ token

end Stage

end WordScript
