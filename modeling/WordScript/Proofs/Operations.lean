/-
Operands keep the discipline of the stack.

Each function that emits code for a place or an operand is given one statement: from
a point where the operand lies on top of a frame of `n` words, what it leaves there.

* `Productions.Disciplined` — what the productions that recur have to keep;
* `Stage.Ready.load`, `store`, `addressOf`, `select` and so on — code for places;
* `Stage.Ready.access_member`, `access_index` — accessors;
* `Stage.Ready.call_read` — calls.

Design notes: an expression begins above all variables of the frame, which is the
hypothesis `s.scopeWords ≤ n` everywhere below.  It makes every place that fits lie
below the operands.
-/
import WordScript.Proofs.Discipline

namespace WordScript

namespace Stage

variable {G : Outlook} {s s' : Stage} {n : Nat} {e : Extent} {o : Operand} {ty : Ty}

/-- An operand lies on top of a frame of `n` words, which holds all variables. -/
structure Holds (G : Outlook) (n : Nat) (s : Stage) (o : Operand) : Prop where
  fits : o.Fits G s
  ready : s.Ready G (n + o.height s.types)
  base : s.scopeWords ≤ n

/-- The operand is the last thing that has been done. -/
theorem Ready.holds (h : s'.Ready G (n + s'.types.words ty)) (hle : s.Le .value s')
    (hb : ty.Bounded s'.types.structures.size) (hn : s.scopeWords ≤ n) :
    s'.Holds G n (.value ty) :=
  ⟨hb, h, by rw [hle.scopeWords_eq]; exact hn⟩

/-! ### Places -/

/-- A place on the stack is read. -/
theorem Ready.loadPlace {p : Place} (h : s.Ready G (n + p.height)) (hn : s.scopeWords ≤ n)
    (hp : p.Fits G s) (token : Token) :
    Moves e s (CompileM.load (.place p) token) fun ty s' =>
      ty = p.ty ∧ s'.Ready G (n + s.types.words ty) := by
  obtain ⟨ty, storage, offset⟩ := p
  refine Moves.read (.wordsOf _ _) fun w hw => ?_
  refine Moves.read (.byte _ _ _) fun b hb => ?_
  refine Moves.read (.short _ _ _) fun k hk => ?_
  have hwords : s.types.words ty = b.toNat := (TypeTable.words_of_wordLength hw).trans hb.symm
  have hk : k.toNat = offset := hk
  have hframe := hp.frame
  have hglobal := hp.global
  simp only [hwords] at hframe hglobal
  refine Moves.bind (Q := fun _ s' => s'.Ready G (n + s.types.words ty)) ?_
    fun _ s' _ hs' => .pure ⟨rfl, hs'⟩
  rw [hwords]
  cases storage with
  | frame =>
    have := hframe rfl
    refine h.emit .loadVariable (by simp) (Nat.zero_le _) ?_ rfl rfl
    simp only [Instruction.Admits, Instruction.short_ofByteShort, Instruction.a_ofByteShort]
    show _ ≤ n + 0
    omega
  | global =>
    have := Nat.le_trans (hglobal rfl) (reach_mono hn)
    refine h.emit .loadGlobal (by simp) (Nat.zero_le _) ?_ rfl rfl
    simp only [Instruction.Admits, Instruction.short_ofByteShort, Instruction.a_ofByteShort]
    show _ ≤ reach G.shape (n + 0)
    rw [Nat.add_zero]
    omega
  | dynamic =>
    refine h.emit .loadIndirect (by simp) ?_ trivial rfl ?_
    · exact Nat.le_add_left 1 n
    · show n + b.toNat = n + 1 - 1 + b.toNat
      omega

/-- The value of an operand, in place of what the operand had on the stack. -/
theorem Holds.load (h : s.Holds G n o) (token : Token) :
    Moves .value s (CompileM.load o token) fun ty s' => ty = o.ty ∧ s'.Holds G n (.value ty) := by
  cases o with
  | value ty => exact .pure ⟨rfl, h⟩
  | place p =>
    refine (h.ready.loadPlace h.base h.fits token).mono fun ty s' hle ⟨hty, hs'⟩ => ?_
    have hb : ty.Bounded s.types.structures.size := hty ▸ h.fits.bounded
    rw [← hle.types.words_eq hb] at hs'
    exact ⟨hty, hs'.holds hle (hle.types.bounded hb) h.base⟩

/-- A value on top of a place goes into the place. -/
theorem Ready.store {p : Place} (h : s.Ready G (n + p.height + s.types.words p.ty))
    (hn : s.scopeWords ≤ n) (hp : p.Fits G s) (token : Token) :
    Moves e s (CompileM.store p token) fun _ s' => s'.Ready G n := by
  obtain ⟨ty, storage, offset⟩ := p
  refine Moves.read (.wordsOf _ _) fun w hw => ?_
  refine Moves.read (.byte _ _ _) fun b hb => ?_
  refine Moves.read (.short _ _ _) fun k hk => ?_
  have hwords : s.types.words ty = b.toNat := (TypeTable.words_of_wordLength hw).trans hb.symm
  have hk : k.toNat = offset := hk
  have hframe := hp.frame
  have hglobal := hp.global
  simp only [hwords] at h hframe hglobal
  -- the three kinds of place differ in what lies below the value: nothing, or the address
  cases storage with
  | frame =>
    have := hframe rfl
    refine h.emit .storeVariable (by simp) ?_ ?_ rfl ?_
    · exact Nat.le_add_left _ _
    · simp only [Instruction.Admits, Instruction.short_ofByteShort, Instruction.a_ofByteShort]
      show _ ≤ n + 0 + b.toNat - b.toNat
      omega
    · show n = n + 0 + b.toNat - b.toNat + 0
      omega
  | global =>
    have := Nat.le_trans (hglobal rfl) (reach_mono hn)
    refine h.emit .storeGlobal (by simp) ?_ ?_ rfl ?_
    · exact Nat.le_add_left _ _
    · simp only [Instruction.Admits, Instruction.short_ofByteShort, Instruction.a_ofByteShort]
      show _ ≤ reach G.shape (n + 0 + b.toNat - b.toNat)
      rw [Nat.add_zero, Nat.add_sub_cancel]
      omega
    · show n = n + 0 + b.toNat - b.toNat + 0
      omega
  | dynamic =>
    refine h.emit .storeIndirect (by simp) ?_ trivial rfl ?_
    · show b.toNat + 1 ≤ n + 1 + b.toNat
      omega
    · show n = n + 1 + b.toNat - (b.toNat + 1) + 0
      omega

/-- The address of a place, in place of what the place had on the stack. -/
theorem Ready.addressOf {p : Place} (h : s.Ready G (n + p.height)) (token : Token) :
    Moves e s (CompileM.addressOf p token) fun _ s' => s'.Ready G (n + 1) := by
  obtain ⟨ty, storage, offset⟩ := p
  refine Moves.read (.short _ _ _) fun k _ => ?_
  cases storage with
  | frame => exact h.emit .addressOf (by simp) (Nat.zero_le _) trivial rfl rfl
  | global => exact h.emit .addressOf (by simp) (Nat.zero_le _) trivial rfl rfl
  | dynamic =>
    show Moves e s (if 0 < k then _ else _) _
    split
    · refine h.emit .offsetAddress (by simp) ?_ trivial rfl ?_
      · exact Nat.le_add_left 1 n
      · show n + 1 = n + 1 - 1 + 1
        omega
    · exact .pure h

/-- Nothing of an operand stays on the stack. -/
theorem Ready.discard {o : Operand} (h : s.Ready G (n + o.height s.types)) (token : Token) :
    Moves e s (CompileM.discard o token) fun _ s' => s'.Ready G n := by
  cases o with
  | place p =>
    obtain ⟨ty, storage, offset⟩ := p
    rw [CompileM.discard]
    cases storage with
    | frame => exact .pure h
    | global => exact .pure h
    | dynamic => exact h.emitPop (Nat.le_add_left 1 n) token
  | value ty =>
    refine Moves.read (.wordsOf _ _) fun w hw => ?_
    have hwords : s.types.words ty = w := TypeTable.words_of_wordLength hw
    have h : s.Ready G (n + s.types.words ty) := h
    rw [hwords] at h
    have hpop := h.emitPop (Nat.le_add_left w n) token (e := e)
    rwa [Nat.add_sub_cancel] at hpop

/-- A pointer is followed. -/
theorem Holds.deref (h : s.Holds G n o) (token : Token) :
    Moves .value s (CompileM.deref o token) fun o' s' => s'.Holds G n o' := by
  rw [CompileM.deref]
  split
  · rename_i inner hty
    refine Moves.bind (h.load token) fun ty s' hle ⟨hty', hs'⟩ => .pure ?_
    rw [hty'] at hs'
    rw [hty] at hs'
    exact ⟨Place.fits_atAddress hs'.fits, hs'.ready, hs'.base⟩
  · exact .pure h

/-- A part of an operand takes the place of the whole. -/
theorem Holds.select (h : s.Holds G n o) {offset : Nat} (hb : ty.Bounded s.types.structures.size)
    (hin : offset + s.types.words ty ≤ s.types.words o.ty) (token : Token) :
    Moves .value s (CompileM.select o offset ty token) fun o' s' => s'.Holds G n o' := by
  cases o with
  | place p => exact .pure ⟨Place.Fits.part h.fits hb hin, h.ready, h.base⟩
  | value whole =>
    refine Moves.read (.wordsOf _ _) fun total htotal => ?_
    refine Moves.read (.byte _ _ _) fun a ha => ?_
    refine Moves.read (.wordsOf _ _) fun words hwords => ?_
    refine Moves.read (.byte _ _ _) fun c hc => ?_
    refine Moves.read (.byte _ _ _) fun b hb' => ?_
    have htotal : s.types.words whole = total := TypeTable.words_of_wordLength htotal
    have hwords : s.types.words ty = words := TypeTable.words_of_wordLength hwords
    have hin : offset + s.types.words ty ≤ s.types.words whole := hin
    have hready : s.Ready G (n + s.types.words whole) := h.ready
    refine Moves.bind (Q := fun _ s' => s'.Ready G (n + s.types.words ty)) ?_
      fun _ s' hle hs' => .pure ?_
    · refine hready.emit .select (by simp) ?_ ?_ rfl ?_
      · show a.toNat ≤ _
        omega
      · show b.toNat + c.toNat ≤ a.toNat
        omega
      · show _ = n + s.types.words whole - a.toNat + c.toNat
        omega
    · rw [← hle.types.words_eq hb] at hs'
      exact hs'.holds hle (hle.types.bounded hb) h.base

/-- A variable of the frame or of the global frame is a place. -/
theorem Ready.holds_variable (h : s.Ready G n) (hn : s.scopeWords ≤ n) {v : Variable}
    (hv : ScopeTree.Sound.VariableFits s.types s.scopes s.scope v) :
    s.Holds G n (.place (.ofVariable v)) := by
  have hfits : (Place.ofVariable v).Fits G s := by
    refine ⟨hv.bounded, fun hs => ?_, fun hs => ?_⟩
    · cases hglobal : v.global with
      | false => exact (hv.frame hglobal).2
      | true => simp [Place.ofVariable, hglobal] at hs
    · cases hglobal : v.global with
      | false => simp [Place.ofVariable, hglobal] at hs
      | true =>
        have hin := hv.global hglobal
        have hframe := h.at_.frame
        cases hshape : G.shape with
        -- at the top level the global frame is the frame itself
        | none =>
          rw [hshape] at hframe
          rw [hframe.2] at hin
          exact hin
        | some shape =>
          rw [hshape] at hframe
          rw [hframe.2.1, ← hframe.2.2.1] at hin
          exact hin
  have hheight : (Place.ofVariable v).height = 0 := by
    cases hglobal : v.global <;> simp [Place.height, Place.ofVariable, hglobal]
  refine ⟨hfits, ?_, hn⟩
  show s.Ready G (n + (Place.ofVariable v).height)
  rw [hheight]
  exact h

/-- What a variable stands for. -/
theorem Ready.variableOperand (h : s.Ready G n) (hn : s.scopeWords ≤ n) {v : Variable}
    (hv : ScopeTree.Sound.VariableFits s.types s.scopes s.scope v) (token : Token) :
    Moves .value s (CompileM.variableOperand v token) fun o s' => s'.Holds G n o := by
  have hholds := h.holds_variable hn hv
  rw [CompileM.variableOperand]
  split
  · rename_i inner hty
    refine Moves.bind (hholds.load token) fun ty s' _ ⟨hty', hs'⟩ => .pure ?_
    have hty' : ty = .reference inner := hty'.trans hty
    rw [hty'] at hs'
    exact ⟨Place.fits_atAddress hs'.fits, hs'.ready, hs'.base⟩
  · exact .pure hholds

/-- Between statements the stack holds the variables of the open scopes.  Outside of functions no
structure waits for its layout then. -/
structure Rests (G : Outlook) (s : Stage) : Prop where
  ready : s.Ready G s.scopeWords
  calm : s.nested = [] → ∀ id, ¬G.making id

theorem Rests.le {G' : Outlook} (h : s.Rests G) (hle : s.Le e s') (hmaking : G'.making = G.making)
    (hwords : s'.scopeWords = n) (hs' : s'.Ready G' n) : s'.Rests G' := by
  refine ⟨by rwa [hwords], fun hnil id => ?_⟩
  rw [hmaking]
  exact h.calm (hle.below.nil_iff.mp hnil) id

end Stage

/-- The productions that recur keep the discipline: an expression leaves its value, an operand what it
has on the stack, and a statement the variables that it declares. -/
structure Productions.Disciplined (g : Productions) : Prop where
  expression : ∀ {G : Outlook} {s : Stage} {n : Nat} (min : Precedence), s.Ready G n →
    s.scopeWords ≤ n → Moves .value s (g.expression min) fun ty s' => s'.Holds G n (.value ty)
  operand : ∀ {G : Outlook} {s : Stage} {n : Nat}, s.Ready G n → s.scopeWords ≤ n →
    Moves .value s g.operand fun o s' => s'.Holds G n o
  statement : ∀ {G : Outlook} {s : Stage} (depth : Nat), s.Rests G →
    Moves .statement s (g.statement depth) fun _ s' => s'.Rests G
  typeExpr : ∀ {G : Outlook} {s : Stage} {n : Nat} (indirection : Bool), s.Ready G n →
    Moves .value s (g.typeExpr indirection) fun ty s' =>
      ty.Bounded s'.types.structures.size ∧ s'.Ready G n
  instantiate : ∀ {G : Outlook} {s : Stage} {n : Nat} (template : Nat) (arguments : List Ty)
    (token : Token), s.Ready G n → (∀ a ∈ arguments, a.Bounded s.types.structures.size) →
    Moves .value s (g.instantiate template arguments token) fun id s' =>
      id < s'.types.structures.size ∧ s'.Ready G n

namespace Stage

variable {G : Outlook} {s s' : Stage} {n : Nat} {o : Operand} {g : Productions}

/-! ### Calls -/

/-- One argument.  Where there is a parameter for it, it has the words of the parameter. -/
theorem Ready.argument (hg : g.Disciplined) (h : s.Ready G n) (hn : s.scopeWords ≤ n)
    (parameter : Option Parameter) :
    Moves .value s (Call.argument g parameter) fun w s' => ∃ m, n ≤ m ∧ s'.Ready G m ∧
      ∀ p, parameter = some p → m = n + w ∧ w = s'.types.words p.ty := by
  refine Moves.read .current fun token _ => ?_
  split
  · rename_i name inner
    refine Moves.bind (hg.operand h hn) fun o s' _ ho => ?_
    refine Moves.read (.placeOf _ _ _) fun p hp => ?_
    subst hp
    refine Moves.read (.expectType _ _ _) fun _ _ => ?_
    refine Moves.bind (ho.ready.addressOf token) fun _ s'' _ hs'' => .pure ?_
    refine ⟨n + 1, Nat.le_succ n, hs'', fun q hq => ?_⟩
    cases hq
    exact ⟨rfl, rfl⟩
  · rename_i name expected _
    refine Moves.bind (hg.expression .or h hn) fun ty s' _ hs' => ?_
    refine Moves.read (.expectType _ _ _) fun _ hty => ?_
    refine .of_reads (.wordsOf _ _) fun w hw => ?_
    have hw := TypeTable.words_of_wordLength hw
    refine ⟨n + s'.types.words ty, Nat.le_add_right _ _, hs'.ready, fun q hq => ?_⟩
    cases hq
    rw [hty, hw]
    exact ⟨rfl, rfl⟩
  · refine Moves.bind (hg.expression .or h hn) fun ty s' _ hs' => .pure ?_
    exact ⟨n + s'.types.words ty, Nat.le_add_right _ _, hs'.ready, fun q hq => nomatch hq⟩

/-- The words of the first parameters of a function. -/
def argumentWords (t : TypeTable) (parameters : List Parameter) (found : Nat) : Nat :=
  t.totalWords ((parameters.take found).map Parameter.ty)

theorem argumentWords_succ (t : TypeTable) {parameters : List Parameter} {found : Nat}
    {p : Parameter} (h : parameters[found]? = some p) :
    argumentWords t parameters (found + 1) = argumentWords t parameters found + t.words p.ty := by
  rw [argumentWords, argumentWords, List.take_add_one, h, TypeTable.totalWords, TypeTable.totalWords]
  simp

theorem argumentWords_of_le {t t' : TypeTable} (hle : t.Le t') {parameters : List Parameter}
    (hb : ∀ p ∈ parameters, p.ty.Bounded t.structures.size) (found : Nat) :
    argumentWords t' parameters found = argumentWords t parameters found := by
  refine hle.totalWords_eq fun ty hty => ?_
  obtain ⟨p, hp, rfl⟩ := List.mem_map.mp hty
  exact hb p (List.mem_of_mem_take hp)

/-- How far the arguments of a call have been read.  Once there are too many of them, the height is
not known any more; such a call is refused in the end. -/
def Passing (G : Outlook) (n receiverWords : Nat) (parameters : List Parameter) (s : Stage)
    (found words : Nat) : Prop :=
  ∃ m, n ≤ m ∧ s.Ready G m ∧ (found ≤ parameters.length →
    m = n + words ∧ words = receiverWords + argumentWords s.types parameters found)

theorem Passing.argument (hg : g.Disciplined) {receiverWords found words : Nat}
    {parameters : List Parameter} (hb : ∀ p ∈ parameters, p.ty.Bounded s.types.structures.size)
    (h : s.Passing G n receiverWords parameters found words) (hn : s.scopeWords ≤ n) :
    Moves .value s (Call.argument g parameters[found]?) fun added s' =>
      s'.Passing G n receiverWords parameters (found + 1) (words + added) := by
  obtain ⟨m, hm, hready, hwords⟩ := h
  refine (hready.argument hg (Nat.le_trans hn hm) _).mono fun added s' hle ⟨m', hm', hs', hadded⟩ => ?_
  refine ⟨m', Nat.le_trans hm hm', hs', fun hfound => ?_⟩
  have hlt : found < parameters.length := hfound
  obtain ⟨hheight, hword⟩ := hadded _ (List.getElem?_eq_getElem hlt)
  obtain ⟨hheight₀, hwords₀⟩ := hwords (Nat.le_of_lt hlt)
  rw [argumentWords_succ _ (List.getElem?_eq_getElem hlt), argumentWords_of_le hle.types hb]
  omega

theorem Passing.arguments (hg : g.Disciplined) {receiverWords : Nat} {parameters : List Parameter} :
    ∀ (budget : Nat) {s : Stage} {found words : Nat},
      (∀ p ∈ parameters, p.ty.Bounded s.types.structures.size) →
      s.Passing G n receiverWords parameters found words → s.scopeWords ≤ n →
      Moves .value s (Call.arguments g parameters budget found words) fun r s' =>
        s'.Passing G n receiverWords parameters r.1 r.2 := by
  intro budget
  induction budget with
  | zero => exact fun _ _ _ => Fails.failFuel.moves
  | succ budget ih =>
    intro s found words hb h hn
    refine Moves.bind (h.argument hg hb hn) fun added s' hle hs' => ?_
    refine Moves.read (.matchKind _) fun more _ => ?_
    split
    · refine ih (fun p hp => hle.types.bounded (hb p hp)) hs' ?_
      rw [hle.scopeWords_eq]
      exact hn
    · exact .pure hs'

/-- The instruction of a call, once its arguments lie on the stack. -/
theorem Ready.emitCall {header : FunctionHeader} {words : UInt8} (h : s.Ready G (n + words.toNat))
    (hn : s.scopeWords ≤ n)
    (hlinked : header.Linked s.linkage s.types (s.scopes.wordLength 0))
    (hwords : words.toNat = (header.callShape s.types).parameters) :
    Moves .value s
      (match header.kind with
      | .script chunk => CompileM.emit (.ofByteShort .call words chunk)
      | .external index => CompileM.emit (.ofByteShort .callExternal words index))
      fun _ s' => s'.Ready G (n + s.types.words header.returns) := by
  rw [FunctionHeader.Linked] at hlinked
  -- a chunk is known by the linkage of chunks, a host function by that of externals
  cases hkind : header.kind with
  | script chunk =>
    rw [hkind] at hlinked
    obtain ⟨globals, hglobals, hchunk⟩ := hlinked
    refine h.emit .call (by simp) ?_ ?_ rfl ?_
    · simp only [Instruction.pops, Instruction.a_ofByteShort]
      exact Nat.le_add_left _ _
    · refine ⟨⟨header.callShape s.types, globals⟩, ?_, ?_, ?_⟩
      · rw [Instruction.short_ofByteShort]
        exact hchunk
      · exact hwords
      · rw [Instruction.a_ofByteShort, Nat.add_sub_cancel]
        exact Nat.le_trans hglobals (h.globals_le hn)
    · simp only [Instruction.pops, Instruction.pushes, Instruction.a_ofByteShort,
        Instruction.short_ofByteShort, hchunk, Nat.add_sub_cancel, FunctionHeader.callShape]
  | external index =>
    rw [hkind] at hlinked
    have hlinked : s.linkage.externals[index.toNat]? = some (header.callShape s.types) := hlinked
    refine h.emit .callExternal (by simp) ?_ ?_ rfl ?_
    · simp only [Instruction.pops, Instruction.a_ofByteShort]
      exact Nat.le_add_left _ _
    · refine ⟨header.callShape s.types, ?_, hwords⟩
      rw [Instruction.short_ofByteShort]
      exact hlinked
    · simp only [Instruction.pops, Instruction.pushes, Instruction.a_ofByteShort,
        Instruction.short_ofByteShort, hlinked, Nat.add_sub_cancel, FunctionHeader.callShape]

/-- A call takes its arguments, after the address of its receiver, and leaves its result. -/
theorem Ready.call (hg : g.Disciplined) {header : FunctionHeader} (receiver : Option Place)
    (h : s.Ready G (n + (receiver.map Place.height).getD 0)) (hn : s.scopeWords ≤ n)
    (hknown : header.Known G.toDebts s.linkage s.types (s.scopes.wordLength 0))
    (hreceiver : header.receiver.isSome = receiver.isSome) (token : Token) :
    Moves .value s (Call.read g header receiver token) fun ty s' => s'.Holds G n (.value ty) := by
  refine Moves.read (.consume _ _) fun _ _ => ?_
  extract_lets finish withArguments withReceiver
  -- the receiver, the arguments and the call, each behind any stage that the one before may leave
  have hwith : ∀ (receiverWords : Nat) (s₁ : Stage), s.Le .value s₁ →
      receiverWords = (if header.receiver.isSome then 1 else 0) → s₁.Ready G (n + receiverWords) →
      Moves .value s₁ (withReceiver receiverWords) fun ty s' => s'.Holds G n (.value ty) := by
    intro receiverWords s₁ hle₁ hwords₁ hs₁
    have hn₁ : s₁.scopeWords ≤ n := by rwa [hle₁.scopeWords_eq]
    refine Moves.read (.check _) fun closed _ => ?_
    have hargs : ∀ (r : Nat × Nat) (s₂ : Stage), s.Le .value s₂ →
        s₂.Passing G n receiverWords header.parameters r.1 r.2 →
        Moves .value s₂ (withArguments r) fun ty s' => s'.Holds G n (.value ty) := by
      rintro ⟨found, words⟩ s₂ hle₂ ⟨m, -, hs₂, hm⟩
      refine Moves.read (.consume _ _) fun _ _ => ?_
      refine Moves.guard (.fail _ _) fun hcount => ?_
      have hcount : found = header.parameters.length := Decidable.of_not_not hcount
      obtain ⟨rfl, hwords⟩ := hm (Nat.le_of_eq hcount)
      dsimp only at hs₂ hwords
      refine Moves.read (.byte _ _ _) fun a ha => ?_
      rw [← ha] at hs₂
      have hn₂ : s₂.scopeWords ≤ n := by rwa [hle₂.scopeWords_eq]
      have hknown₂ := hknown.mono hle₂.linkage hle₂.types (Nat.le_refl _)
      rw [← hle₂.scopes_eq] at hknown₂
      have hshape : a.toNat = (header.callShape s₂.types).parameters := by
        rw [ha, hwords, hcount, argumentWords, List.take_length, hwords₁]
        rfl
      have hemit := hs₂.emitCall hn₂ hknown₂.linked hshape
      have hdone : ∀ s₃ : Stage, s₂.Le .value s₃ →
          s₃.Ready G (n + s₂.types.words header.returns) →
          Moves .value s₃ (pure header.returns) fun ty s' => s'.Holds G n (.value ty) := by
        intro s₃ hle₃ hs₃
        rw [← hle₃.types.words_eq hknown₂.bounded.2] at hs₃
        exact .pure (hs₃.holds hle₃ (hle₃.types.bounded hknown₂.bounded.2) hn₂)
      cases hkind : header.kind with
      | script chunk =>
        rw [hkind] at hemit
        exact Moves.bind hemit fun _ s₃ hle₃ hs₃ => hdone s₃ hle₃ hs₃
      | external index =>
        rw [hkind] at hemit
        exact Moves.bind hemit fun _ s₃ hle₃ hs₃ => hdone s₃ hle₃ hs₃
    have hpassing : s₁.Passing G n receiverWords header.parameters 0 receiverWords :=
      ⟨_, Nat.le_add_right _ _, hs₁, fun _ => ⟨rfl, rfl⟩⟩
    have hb₁ : ∀ p ∈ header.parameters, p.ty.Bounded s₁.types.structures.size :=
      fun p hp => hle₁.types.bounded (hknown.bounded.1 p hp)
    split
    · exact Moves.bind (.pure hpassing) fun r s₂ hle₂ hs₂ => hargs r s₂ (hle₁.trans hle₂) hs₂
    · refine Moves.read .budget fun budget _ => ?_
      exact Moves.bind (Passing.arguments hg budget hb₁ hpassing hn₁)
        fun r s₂ hle₂ hs₂ => hargs r s₂ (hle₁.trans hle₂) hs₂
  cases receiver with
  | none =>
    refine Moves.bind (Q := fun w s' => w = 0 ∧ s' = s) (.pure ⟨rfl, rfl⟩) fun w s₁ hle₁ hw => ?_
    obtain ⟨rfl, rfl⟩ := hw
    exact hwith 0 s₁ hle₁ (by rw [hreceiver]; rfl) h
  | some place =>
    refine Moves.bind (h.addressOf token) fun _ s₁ hle₁ hs₁ => ?_
    refine Moves.bind (Q := fun w s' => w = 1 ∧ s' = s₁) (.pure ⟨rfl, rfl⟩) fun w s₂ _ hw => ?_
    obtain ⟨rfl, rfl⟩ := hw
    exact hwith 1 s₂ hle₁ (by rw [hreceiver]; rfl) hs₁

/-! ### Accessors -/

/-- A field, or a length. -/
theorem Holds.field (h : s.Holds G n o) (token : Token) :
    Moves .value s (Access.field o token) fun o' s' => s'.Holds G n o' := by
  rw [Access.field]
  split
  · rename_i id hty
    refine Moves.ask (a := s.types.field? id token.lexeme) (fun _ => rfl) ?_
    cases hfield : s.types.field? id token.lexeme with
    | none => exact (Fails.failMember _ _).moves
    | some f =>
      obtain ⟨hb, -, hin⟩ := h.ready.sound.types.fields id f (TypeTable.mem_fields_of_field? hfield)
      refine h.select hb ?_ token
      rw [hty]
      exact hin
  · rename_i element length hty
    split
    -- the length of a span is known from its type, so the span itself is dropped
    · refine Moves.bind (h.ready.discard token) fun _ s₁ hle₁ hs₁ => ?_
      refine Moves.bind (hs₁.emitInteger _ token) fun _ s₂ hle₂ hs₂ => .pure ?_
      exact Ready.holds hs₂ (hle₁.trans hle₂) (Ty.bounded_int _) h.base
    · exact (Fails.failMember _ _).moves
  · rename_i element hty
    split
    · refine Moves.bind (h.load token) fun ty s₁ hle₁ ⟨hty₁, hs₁⟩ => ?_
      rw [hty₁, hty] at hs₁
      refine Moves.bind (Q := fun _ s' => s'.Ready G (n + 1)) ?_ fun _ s₂ hle₂ hs₂ => .pure ?_
      · exact hs₁.ready.emit .listLength (by simp) (Nat.le_add_left 1 n) trivial rfl rfl
      · exact Ready.holds hs₂ (hle₁.trans hle₂) (Ty.bounded_int _) h.base
    · exact (Fails.failMember _ _).moves
  · exact (Fails.failMember _ _).moves

/-- An element of a span by its number. -/
theorem Holds.element (h : s.Holds G n o) (token : Token) :
    Moves .value s (Access.element o token) fun o' s' => s'.Holds G n o' := by
  rw [Access.element]
  split
  · rename_i elementTy length hty
    split
    · exact (Fails.failLiteral _).moves
    · rename_i index _
      refine Moves.guard (.fail _ _) fun hindex => ?_
      refine Moves.read (.wordsOf _ _) fun words hwords => ?_
      have hwords := TypeTable.words_of_wordLength hwords
      have hb : elementTy.Bounded s.types.structures.size := by
        have := h.fits.bounded
        rwa [hty] at this
      refine h.select hb ?_ token
      rw [hty, TypeTable.words, hwords, Nat.mul_comm index, ← Nat.mul_succ]
      exact Nat.mul_le_mul_left words (Nat.not_le.mp hindex)
  · exact Fails.moves (.bind fun _ => .fail _ _)

/-- A value goes to the end of a list. -/
theorem Holds.push (hg : g.Disciplined) (h : s.Holds G n o) (elementTy : Ty) (name : Token) :
    Moves .value s (Access.push g o elementTy name) fun o' s' => s'.Holds G n o' := by
  refine Moves.read (.placeOf _ _ _) fun p hp => ?_
  subst hp
  refine Moves.bind (h.ready.addressOf name) fun _ s₁ hle₁ hs₁ => ?_
  refine Moves.read (.consume _ _) fun _ _ => Moves.read .current fun value _ => ?_
  have hn₁ : s₁.scopeWords ≤ n + 1 := by
    rw [hle₁.scopeWords_eq]
    exact Nat.le_succ_of_le h.base
  refine Moves.bind (hg.expression .or hs₁ hn₁) fun ty s₂ hle₂ hs₂ => ?_
  refine Moves.read (.expectType _ _ _) fun _ hty => Moves.read (.consume _ _) fun _ _ => ?_
  subst hty
  refine Moves.read (.wordsOf _ _) fun words hwords => Moves.read (.byte _ _ _) fun a ha => ?_
  have hwords := TypeTable.words_of_wordLength hwords
  refine Moves.bind (Q := fun _ s' => s'.Ready G n) ?_ fun _ s₃ hle₃ hs₃ => .pure ?_
  · refine hs₂.ready.emit .listPush (by simp) ?_ trivial rfl ?_
    · show a.toNat + 1 ≤ n + 1 + s₂.types.words elementTy
      omega
    · show n = n + 1 + s₂.types.words elementTy - (a.toNat + 1) + 0
      omega
  · exact Ready.holds hs₃ ((hle₁.trans hle₂).trans hle₃) (Ty.bounded_void _) h.base

/-- A method, or `push` on a list. -/
theorem Holds.memberCall (hg : g.Disciplined) (h : s.Holds G n o) (name : Token) :
    Moves .value s (Access.memberCall g o name) fun o' s' => s'.Holds G n o' := by
  rw [Access.memberCall]
  split
  · split
    · exact h.push hg _ name
    · exact (Fails.failMember _ _).moves
  · rename_i id _
    refine Moves.ask (a := s.types.method? id name.lexeme) (fun _ => rfl) ?_
    cases hmethod : s.types.method? id name.lexeme with
    | none => exact (Fails.failMember _ _).moves
    | some header =>
      obtain ⟨hreceiver, hknown⟩ :=
        h.ready.sound.methods id header (TypeTable.mem_methods_of_method? hmethod)
      refine Moves.read (.placeOf _ _ _) fun p hp => ?_
      subst hp
      refine Moves.bind ?_ fun ty s₁ _ hs₁ => .pure hs₁
      exact Ready.call hg (some p) h.ready h.base hknown hreceiver name
  · exact (Fails.failMember _ _).moves

/-- What follows a dot. -/
theorem Holds.member (hg : g.Disciplined) (h : s.Holds G n o) :
    Moves .value s (Access.member g o) fun o' s' => s'.Holds G n o' := by
  refine Moves.read .advance fun dot _ => ?_
  refine Moves.bind (h.deref dot) fun o' s₁ _ hs₁ => ?_
  refine Moves.read .advance fun token _ => ?_
  split
  · exact hs₁.element token
  · refine Moves.read (.check _) fun call _ => ?_
    split
    · exact hs₁.memberCall hg token
    · exact hs₁.field token
  · exact (Fails.failExpected _ _).moves

/-- An index puts one word on the stack. -/
theorem Ready.indexExpression (hg : g.Disciplined) (h : s.Ready G n) (hn : s.scopeWords ≤ n) :
    Moves .value s (Access.indexExpression g) fun _ s' => s'.Ready G (n + 1) := by
  refine Moves.read .current fun token _ => ?_
  refine Moves.bind (hg.expression .or h hn) fun ty s₁ _ hs₁ => ?_
  refine Moves.read (.expectType _ _ _) fun _ hty => ?_
  subst hty
  exact Moves.read (.consume _ _) fun _ _ => .pure hs₁.ready

/-- An index in brackets leaves the address of the element. -/
theorem Holds.index (hg : g.Disciplined) (h : s.Holds G n o) :
    Moves .value s (Access.index g o) fun o' s' => s'.Holds G n o' := by
  refine Moves.read .advance fun bracket _ => ?_
  refine Moves.bind (h.deref bracket) fun o' s₁ hle₁ hs₁ => ?_
  split
  · rename_i elementTy length hty
    refine Moves.read (.placeOf _ _ _) fun span hspan => ?_
    subst hspan
    have hb : elementTy.Bounded s₁.types.structures.size := by
      have := hs₁.fits.bounded
      rwa [hty] at this
    extract_lets withAddress
    -- the address of the span is on the stack, whichever way it came there
    have hwith : ∀ (offset : Nat) (s₂ : Stage), s₁.Le .value s₂ → s₂.Ready G (n + 1) →
        Moves .value s₂ (withAddress offset) fun o' s' => s'.Holds G n o' := by
      intro offset s₂ hle₂ hs₂
      have hn₂ : s₂.scopeWords ≤ n := by
        rw [hle₂.scopeWords_eq]
        exact hs₁.base
      refine Moves.read (.wordsOf _ _) fun _ _ => Moves.read (.byte _ _ _) fun a _ => ?_
      refine Moves.bind (hs₂.indexExpression hg (Nat.le_succ_of_le hn₂)) fun _ s₃ hle₃ hs₃ => ?_
      refine Moves.bind (Q := fun _ s' => s'.Ready G (n + 1)) ?_ fun _ s₄ hle₄ hs₄ => .pure ?_
      · exact hs₃.emit .indexAddress (by simp) (Nat.le_add_left 2 n) trivial rfl rfl
      · have hle := (hle₂.trans hle₃).trans hle₄
        refine ⟨⟨hle.types.bounded hb, fun hs => (nomatch hs), fun hs => (nomatch hs)⟩, hs₄, ?_⟩
        rw [hle.scopeWords_eq]
        exact hs₁.base
    have hready : s₁.Ready G (n + span.height) := hs₁.ready
    split
    · rename_i hdynamic
      have hheight : span.height = 1 := if_pos (eq_of_beq hdynamic)
      rw [hheight] at hready
      exact Moves.bind (Q := fun _ s' => s'.Ready G (n + 1)) (.pure hready)
        fun offset s₂ hle₂ hs₂ => hwith offset s₂ hle₂ hs₂
    · refine Moves.bind (hready.addressOf bracket) fun _ s₂ hle₂ hs₂ => ?_
      exact Moves.bind (Q := fun _ s' => s'.Ready G (n + 1)) (.pure hs₂)
        fun offset s₃ hle₃ hs₃ => hwith offset s₃ (hle₂.trans hle₃) hs₃
  · rename_i elementTy hty
    have hb : elementTy.Bounded s₁.types.structures.size := by
      have := hs₁.fits.bounded
      rwa [hty] at this
    -- a list is one word, the address of its block
    refine Moves.bind (hs₁.load bracket) fun ty s₂ hle₂ ⟨hty₂, hs₂⟩ => ?_
    rw [hty₂, hty] at hs₂
    refine Moves.read (.wordsOf _ _) fun _ _ => Moves.read (.byte _ _ _) fun a _ => ?_
    refine Moves.bind (hs₂.ready.indexExpression hg (Nat.le_succ_of_le hs₂.base))
      fun _ s₃ hle₃ hs₃ => ?_
    refine Moves.bind (Q := fun _ s' => s'.Ready G (n + 1)) ?_ fun _ s₄ hle₄ hs₄ => .pure ?_
    · exact hs₃.emit .listIndex (by simp) (Nat.le_add_left 2 n) trivial rfl rfl
    · have hle := (hle₂.trans hle₃).trans hle₄
      refine ⟨Place.fits_atAddress (hle.types.bounded hb), hs₄, ?_⟩
      rw [hle.scopeWords_eq]
      exact hs₁.base
  · exact Fails.moves (.bind fun _ => .fail _ _)

end Stage

end WordScript
