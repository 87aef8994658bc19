/-
Expressions keep the discipline of the stack.

Every production of an expression leaves its value on top of the frame it began
with.  Where it fails to type or to fit into an instruction, there is no code and
nothing to prove.

* `Stage.Holds.operators` — operators on the value so far;
* `Stage.Ready.primary`, `Stage.Ready.operand` — operands;
* `Stage.Ready.expression` — whole expressions.
-/
import WordScript.Proofs.Operations

namespace WordScript.Stage

variable {G : Outlook} {s s' : Stage} {n : Nat} {o : Operand} {g : Productions} {ty : Ty}

/-! ### Operators -/

/-- An operation of a known number of words takes its operands and leaves a word. -/
theorem Ready.operation {k : Nat} (h : s.Ready G (n + k)) (hn : s.scopeWords ≤ n) {op : Opcode}
    (hpops : (Instruction.ofOpcode op).pops op = k)
    (hpushes : (Instruction.ofOpcode op).pushes s.linkage op = 1)
    (hadmits : ∀ m, (Instruction.ofOpcode op).Admits s.linkage G.shape s.builder.code.constants m op)
    (hstraight : op.isStraight = true) (result : Ty) (hresult : ∀ t : TypeTable, t.words result = 1)
    (hb : ∀ m, result.Bounded m) :
    Moves .value s (CompileM.emitOp op) fun _ s' => s'.Holds G n (.value result) := by
  have hemit : Moves .value s (CompileM.emitOp op) fun _ s' => s'.Ready G (n + 1) := by
    refine h.emit op (Instruction.opcode?_ofOpcode op) ?_ (hadmits _) hstraight ?_
    · rw [hpops]
      exact Nat.le_add_left k n
    · rw [hpops, hpushes]
      omega
  refine hemit.mono fun _ s' hle hs' => ?_
  refine Ready.holds ?_ hle (hb _) hn
  rw [hresult]
  exact hs'

/-- The operations of the arithmetic operators take two words and leave one. -/
theorem arithmetic_shape {op : TokenKind} {opcode : Opcode}
    (h : Expression.arithmetic? op ty = some opcode) :
    (ty = .int ∨ ty = .float) ∧ (∀ L, (Instruction.ofOpcode opcode).pushes L opcode = 1) ∧
      (Instruction.ofOpcode opcode).pops opcode = 2 ∧ opcode.isStraight = true ∧
      ∀ L shape constants m, (Instruction.ofOpcode opcode).Admits L shape constants m opcode := by
  unfold Expression.arithmetic? at h
  split at h <;> cases h <;>
    simp [Instruction.pops, Instruction.pushes, Instruction.Admits, Opcode.isStraight,
      Opcode.fallsThrough, Opcode.jumps]

theorem comparison_shape {op : TokenKind} {opcode : Opcode}
    (h : Expression.comparison? op ty = some opcode) :
    (ty = .int ∨ ty = .float) ∧ (∀ L, (Instruction.ofOpcode opcode).pushes L opcode = 1) ∧
      (Instruction.ofOpcode opcode).pops opcode = 2 ∧ opcode.isStraight = true ∧
      ∀ L shape constants m, (Instruction.ofOpcode opcode).Admits L shape constants m opcode := by
  unfold Expression.comparison? at h
  split at h <;> cases h <;>
    simp [Instruction.pops, Instruction.pushes, Instruction.Admits, Opcode.isStraight,
      Opcode.fallsThrough, Opcode.jumps]

/-- Numbers take one word. -/
theorem number_shape (h : ty = .int ∨ ty = .float) :
    (∀ t : TypeTable, t.words ty = 1) ∧ ∀ m, ty.Bounded m := by
  obtain rfl | rfl := h
  · exact ⟨fun _ => rfl, Ty.bounded_int⟩
  · exact ⟨fun _ => rfl, Ty.bounded_float⟩

/-- Two values of one type lie on top of the frame. -/
def HoldsPair (G : Outlook) (n : Nat) (s : Stage) (ty : Ty) : Prop :=
  s.Ready G (n + s.types.words ty + s.types.words ty) ∧ s.scopeWords ≤ n ∧
    ty.Bounded s.types.structures.size

theorem HoldsPair.calculation (h : s.HoldsPair G n ty) (op : Token) :
    Moves .value s (Expression.calculation op ty) fun ty' s' => s'.Holds G n (.value ty') := by
  obtain ⟨hready, hn, -⟩ := h
  rw [Expression.calculation]
  split
  · rename_i opcode hop
    obtain ⟨hty, hpushes, hpops, hstraight, hadmits⟩ := comparison_shape hop
    rw [(number_shape hty).1] at hready
    have hready : s.Ready G (n + 2) := hready
    refine Moves.bind (hready.operation hn hpops (hpushes _) (hadmits _ _ _) hstraight
      .bool (fun _ => rfl) Ty.bounded_bool) fun _ s' _ hs' => .pure hs'
  · split
    · rename_i opcode hop
      obtain ⟨hty, hpushes, hpops, hstraight, hadmits⟩ := arithmetic_shape hop
      rw [(number_shape hty).1] at hready
      have hready : s.Ready G (n + 2) := hready
      refine Moves.bind (hready.operation hn hpops (hpushes _) (hadmits _ _ _) hstraight
        ty (number_shape hty).1 (number_shape hty).2) fun _ s' _ hs' => .pure hs'
    · exact (Fails.failOperands _ _ _).moves

theorem HoldsPair.equality (h : s.HoldsPair G n ty) {opcode : Opcode}
    (hopcode : opcode = .equal ∨ opcode = .notEqual) (op : Token) :
    Moves .value s (Expression.equality opcode op ty) fun ty' s' => s'.Holds G n (.value ty') := by
  obtain ⟨hready, hn, -⟩ := h
  refine Moves.read (.wordsOf _ _) fun words hwords => Moves.read (.byte _ _ _) fun a ha => ?_
  have hwords := TypeTable.words_of_wordLength hwords
  refine Moves.bind (Q := fun _ s' => s'.Ready G (n + 1)) ?_ fun _ s' hle hs' => .pure ?_
  · refine hready.emit opcode (by simp) ?_ ?_ ?_ ?_
    · obtain rfl | rfl := hopcode
      all_goals
        show a.toNat + a.toNat ≤ _
        omega
    · obtain rfl | rfl := hopcode <;> trivial
    · obtain rfl | rfl := hopcode <;> rfl
    · obtain rfl | rfl := hopcode
      all_goals
        show n + 1 = _ - (a.toNat + a.toNat) + 1
        omega
  · exact Ready.holds hs' hle (Ty.bounded_bool _) hn

/-- The operations on truth values. -/
theorem HoldsPair.logic (h : s.HoldsPair G n .bool) {opcode : Opcode}
    (hopcode : opcode = .and ∨ opcode = .or) :
    Moves .value s (CompileM.emitOp opcode) fun _ s' => s'.Holds G n (.value .bool) := by
  obtain ⟨hready, hn, -⟩ := h
  have hready : s.Ready G (n + 2) := hready
  refine hready.operation hn ?_ ?_ ?_ ?_ .bool (fun _ => rfl) Ty.bounded_bool
  · obtain rfl | rfl := hopcode <;> rfl
  · obtain rfl | rfl := hopcode <;> rfl
  · obtain rfl | rfl := hopcode <;> exact fun _ => trivial
  · obtain rfl | rfl := hopcode <;> rfl

/-- A binary operator leaves its result in place of its operands. -/
theorem Ready.binary {left right : Ty} (h : left = right → s.HoldsPair G n left) (op : Token) :
    Moves .value s (Expression.binary op left right) fun ty s' => s'.Holds G n (.value ty) := by
  rw [Expression.binary]
  split
  · exact (Fails.failOperands _ _ _).moves
  · rename_i heq
    have hpair := h (Decidable.of_not_not heq)
    split
    · split
      · rename_i hbool
        rw [hbool] at hpair
        exact Moves.bind (hpair.logic (.inl rfl)) fun _ s' _ hs' => .pure hs'
      · exact hpair.calculation op
    · split
      · rename_i hbool
        rw [hbool] at hpair
        exact Moves.bind (hpair.logic (.inr rfl)) fun _ s' _ hs' => .pure hs'
      · exact hpair.calculation op
    · split
      · exact hpair.equality (.inl rfl) op
      · exact hpair.calculation op
    · split
      · exact hpair.equality (.inr rfl) op
      · exact hpair.calculation op
    · exact hpair.calculation op

/-- Operators fold in the values that follow them. -/
theorem Holds.operators (hg : g.Disciplined) (min : Precedence) :
    ∀ (budget : Nat) {s : Stage} {left : Ty}, s.Holds G n (.value left) →
      Moves .value s (Expression.operators g min budget left) fun ty s' =>
        s'.Holds G n (.value ty) := by
  intro budget
  induction budget with
  | zero => exact fun _ => Fails.failFuel.moves
  | succ budget ih =>
    intro s left h
    refine Moves.read .kind fun k _ => ?_
    split
    · exact .pure h
    · split
      · exact .pure h
      · refine Moves.read .advance fun op _ => ?_
        have hbase : s.scopeWords ≤ n + s.types.words left := Nat.le_add_right_of_le h.base
        refine Moves.bind (hg.expression _ h.ready hbase) fun right s₁ hle₁ hs₁ => ?_
        refine Moves.bind (Ready.binary (n := n) ?_ op) fun ty s₂ _ hs₂ => ih hs₂
        rintro rfl
        have hready := hs₁.ready
        rw [Operand.height, ← hle₁.types.words_eq h.fits] at hready
        refine ⟨hready, ?_, hs₁.fits⟩
        rw [hle₁.scopeWords_eq]
        exact h.base

theorem Holds.continue_ (hg : g.Disciplined) (h : s.Holds G n o) (min : Precedence)
    (token : Token) :
    Moves .value s (Expression.continue_ g o min token) fun ty s' => s'.Holds G n (.value ty) := by
  refine Moves.bind (h.load token) fun ty s₁ _ ⟨_, hs₁⟩ => ?_
  exact Moves.read .budget fun budget _ => hs₁.operators hg min budget

/-! ### Types -/

/-- Suffixes mention no further structures. -/
theorem reads_suffixes {c : Compiler} {m : Nat} (indirection : Bool) : ∀ (budget : Nat) {ty : Ty},
    ty.Bounded m → Reads c (TypeExpr.suffixes indirection budget ty) fun ty' => ty'.Bounded m := by
  intro budget
  induction budget with
  | zero => exact fun _ => Fails.failFuel.reads
  | succ budget ih =>
    intro ty hb
    refine Reads.kind.bind fun k _ => ?_
    split
    · refine (Reads.kindAhead 1).bind fun _ _ => (Reads.kindAhead 2).bind fun _ _ => ?_
      split
      · refine Reads.advance.bind fun _ _ => Reads.advance.bind fun length _ =>
          Reads.advance.bind fun _ _ => ?_
        split
        · exact (Fails.failLiteral _).reads
        · exact ih (Ty.bounded_span.mpr hb)
      · exact .pure hb
    · refine (Reads.kindAhead 1).bind fun _ _ => ?_
      split
      · exact Reads.advance.bind fun _ _ => Reads.advance.bind fun _ _ => ih (Ty.bounded_list.mpr hb)
      · exact .pure hb
    · split
      · exact Reads.advance.bind fun _ _ => ih (Ty.bounded_pointer.mpr hb)
      · exact .pure hb
    · split
      · exact Reads.advance.bind fun _ _ => ih (Ty.bounded_reference.mpr hb)
      · exact .pure hb
    · exact .pure hb

/-- Types that are all there, in a stage that is ready. -/
def Typed (G : Outlook) (n : Nat) (s : Stage) (tys : List Ty) : Prop :=
  (∀ ty ∈ tys, ty.Bounded s.types.structures.size) ∧ s.Ready G n

theorem Typed.arguments (hg : g.Disciplined) : ∀ (budget : Nat) {s : Stage} {done : List Ty},
    s.Typed G n done →
      Moves .value s (TypeExpr.arguments g budget done) fun tys s' => s'.Typed G n tys := by
  intro budget
  induction budget with
  | zero => exact fun _ => Fails.failFuel.moves
  | succ budget ih =>
    intro s done ⟨hdone, h⟩
    refine Moves.bind (hg.typeExpr true h) fun ty s₁ hle₁ ⟨hty, hs₁⟩ => ?_
    have hall : ∀ t ∈ ty :: done, t.Bounded s₁.types.structures.size := by
      intro t ht
      cases ht with
      | head => exact hty
      | tail _ ht => exact hle₁.types.bounded (hdone t ht)
    refine Moves.read (.matchKind _) fun more _ => ?_
    split
    · exact ih ⟨hall, hs₁⟩
    · exact .pure ⟨fun t ht => hall t (List.mem_reverse.mp ht), hs₁⟩

theorem reads_checkArgumentCount {c : Compiler} (template found : Nat) (token : Token) :
    Reads c (TypeExpr.checkArgumentCount template found token) fun _ => True := by
  refine (Reads.of_ask _).bind fun d _ => ?_
  split
  · exact .pure trivial
  · split
    · exact (Fails.fail _ _).reads
    · exact .pure trivial

theorem Typed.applyTemplate (hg : g.Disciplined) {args : List Ty} (h : s.Typed G n args)
    (template : Nat) (token : Token) :
    Moves .value s (TypeExpr.applyTemplate g template args token) fun ty s' =>
      ty.Bounded s'.types.structures.size ∧ s'.Ready G n := by
  rw [TypeExpr.applyTemplate]
  split
  · refine Moves.read (reads_checkArgumentCount _ _ _) fun _ _ => .pure ⟨?_, h.2⟩
    exact Ty.bounded_generic.mpr h.1
  · refine Moves.bind (hg.instantiate template args token h.2 h.1) fun id s₁ _ ⟨hid, hs₁⟩ => ?_
    exact .pure ⟨Ty.bounded_structure.mpr hid, hs₁⟩

theorem Ready.named (hg : g.Disciplined) (h : s.Ready G n) (token : Token) :
    Moves .value s (TypeExpr.named g token) fun ty s' =>
      ty.Bounded s'.types.structures.size ∧ s'.Ready G n := by
  refine Moves.ask (a := s.binding? token.lexeme) (fun _ => rfl) ?_
  cases hbinding : s.binding? token.lexeme with
  | some ty =>
    obtain ⟨b, hb, hlookup⟩ := Option.bind_eq_some_iff.mp hbinding
    have hmem := TypeTable.mem_of_lookup_eq_some hlookup
    exact .pure ⟨h.sound.bindings b (List.mem_of_head? hb) _ hmem, h⟩
  | none =>
    dsimp only
    split
    · rename_i ty hprimitive
      exact .pure ⟨Ty.bounded_primitive hprimitive _, h⟩
    · refine Moves.ask (a := s.types.lookup? token.lexeme) (fun _ => rfl) ?_
      cases hlookup : s.types.lookup? token.lexeme with
      | none => exact (Fails.fail _ _).moves
      | some entry =>
        cases entry with
        | structure_ id =>
          exact .pure ⟨Ty.bounded_structure.mpr (h.sound.types.lookup_lt hlookup), h⟩
        | template template =>
          refine Moves.read (.consume _ _) fun _ _ => Moves.read .budget fun budget _ => ?_
          have hnone : s.Typed G n [] := ⟨fun _ ht => absurd ht List.not_mem_nil, h⟩
          refine Moves.bind (hnone.arguments hg budget) fun args s₁ _ hs₁ => ?_
          exact Moves.read (.consume _ _) fun _ _ => hs₁.applyTemplate hg template token

/-- A type in the source. -/
theorem Ready.typeExpr (hg : g.Disciplined) (h : s.Ready G n) (indirection : Bool) :
    Moves .value s (TypeExpr.read g indirection) fun ty s' =>
      ty.Bounded s'.types.structures.size ∧ s'.Ready G n := by
  refine Moves.read (.identifier _) fun token _ => ?_
  refine Moves.bind (h.named hg token) fun ty s₁ _ ⟨hty, hs₁⟩ => ?_
  refine Moves.read .budget fun budget _ => ?_
  exact .of_reads (reads_suffixes indirection budget hty) fun ty' hty' => ⟨hty', hs₁⟩

/-! ### Literals -/

/-- The elements of a span, one after the other. -/
theorem Ready.spanElements (hg : g.Disciplined) {element : Ty} : ∀ (budget : Nat) {s : Stage}
    {length : Nat}, s.Ready G (n + s.types.words element * length) → s.scopeWords ≤ n →
      element.Bounded s.types.structures.size →
      Moves .value s (Expression.spanElements g element budget length) fun k s' =>
        s'.Ready G (n + s'.types.words element * k) := by
  intro budget
  induction budget with
  | zero => exact fun _ _ _ => Fails.failFuel.moves
  | succ budget ih =>
    intro s length h hn hb
    refine Moves.read (.matchKind _) fun more _ => ?_
    split
    · refine Moves.read .current fun token _ => ?_
      refine Moves.bind (hg.expression .or h (Nat.le_add_right_of_le hn)) fun ty s₁ hle₁ hs₁ => ?_
      refine Moves.read (.expectType _ _ _) fun _ hty => ?_
      subst hty
      have hready := hs₁.ready
      rw [Operand.height, ← hle₁.types.words_eq hb, Nat.add_assoc, ← Nat.mul_succ] at hready
      refine ih hready ?_ hs₁.fits
      rw [hle₁.scopeWords_eq]
      exact hn
    · exact .pure h

theorem Ready.spanLiteral (hg : g.Disciplined) (h : s.Ready G n) (hn : s.scopeWords ≤ n) :
    Moves .value s (Expression.spanLiteral g) fun o s' => s'.Holds G n o := by
  refine Moves.read .advance fun open_ _ => Moves.read (.check _) fun empty _ => ?_
  refine Moves.else_ (.bind fun _ => .bind_left (.failExpected _ _) _) fun _ => ?_
  refine Moves.read .current fun first _ => ?_
  refine Moves.bind (hg.expression .or h hn) fun element s₁ hle₁ hs₁ => ?_
  refine Moves.guard (.failMismatch _ _ _) fun _ => Moves.read .budget fun budget _ => ?_
  have hone : s₁.Ready G (n + s₁.types.words element * 1) := by
    rw [Nat.mul_one]
    exact hs₁.ready
  refine Moves.bind (hone.spanElements hg budget hs₁.base hs₁.fits) fun length s₂ hle₂ hs₂ => ?_
  refine Moves.read (.consume _ _) fun _ _ => Moves.read (.short _ _ _) fun k hk => .pure ?_
  rw [← hk] at hs₂
  exact Ready.holds hs₂ (hle₁.trans hle₂) (hle₂.types.bounded hs₁.fits) hn

/-- The fields of a structure lie inside it. -/
def FieldsFit (d : StructureType) (s : Stage) : Prop :=
  ∀ f ∈ d.fields, f.ty.Bounded s.types.structures.size ∧
    f.offset + s.types.words f.ty ≤ d.wordLength

theorem FieldsFit.le {d : StructureType} (h : FieldsFit d s) (hle : s.Le .value s') :
    FieldsFit d s' := by
  intro f hf
  obtain ⟨hb, hin⟩ := h f hf
  rw [hle.types.words_eq hb]
  exact ⟨hle.types.bounded hb, hin⟩

/-- Initialisers store their values into the structure below them. -/
theorem Ready.initialisers (hg : g.Disciplined) {d : StructureType} (token : Token) :
    ∀ (budget : Nat) {s : Stage}, s.Ready G (n + d.wordLength) → s.scopeWords ≤ n →
      FieldsFit d s →
      Moves .value s (Expression.initialisers g d token budget) fun _ s' =>
        s'.Ready G (n + d.wordLength) := by
  intro budget
  induction budget with
  | zero => exact fun _ _ _ => Fails.failFuel.moves
  | succ budget ih =>
    intro s h hn hd
    refine Moves.read (.identifier _) fun name _ => ?_
    split
    · exact (Fails.fail _ _).moves
    · rename_i f hf
      obtain ⟨hb, hin⟩ := hd f (List.mem_of_find?_eq_some hf)
      refine Moves.read (.consume _ _) fun _ _ => Moves.read .current fun value _ => ?_
      -- the value lies on top of the structure, at any height, and is stored below it
      refine Moves.bind (hg.expression .or h (Nat.le_add_right_of_le hn)) fun ty s₁ hle₁ hs₁ => ?_
      refine Moves.read (.expectType _ _ _) fun _ hty => ?_
      subst hty
      refine Moves.read (.wordsOf _ _) fun words hwords => Moves.read (.byte _ _ _) fun a ha => ?_
      refine Moves.read (.short _ _ _) fun k hk => ?_
      have hwords := TypeTable.words_of_wordLength hwords
      rw [← hle₁.types.words_eq hb] at hin
      have hready : s₁.Ready G (n + d.wordLength + s₁.types.words f.ty) := hs₁.ready
      have hn₁ : s₁.scopeWords ≤ n := by
        rw [hle₁.scopeWords_eq]
        exact hn
      refine Moves.bind (Q := fun _ s' => s'.Ready G (n + d.wordLength)) ?_ fun _ s₂ hle₂ hs₂ => ?_
      · refine hready.emit .storeTop (by simp) ?_ ?_ rfl ?_
        · show a.toNat ≤ _
          omega
        · simp only [Instruction.Admits, Instruction.a_ofByteShort, Instruction.short_ofByteShort]
          omega
        · show _ = _ - a.toNat + 0
          omega
      · refine Moves.read (.matchKind _) fun more _ => ?_
        split
        · refine ih hs₂ ?_ (hd.le (hle₁.trans hle₂))
          rw [hle₂.scopeWords_eq]
          exact hn₁
        · exact .pure hs₂

theorem Ready.structureLiteral (hg : g.Disciplined) (h : s.Ready G n) (hn : s.scopeWords ≤ n)
    {id : Nat} (hid : id < s.types.structures.size) (token : Token) :
    Moves .value s (Expression.structureLiteral g id token) fun o s' => s'.Holds G n o := by
  refine Moves.read (.consume _ _) fun _ _ => ?_
  refine Moves.ask (a := s.types.at_ id) (fun _ => rfl) ?_
  refine Moves.read (.short _ _ _) fun total htotal => ?_
  have hd : FieldsFit (s.types.at_ id) s := fun f hf => by
    obtain ⟨hb, -, hin⟩ := h.sound.types.fields id f hf
    exact ⟨hb, hin⟩
  refine Moves.bind (Q := fun _ s' => s'.Ready G (n + (s.types.at_ id).wordLength)) ?_
    fun _ s₁ hle₁ hs₁ => ?_
  · refine h.emit .pushZero (by simp) (Nat.zero_le _) trivial rfl ?_
    simp only [Instruction.pops, Instruction.pushes, Instruction.short_ofByteShort, htotal]
    rfl
  have hn₁ : s₁.scopeWords ≤ n := by
    rw [hle₁.scopeWords_eq]
    exact hn
  refine Moves.read (.check _) fun empty _ => ?_
  have hdone : ∀ s₂ : Stage, s.Le .value s₂ → s₂.Ready G (n + (s.types.at_ id).wordLength) →
      Moves .value s₂ (CompileM.consume (.symbol .rightBrace) "'\x7d'" >>= fun _ =>
        pure (Operand.value (.structure_ id))) fun o s' => s'.Holds G n o := by
    intro s₂ hle₂ hs₂
    refine Moves.read (.consume _ _) fun _ _ => .pure ?_
    rw [← hle₂.types.wordLength_at hid] at hs₂
    refine Ready.holds hs₂ hle₂ (Ty.bounded_structure.mpr ?_) hn
    exact Nat.lt_of_lt_of_le hid hle₂.types.size_le
  split
  · refine Moves.read .budget fun budget _ => ?_
    exact Moves.bind (hs₁.initialisers hg token budget hn₁ (hd.le hle₁))
      fun _ s₂ hle₂ hs₂ => hdone s₂ (hle₁.trans hle₂) hs₂
  · exact hdone s₁ hle₁ hs₁

/-- A type where a value is expected. -/
theorem Ready.typeLiteral (hg : g.Disciplined) (h : s.Ready G n) (hn : s.scopeWords ≤ n) :
    Moves .value s (Expression.typeLiteral g) fun o s' => s'.Holds G n o := by
  refine Moves.read .current fun token _ => ?_
  refine Moves.bind (h.typeExpr hg false) fun ty s₁ hle₁ ⟨hty, hs₁⟩ => ?_
  have hn₁ : s₁.scopeWords ≤ n := by
    rw [hle₁.scopeWords_eq]
    exact hn
  -- a brace begins a structure; a span of zeros and an empty list have none
  refine Moves.read (.check _) fun literal _ => ?_
  split
  · split
    · rename_i id
      exact hs₁.structureLiteral hg hn₁ (Ty.bounded_structure.mp hty) token
    · exact Fails.moves (.bind fun _ => .failMismatch _ _ _)
  · split
    · rename_i element length
      refine Moves.read (.wordsOf _ _) fun words hwords => Moves.read (.short _ _ _) fun k hk => ?_
      have hwords := TypeTable.words_of_wordLength hwords
      refine Moves.bind (Q := fun _ s' => s'.Ready G (n + words)) ?_ fun _ s₂ hle₂ hs₂ => .pure ?_
      · refine hs₁.emit .pushZero (by simp) (Nat.zero_le _) trivial rfl ?_
        simp only [Instruction.pops, Instruction.pushes, Instruction.short_ofByteShort, hk]
        rfl
      · rw [← hwords, ← hle₂.types.words_eq hty] at hs₂
        exact Ready.holds hs₂ hle₂ (hle₂.types.bounded hty) hn₁
    · refine Moves.read (.wordsOf _ _) fun words _ => Moves.read (.byte _ _ _) fun a _ => ?_
      refine Moves.bind (Q := fun _ s' => s'.Ready G (n + 1)) ?_ fun _ s₂ hle₂ hs₂ => .pure ?_
      · exact hs₁.emit .listNew (by simp) (Nat.zero_le _) trivial rfl rfl
      · exact Ready.holds hs₂ hle₂ (hle₂.types.bounded hty) hn₁
    · exact Fails.moves (.bind fun _ => .failExpected _ _)

/-! ### Operands -/

/-- An operation on one word. -/
theorem Holds.unary (h : s.Holds G n (.value ty)) (result : Ty) (hty : s.types.words ty = 1)
    {op : Opcode} (hpops : (Instruction.ofOpcode op).pops op = 1)
    (hpushes : (Instruction.ofOpcode op).pushes s.linkage op = 1)
    (hadmits : ∀ m, (Instruction.ofOpcode op).Admits s.linkage G.shape s.builder.code.constants m op)
    (hstraight : op.isStraight = true) (hresult : ∀ t : TypeTable, t.words result = 1)
    (hb : ∀ m, result.Bounded m) :
    Moves .value s (CompileM.emitOp op) fun _ s' => s'.Holds G n (.value result) := by
  have hready := h.ready
  rw [Operand.height, hty] at hready
  exact hready.operation h.base hpops hpushes hadmits hstraight result hresult hb

theorem Ready.conversion (hg : g.Disciplined) (h : s.Ready G n) (hn : s.scopeWords ≤ n) :
    Moves .value s (Expression.conversion g) fun o s' => s'.Holds G n o := by
  refine Moves.read .advance fun token _ => ?_
  extract_lets target
  refine Moves.read (.consume _ _) fun _ _ => Moves.read .current fun argument _ => ?_
  refine Moves.bind (hg.expression .or h hn) fun ty s₁ hle₁ hs₁ => ?_
  refine Moves.read (.consume _ _) fun _ _ => ?_
  clear_value target
  split
  · refine Moves.bind (hs₁.unary .int rfl rfl rfl (fun _ => trivial) rfl (fun _ => rfl)
      Ty.bounded_int) fun _ s₂ _ hs₂ => .pure hs₂
  · refine Moves.bind (hs₁.unary .float rfl rfl rfl (fun _ => trivial) rfl (fun _ => rfl)
      Ty.bounded_float) fun _ s₂ _ hs₂ => .pure hs₂
  · exact .pure hs₁
  · exact .pure ⟨Ty.bounded_int _, hs₁.ready, hs₁.base⟩
  · exact .pure hs₁
  · exact Fails.moves (.bind fun _ => .bind_left (.failMismatch _ _ _) _)

/-- A name. -/
theorem Ready.name (hg : g.Disciplined) (h : s.Ready G n) (hn : s.scopeWords ≤ n) :
    Moves .value s (Expression.name g) fun o s' => s'.Holds G n o := by
  refine Moves.read .current fun token _ => ?_
  refine Moves.ask (a := s.scopes.lookupVariable? s.scope token.lexeme) (fun _ => rfl) ?_
  cases hlookup : s.scopes.lookupVariable? s.scope token.lexeme with
  | some v =>
    have hlt : s.scope < s.scopes.scopes.size := by
      have := h.at_.scope
      omega
    refine Moves.read .advance fun _ _ => ?_
    exact h.variableOperand hn (h.sound.scopes.variable_fits hlt hlookup) token
  | none =>
    refine Moves.read (.kindAhead _) fun next _ => ?_
    -- a conversion or a call if a parenthesis follows, else the beginning of a literal of that type
    split
    · split
      · exact h.conversion hg hn
      · refine Moves.ask (a := s.scopes.lookupFunction? s.scope token.lexeme) (fun _ => rfl) ?_
        cases hfunction : s.scopes.lookupFunction? s.scope token.lexeme with
        | none => exact (Fails.fail _ _).moves
        | some header =>
          obtain ⟨hreceiver, hknown⟩ :=
            h.sound.functions _ (h.sound.scopes.function_mem hfunction)
          refine Moves.read .advance fun _ _ => ?_
          refine Moves.bind ?_ fun ty s₁ _ hs₁ => .pure hs₁
          exact Ready.call hg none h hn hknown (congrArg Option.isSome hreceiver) token
    · refine Moves.read (.of_ask _) fun isType _ => ?_
      split
      · exact h.typeLiteral hg hn
      · exact (Fails.fail _ _).moves

/-- A literal, a name, or an expression in parentheses. -/
theorem Ready.primary (hg : g.Disciplined) (h : s.Ready G n) (hn : s.scopeWords ≤ n) :
    Moves .value s (Expression.primary g) fun o s' => s'.Holds G n o := by
  refine Moves.read .current fun token _ => ?_
  split
  · refine Moves.read .advance fun _ _ => ?_
    split
    · exact (Fails.failLiteral _).moves
    · refine Moves.bind (h.emitInteger _ token) fun _ s₁ hle₁ hs₁ => .pure ?_
      exact Ready.holds hs₁ hle₁ (Ty.bounded_int _) hn
  · refine Moves.read .advance fun _ _ => ?_
    refine Moves.bind (h.emitConstant _ token) fun _ s₁ hle₁ hs₁ => .pure ?_
    exact Ready.holds hs₁ hle₁ (Ty.bounded_float _) hn
  · refine Moves.read .advance fun _ _ => ?_
    refine Moves.bind (h.addString _ token) fun k s₁ hle₁ ⟨hs₁, hpayload⟩ => ?_
    refine Moves.bind (Q := fun _ s' => s'.Ready G (n + 1)) ?_ fun _ s₂ hle₂ hs₂ => .pure ?_
    · refine hs₁.emit .loadHeapConstant (by simp) (Nat.zero_le _) ?_ rfl rfl
      simp only [Instruction.Admits, Instruction.short_ofByteShort]
      exact hpayload
    · exact Ready.holds hs₂ (hle₁.trans hle₂) (Ty.bounded_string _) hn
  · refine Moves.read .advance fun _ _ => ?_
    refine Moves.bind (Q := fun _ s' => s'.Ready G (n + 1)) ?_ fun _ s₁ hle₁ hs₁ => .pure ?_
    · exact h.emit .pushImmediate (by simp) (Nat.zero_le _) trivial rfl rfl
    · exact Ready.holds hs₁ hle₁ (Ty.bounded_bool _) hn
  · refine Moves.read .advance fun _ _ => ?_
    refine Moves.bind (Q := fun _ s' => s'.Ready G (n + 1)) ?_ fun _ s₁ hle₁ hs₁ => .pure ?_
    · exact h.emit .pushImmediate (by simp) (Nat.zero_le _) trivial rfl rfl
    · exact Ready.holds hs₁ hle₁ (Ty.bounded_bool _) hn
  · refine Moves.read .advance fun _ _ => ?_
    refine Moves.bind (hg.expression .or h hn) fun ty s₁ _ hs₁ => ?_
    exact Moves.read (.consume _ _) fun _ _ => .pure hs₁
  · exact h.spanLiteral hg hn
  · exact h.name hg hn
  · exact (Fails.failExpected _ _).moves

theorem Holds.accessors (hg : g.Disciplined) : ∀ (budget : Nat) {s : Stage} {o : Operand},
    s.Holds G n o →
      Moves .value s (Expression.accessors g budget o) fun o' s' => s'.Holds G n o' := by
  intro budget
  induction budget with
  | zero => exact fun _ => Fails.failFuel.moves
  | succ budget ih =>
    intro s o h
    refine Moves.read .kind fun k _ => ?_
    split
    · exact Moves.bind (h.member hg) fun o₁ s₁ _ hs₁ => ih hs₁
    · exact Moves.bind (h.index hg) fun o₁ s₁ _ hs₁ => ih hs₁
    · exact .pure h

theorem Ready.negation (hg : g.Disciplined) (h : s.Ready G n) (hn : s.scopeWords ≤ n) :
    Moves .value s (Expression.negation g) fun o s' => s'.Holds G n o := by
  refine Moves.read .advance fun op _ => ?_
  refine Moves.bind (hg.expression .unary h hn) fun ty s₁ hle₁ hs₁ => ?_
  extract_lets finish
  split
  · refine Moves.bind (hs₁.unary _ rfl rfl rfl (fun _ => trivial) rfl (fun _ => rfl)
      Ty.bounded_int) fun _ s₂ _ hs₂ => .pure hs₂
  · refine Moves.bind (hs₁.unary _ rfl rfl rfl (fun _ => trivial) rfl (fun _ => rfl)
      Ty.bounded_float) fun _ s₂ _ hs₂ => .pure hs₂
  · exact Fails.moves (.bind_left (.failOperands _ _ _) _)

theorem Ready.complement (hg : g.Disciplined) (h : s.Ready G n) (hn : s.scopeWords ≤ n) :
    Moves .value s (Expression.complement g) fun o s' => s'.Holds G n o := by
  refine Moves.read .advance fun op _ => ?_
  refine Moves.bind (hg.expression .unary h hn) fun ty s₁ _ hs₁ => ?_
  refine Moves.read (.expectType _ _ _) fun _ hty => ?_
  subst hty
  exact Moves.bind (hs₁.unary _ rfl rfl rfl (fun _ => trivial) rfl (fun _ => rfl) Ty.bounded_bool)
    fun _ s₂ _ hs₂ => .pure hs₂

theorem Ready.boxed (hg : g.Disciplined) (h : s.Ready G n) (hn : s.scopeWords ≤ n) :
    Moves .value s (Expression.boxed g) fun o s' => s'.Holds G n o := by
  refine Moves.read .advance fun op _ => ?_
  refine Moves.bind (hg.expression .unary h hn) fun ty s₁ hle₁ hs₁ => ?_
  refine Moves.guard (.failMismatch _ _ _) fun _ => ?_
  refine Moves.read (.wordsOf _ _) fun words hwords => Moves.read (.short _ _ _) fun k hk => ?_
  have hwords := TypeTable.words_of_wordLength hwords
  have hready : s₁.Ready G (n + s₁.types.words ty) := hs₁.ready
  refine Moves.bind (Q := fun _ s' => s'.Ready G (n + 1)) ?_ fun _ s₂ hle₂ hs₂ => .pure ?_
  · refine hready.emit .new (by simp) ?_ trivial rfl ?_
    · simp only [Instruction.pops, Instruction.short_ofByteShort]
      omega
    · simp only [Instruction.pops, Instruction.pushes, Instruction.short_ofByteShort]
      omega
  · exact Ready.holds hs₂ (hle₁.trans hle₂) (hle₂.types.bounded hs₁.fits) hn

/-- An operand. -/
theorem Ready.operand (hg : g.Disciplined) (h : s.Ready G n) (hn : s.scopeWords ≤ n) :
    Moves .value s (Expression.operand g) fun o s' => s'.Holds G n o := by
  refine Moves.read .kind fun k _ => ?_
  split
  · exact h.negation hg hn
  · exact h.complement hg hn
  · exact h.boxed hg hn
  · refine Moves.bind (h.primary hg hn) fun o s₁ _ hs₁ => ?_
    exact Moves.read .budget fun budget _ => hs₁.accessors hg budget

/-- An expression leaves its value on the frame it began with. -/
theorem Ready.expression (hg : g.Disciplined) (h : s.Ready G n) (hn : s.scopeWords ≤ n)
    (min : Precedence) :
    Moves .value s (Expression.read g min) fun ty s' => s'.Holds G n (.value ty) := by
  refine Moves.read .current fun token _ => ?_
  exact Moves.bind (h.operand hg hn) fun o s₁ _ hs₁ => hs₁.continue_ hg min token

end WordScript.Stage
