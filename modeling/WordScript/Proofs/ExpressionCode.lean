/-
The code of a tree computes its value.

The code of a tree leaves the stack as it is and puts the value of the tree on top,
or comes to a division by zero exactly when the tree does.  The words of the
variables lie at the bottom of the stack, the oldest first, and above them there may
be the values of operands that wait for their operator.

* `BinaryOp.leads`, `BinaryOp.faultsWith` — one instruction does what the operator does;
* `Tree.computes` — the code of a tree computes its value.
-/
import WordScript.Proofs.ExpressionReading
import WordScript.Proofs.MachineRuns
import WordScript.Proofs.OpenCode

namespace WordScript

/-- The types of the variables. -/
def Store.types (σ : Store) : Context :=
  σ.map fun e => (e.1, e.2.scalar)

/-- The words of the variables, the oldest first. -/
def Store.words (σ : Store) : Array Word :=
  (σ.map fun e => e.2.word).reverse.toArray

namespace Store

theorem words_cons (x : String) (v : Value) (σ : Store) :
    Store.words ((x, v) :: σ) = (Store.words σ).push v.word := by
  rw [words, words, List.map_cons, List.reverse_cons, List.push_toArray]

@[simp] theorem size_words (σ : Store) : (words σ).size = σ.length := by
  simp [words]

theorem slot?_types (x : String) (σ : Store) :
    slot? x (types σ) = (slot? x σ).map fun e => (e.1.scalar, e.2) := by
  induction σ with
  | nil => rfl
  | cons e older ih =>
    obtain ⟨y, v⟩ := e
    rw [types, List.map_cons, slot?, slot?]
    by_cases h : (x == y) = true
    · rw [if_pos h, if_pos h, List.length_map]
      rfl
    · rw [if_neg h, if_neg h]
      exact ih

/-- A variable lies above the words of the older ones. -/
theorem getElem?_words {x : String} {σ : Store} {v : Value} {k : Nat}
    (h : slot? x σ = some (v, k)) : (words σ)[k]? = some v.word := by
  induction σ with
  | nil => cases h
  | cons e older ih =>
    obtain ⟨y, u⟩ := e
    rw [slot?] at h
    rw [words_cons, Array.getElem?_push]
    split at h
    · cases h
      rw [if_pos (size_words older).symm]
    · have hlt := slot?_lt h
      rw [if_neg (by rw [size_words]; omega)]
      exact ih h

end Store

section Operators

variable {p : Program} {P : Chunk} {time : Float} {m : Machine} {ip : Nat} {s : Array Word}
  {a b v : Value}

theorem Word.toBool_ofBool (b : Bool) : (Word.ofBool b).toBool = b := by
  cases b <;> rfl

theorem Exec.unary_at (f : Word → Word) (m : Machine) (ip : Nat) (s : Array Word) (a : Word) :
    Exec.unary f (m.at_ ip (s.push a)) = .ok () (m.at_ ip (s.push (f a))) := by
  show EStateM.bind Exec.popWord _ _ = _
  simp only [EStateM.bind, Exec.popWord_push]
  rfl

theorem Exec.binary_at (f : Word → Word → Word) (m : Machine) (ip : Nat) (s : Array Word)
    (a b : Word) :
    Exec.binary f (m.at_ ip ((s.push a).push b)) = .ok () (m.at_ ip (s.push (f a b))) := by
  show EStateM.bind Exec.popWord _ _ = _
  simp only [EStateM.bind, Exec.popWord_push]
  show EStateM.bind Exec.popWord _ _ = _
  simp only [EStateM.bind, Exec.popWord_push]
  rfl

theorem Exec.divide_at (f : Int32 → Int32 → Int32) (m : Machine) (ip : Nat) (s : Array Word)
    (a b : Word) :
    Exec.divide f (m.at_ ip ((s.push a).push b)) =
      if b = 0 then .error .divisionByZero (m.at_ ip s)
      else .ok () (m.at_ ip (s.push (f a.toInt32 b.toInt32).toUInt32)) := by
  show EStateM.bind Exec.popWord _ _ = _
  simp only [EStateM.bind, Exec.popWord_push]
  show EStateM.bind Exec.popWord _ _ = _
  simp only [EStateM.bind, Exec.popWord_push]
  by_cases hb : b = 0
  · rw [if_pos hb, if_pos hb]
    rfl
  · rw [if_neg hb, if_neg hb]
    rfl

theorem Exec.equal_at (expected : Bool) (m : Machine) (ip : Nat) (s : Array Word) (a b : Word) :
    Exec.equal 1 expected (m.at_ ip ((s.push a).push b)) =
      .ok () (m.at_ ip (s.push (Word.ofBool ((a == b) == expected)))) := by
  have hsize : (m.at_ ip ((s.push a).push b)).stack.size = s.size + 1 + 1 := by
    show ((s.push a).push b).size = _
    simp
  have htop : Exec.top 1 (m.at_ ip ((s.push a).push b)) =
      .ok (s.size + 1) (m.at_ ip ((s.push a).push b)) := by
    rw [Exec.top, hsize, if_pos (by omega), Nat.add_sub_cancel]
  have hx : Words.run ((s.push a).push b) s.size 1 = #[a] := by
    refine Words.run_one ?_
    rw [Array.getElem?_push, Array.size_push, if_neg (by omega), Array.getElem?_push_size]
  have hy : Words.run ((s.push a).push b) (s.size + 1) 1 = #[b] := by
    refine Words.run_one ?_
    rw [← Array.size_push a, Array.getElem?_push_size]
  -- the operands are compared as runs of one word each
  have hbelow : Exec.below (s.size + 1) 1 (m.at_ ip ((s.push a).push b)) =
      .ok s.size (m.at_ ip ((s.push a).push b)) := by
    rw [Exec.below, if_pos (by omega), Nat.add_sub_cancel]
    rfl
  have hshrink : ((s.push a).push b).shrink s.size = s := by
    rw [Array.push_eq_append, Array.push_eq_append, Array.append_assoc, Words.shrink_append]
  show EStateM.bind (Exec.top 1) _ _ = _
  simp only [EStateM.bind, htop]
  show EStateM.bind (Exec.below (s.size + 1) 1) _ _ = _
  simp only [EStateM.bind, hbelow]
  show EStateM.Result.ok () (m.at_ ip ((((s.push a).push b).shrink s.size).push (Word.ofBool
    ((Words.run ((s.push a).push b) s.size 1 == Words.run ((s.push a).push b) (s.size + 1) 1) ==
      expected)))) = _
  rw [hx, hy, hshrink]
  have hbeq : (#[a] == #[b]) = (a == b) := by
    rw [Bool.eq_iff_iff, beq_iff_eq, beq_iff_eq]
    simp
  rw [hbeq]

theorem UnaryOp.leads {op : UnaryOp} (hP : p.chunks[m.chunk]? = some P)
    (hi : P.code[ip]? = some (.ofOpcode op.opcode)) (h : op.apply a = .ok v) :
    Exec.Leads p time 1 (m.at_ ip (s.push a.word)) (m.at_ (ip + 1) (s.push v.word)) := by
  cases op <;> cases a <;> cases h
  · refine Exec.leads_of_perform hP hi (Instruction.opcode?_ofOpcode _) rfl ?_
    rw [Exec.unary_at]
    congr 3
  · refine Exec.leads_of_perform hP hi (Instruction.opcode?_ofOpcode _) rfl ?_
    rw [Exec.unary_at, Value.word, Word.toBool_ofBool]
    rfl

/-- What the machine does at the instruction of an operator. -/
def BinaryOp.effect : BinaryOp → Exec Unit
  | or => Exec.binary fun a b => Word.ofBool (a.toBool || b.toBool)
  | and => Exec.binary fun a b => Word.ofBool (a.toBool && b.toBool)
  | equal => Exec.equal 1 true
  | notEqual => Exec.equal 1 false
  | less => Exec.compareInt fun a b => a < b
  | lessEqual => Exec.compareInt fun a b => a ≤ b
  | greater => Exec.compareInt fun a b => b < a
  | greaterEqual => Exec.compareInt fun a b => b ≤ a
  | add => Exec.binary (· + ·)
  | subtract => Exec.binary (· - ·)
  | multiply => Exec.binary (· * ·)
  | divide => Exec.divide (· / ·)
  | remainder => Exec.divide (· % ·)

theorem BinaryOp.perform_instruction (op : BinaryOp) (p : Program) (P : Chunk) (time : Float) :
    ∃ o, op.instruction.opcode? = some o ∧
      Exec.perform p P time op.instruction o = Exec.continuing op.effect := by
  cases op <;> exact ⟨_, Instruction.opcode?_ofOpcode _, rfl⟩

/-- Values of one type are equal exactly when their words are. -/
theorem Value.word_beq_int (a b : Int32) : ((int a).word == (int b).word) = (a == b) := by
  rw [Bool.eq_iff_iff, beq_iff_eq, beq_iff_eq]
  constructor
  · intro h
    cases a
    cases b
    cases h
    rfl
  · rintro rfl
    rfl

theorem Value.word_beq_bool (a b : Bool) : ((bool a).word == (bool b).word) = (a == b) := by
  cases a <;> cases b <;> rfl

/-- A number is zero exactly when its word is. -/
theorem Value.word_eq_zero (b : Int32) : (int b).word = 0 ↔ b = 0 := by
  have h := word_beq_int b 0
  rw [Bool.eq_iff_iff, beq_iff_eq, beq_iff_eq] at h
  exact h

theorem BinaryOp.effect_eq_ok {op : BinaryOp} (h : op.apply a b = .ok v) :
    op.effect (m.at_ ip ((s.push a.word).push b.word)) = .ok () (m.at_ ip (s.push v.word)) := by
  cases op
  case or | and =>
    cases a <;> cases b <;> cases h
    rw [effect, Exec.binary_at, Value.word, Value.word, Word.toBool_ofBool, Word.toBool_ofBool]
    rfl
  case equal =>
    cases a <;> cases b <;> cases h
    · rw [effect, Exec.equal_at, Value.word_beq_int]
      simp [Value.word]
    · rw [effect, Exec.equal_at, Value.word_beq_bool]
      simp [Value.word]
  case notEqual =>
    cases a <;> cases b <;> cases h
    · rw [effect, Exec.equal_at, Value.word_beq_int]
      simp [Value.word, bne]
    · rw [effect, Exec.equal_at, Value.word_beq_bool]
      simp [Value.word, bne]
  case less | lessEqual | greater | greaterEqual | add | subtract | multiply =>
    cases a <;> cases b <;> cases h
    exact Exec.binary_at ..
  case divide | remainder =>
    cases a <;> cases b <;> simp only [apply, reduceCtorEq] at h
    split at h
    · cases h
    · next hb =>
      cases h
      rw [effect, Exec.divide_at, if_neg (mt (Value.word_eq_zero _).mp hb)]
      rfl

theorem BinaryOp.effect_eq_error {op : BinaryOp} (h : op.apply a b = .error .divisionByZero) :
    op.effect (m.at_ ip ((s.push a.word).push b.word)) = .error .divisionByZero (m.at_ ip s) := by
  cases op
  case divide | remainder =>
    cases a <;> cases b <;> simp only [apply] at h
    · split at h
      · next hb => rw [effect, Exec.divide_at, if_pos ((Value.word_eq_zero _).mpr hb)]
      · cases h
    all_goals cases h
  -- no other operator divides
  all_goals cases a <;> cases b <;> cases h

/-- The instruction of an operator does what the operator does. -/
theorem BinaryOp.leads {op : BinaryOp} (hP : p.chunks[m.chunk]? = some P)
    (hi : P.code[ip]? = some op.instruction) (h : op.apply a b = .ok v) :
    Exec.Leads p time 1 (m.at_ ip ((s.push a.word).push b.word))
      (m.at_ (ip + 1) (s.push v.word)) := by
  obtain ⟨o, ho, hperform⟩ := op.perform_instruction p P time
  exact Exec.leads_of_perform hP hi ho hperform (effect_eq_ok h)

theorem BinaryOp.faultsWith {op : BinaryOp} (hP : p.chunks[m.chunk]? = some P)
    (hi : P.code[ip]? = some op.instruction) (h : op.apply a b = .error .divisionByZero) :
    (m.at_ ip ((s.push a.word).push b.word)).FaultsWith p time .divisionByZero := by
  obtain ⟨o, ho, hperform⟩ := op.perform_instruction p P time
  refine ⟨0, _, m.at_ (ip + 1) s, rfl, ?_⟩
  rw [Exec.step_at hP hi ho, hperform]
  show EStateM.bind op.effect _ _ = _
  simp only [EStateM.bind, effect_eq_error h]

/-- An operator that takes values of these types gives a value of its type, or divides by zero. -/
theorem BinaryOp.apply_of_type? {op : BinaryOp} {ty : Scalar}
    (h : op.type? a.scalar b.scalar = some ty) :
    (∃ v, op.apply a b = .ok v ∧ v.scalar = ty) ∨ op.apply a b = .error .divisionByZero := by
  cases op
  case divide =>
    cases a <;> cases b <;> cases h
    simp only [apply]
    split
    · exact .inr rfl
    · exact .inl ⟨_, rfl, rfl⟩
  case remainder =>
    cases a <;> cases b <;> cases h
    simp only [apply]
    split
    · exact .inr rfl
    · exact .inl ⟨_, rfl, rfl⟩
  all_goals
    cases a <;> cases b <;> cases h
    all_goals exact .inl ⟨_, rfl, rfl⟩

theorem UnaryOp.apply_of_scalar {op : UnaryOp} (h : a.scalar = op.scalar) :
    ∃ v, op.apply a = .ok v ∧ v.scalar = a.scalar := by
  cases op <;> cases a <;> cases h
  · exact ⟨_, rfl, rfl⟩
  · exact ⟨_, rfl, rfl⟩

end Operators

namespace Chunk

variable {P c c₁ c₂ : Chunk} {i : Instruction}

theorem extends_push (c : Chunk) (i : Instruction) : c.Extends (c.push i) := by
  refine ⟨?_, List.prefix_refl _⟩
  rw [push, Array.toList_push]
  exact List.prefix_append _ _

theorem Holds.push (h : P.Holds c (c₁.push i)) (h₁ : c.Extends c₁) :
    P.code[c₁.code.size]? = some i := by
  have hsize : (c₁.push i).code.size = c₁.code.size + 1 := Array.size_push _
  rw [h.code _ h₁.size_le (by omega)]
  exact Array.getElem?_push_size

/-- The instruction that loads a number has it as its operand or as a constant. -/
theorem load?_eq_some {w : Word} (h : c.load? w = some c₁) :
    ∃ (c₀ : Chunk) (i : Instruction), c₁ = c₀.push i ∧ c₀.code = c.code ∧ c.constants.toList <+: c₀.constants.toList ∧
      (i = .ofImmediate .pushImmediate w.toInt ∧ Instruction.immediateMin ≤ w.toInt ∧
          w.toInt ≤ Instruction.immediateMax ∨
        ∃ k, k < 65536 ∧ i = .ofByteShort .loadConstant 0 (UInt16.ofNat k) ∧
          c₀.constants[k]? = some w) := by
  rw [load?] at h
  split at h
  -- a small number is the operand itself
  · next hbounds =>
    cases h
    exact ⟨c, _, rfl, rfl, List.prefix_refl _, .inl ⟨rfl, hbounds⟩⟩
  · split at h
    · next k hfind =>
      split at h
      · next hk =>
        cases h
        obtain ⟨hlt, hw, -⟩ := Array.findIdx?_eq_some_iff_getElem.mp hfind
        refine ⟨c, _, rfl, rfl, List.prefix_refl _, .inr ⟨k, hk, rfl, ?_⟩⟩
        rw [Array.getElem?_eq_getElem hlt, eq_of_beq hw]
      · cases h
    · split at h
      · next hk =>
        cases h
        refine ⟨{ c with constants := c.constants ++ #[w] }, _, rfl, rfl, ?_, .inr ⟨_, hk, rfl, ?_⟩⟩
        · rw [Array.toList_append]
          exact List.prefix_append _ _
        · rw [← Array.push_eq_append, Array.getElem?_push_size]
      · cases h

theorem load?_extends {w : Word} (h : c.load? w = some c₁) : c.Extends c₁ := by
  obtain ⟨c₀, i, rfl, hcode, hconstants, -⟩ := load?_eq_some h
  have hc₀ : c.Extends c₀ := ⟨by rewrite [hcode]; exact List.prefix_refl _, hconstants⟩
  exact hc₀.trans (extends_push c₀ i)

/-- The code that loads a number. -/
theorem Holds.load {w : Word} (h : P.Holds c c₁) (hload : c.load? w = some c₁) {p : Program}
    {time : Float} {m : Machine} (hP : p.chunks[m.chunk]? = some P) (s : Array Word) :
    Exec.Leads p time 1 (m.at_ c.code.size s) (m.at_ c₁.code.size (s.push w)) := by
  obtain ⟨c₀, i, rfl, hcode, hconstants, hi⟩ := load?_eq_some hload
  have hc₀ : c.Extends c₀ := ⟨by rewrite [hcode]; exact List.prefix_refl _, hconstants⟩
  have hat := h.push hc₀
  have hsize : (c₀.push i).code.size = c.code.size + 1 := by
    rw [← hcode]
    exact Array.size_push _
  rw [hcode] at hat
  rw [hsize]
  obtain ⟨rfl, hlo, hhi⟩ | ⟨k, hk, rfl, hw⟩ := hi
  · have hleads : Exec.Leads p time 1 (m.at_ c.code.size s) _ :=
      Exec.leads_pushImmediate hP hat hlo hhi
    rwa [Word.ofInt_toInt] at hleads
  · refine Exec.leads_loadConstant hP hat hk ?_
    rw [getElem?_of_extends h.constants (Array.getElem?_eq_some_iff.mp hw).1]
    exact hw

end Chunk

namespace Tree

variable {Γ : Context} {e : Tree} {c c' P : Chunk} {ty : Scalar}

/-- The code of a tree is added to what is there. -/
theorem emit?_extends (h : e.emit? Γ c = some (ty, c')) : c.Extends c' := by
  induction e generalizing c ty c' with
  | number w =>
    obtain ⟨c₁, hload, heq⟩ := Option.map_eq_some_iff.mp h
    cases heq
    exact Chunk.load?_extends hload
  | truth b =>
    cases h
    exact Chunk.extends_push _ _
  | name x =>
    obtain ⟨s, hslot, h⟩ := Option.bind_eq_some_iff.mp h
    split at h
    · cases h
      exact Chunk.extends_push _ _
    · cases h
  | unary op e ih =>
    obtain ⟨⟨ty₁, c₁⟩, he, h⟩ := Option.bind_eq_some_iff.mp h
    split at h
    · cases h
      exact (ih he).trans (Chunk.extends_push _ _)
    · cases h
  | binary op l r ihl ihr =>
    obtain ⟨⟨a, c₁⟩, hl, h⟩ := Option.bind_eq_some_iff.mp h
    obtain ⟨⟨b, c₂⟩, hr, h⟩ := Option.bind_eq_some_iff.mp h
    obtain ⟨ty', hty, heq⟩ := Option.map_eq_some_iff.mp h
    cases heq
    exact ((ihl hl).trans (ihr hr)).trans (Chunk.extends_push _ _)

/-- The machine comes from `ip` to `ip'` with the value of the tree on top of the stack, or to a
division by zero if the tree does. -/
def Computes (p : Program) (time : Float) (m : Machine) (σ : Store) (e : Tree) (ty : Scalar)
    (ip ip' : Nat) (t : Array Word) : Prop :=
  (∃ v n, e.eval σ = .ok v ∧ v.scalar = ty ∧ 0 < n ∧
    Exec.Leads p time n (m.at_ ip (σ.words ++ t)) (m.at_ ip' (σ.words ++ t.push v.word))) ∨
  e.eval σ = .error .divisionByZero ∧
    (m.at_ ip (σ.words ++ t)).FaultsWith p time .divisionByZero

variable {p : Program} {time : Float} {m : Machine} {σ : Store}

/-- The code of a tree computes its value. -/
theorem computes (hP : p.chunks[m.chunk]? = some P) (h : e.emit? σ.types c = some (ty, c'))
    (hholds : P.Holds c c') (t : Array Word) :
    e.Computes p time m σ ty c.code.size c'.code.size t := by
  induction e generalizing c ty c' t with
  | number w =>
    obtain ⟨c₁, hload, heq⟩ := Option.map_eq_some_iff.mp h
    cases heq
    refine .inl ⟨.int w.toInt32, 1, rfl, rfl, Nat.one_pos, ?_⟩
    rw [Array.append_push]
    exact hholds.load hload hP _
  | truth b =>
    cases h
    have hat := hholds.push (Chunk.Extends.refl c)
    have hsize : (c.push (.ofImmediate .pushImmediate (if b then 1 else 0))).code.size =
        c.code.size + 1 := Array.size_push _
    refine .inl ⟨.bool b, 1, rfl, rfl, Nat.one_pos, ?_⟩
    rw [Array.append_push, hsize]
    cases b <;> exact Exec.leads_pushImmediate hP hat (by decide) (by decide)
  | name x =>
    obtain ⟨⟨ty₁, k⟩, hslot, h⟩ := Option.bind_eq_some_iff.mp h
    split at h
    · next hk =>
      cases h
      rw [Store.slot?_types] at hslot
      obtain ⟨⟨v, k⟩, hv, heq⟩ := Option.map_eq_some_iff.mp hslot
      cases heq
      have hat := hholds.push (Chunk.Extends.refl c)
      have hsize : (c.push (.ofByteShort .loadGlobal 1 (UInt16.ofNat k))).code.size =
          c.code.size + 1 := Array.size_push _
      have heval : (Tree.name x).eval σ = .ok v := by
        rw [eval, lookup_eq_slot?, hv]
        rfl
      refine .inl ⟨v, 1, heval, rfl, Nat.one_pos, ?_⟩
      rw [Array.append_push, hsize]
      refine Exec.leads_loadGlobal hP hat hk ?_
      rw [Array.getElem?_append_left (by rw [Store.size_words]; exact slot?_lt hv)]
      exact Store.getElem?_words hv
    · cases h
  | unary op e ih =>
    obtain ⟨⟨ty₁, c₁⟩, he, h⟩ := Option.bind_eq_some_iff.mp h
    split at h
    · next hty =>
      cases h
      have hat := hholds.push (emit?_extends he)
      have hsize : (c₁.push (.ofOpcode op.opcode)).code.size = c₁.code.size + 1 := Array.size_push _
      rw [hsize]
      obtain ⟨a, n, heval, hscalar, hn, hleads⟩ | ⟨heval, hfault⟩ :=
        ih he (hholds.left (Chunk.extends_push _ _)) t
      · obtain ⟨v, happly, hv⟩ := UnaryOp.apply_of_scalar (hscalar.trans hty)
        refine .inl ⟨v, n + 1, ?_, hv.trans hscalar, Nat.succ_pos n, hleads.trans ?_⟩
        · rw [eval, heval]
          exact happly
        · rw [Array.append_push, Array.append_push]
          exact op.leads hP hat happly
      · refine .inr ⟨?_, hfault⟩
        rw [eval, heval]
        rfl
    · cases h
  | binary op l r ihl ihr =>
    obtain ⟨⟨a, c₁⟩, hl, h⟩ := Option.bind_eq_some_iff.mp h
    obtain ⟨⟨b, c₂⟩, hr, h⟩ := Option.bind_eq_some_iff.mp h
    obtain ⟨ty', hty, heq⟩ := Option.map_eq_some_iff.mp h
    cases heq
    have hpush : c₂.Extends (c₂.push op.instruction) := Chunk.extends_push _ _
    have hat := hholds.push ((emit?_extends hl).trans (emit?_extends hr))
    have hsize : (c₂.push op.instruction).code.size = c₂.code.size + 1 := Array.size_push _
    rw [hsize]
    -- the left value waits on the stack while the right one is computed
    obtain ⟨x, n, hx, hxty, hn, hleft⟩ | ⟨hx, hfault⟩ :=
      ihl hl (hholds.left ((emit?_extends hr).trans hpush)) t
    · obtain ⟨y, k, hy, hyty, hk, hright⟩ | ⟨hy, hfault⟩ :=
        ihr hr ((hholds.right (emit?_extends hl)).left hpush) (t.push x.word)
      · rw [← hxty, ← hyty] at hty
        obtain ⟨v, happly, hv⟩ | happly := BinaryOp.apply_of_type? hty
        · refine .inl ⟨v, n + k + 1, ?_, hv, Nat.succ_pos _, (hleft.trans hright).trans ?_⟩
          · rw [eval, hx]
            show (do let b ← r.eval σ; op.apply x b) = _
            rw [hy]
            exact happly
          · rw [Array.append_push, Array.append_push, Array.append_push]
            exact op.leads hP hat happly
        · refine .inr ⟨?_, .of_leads (hleft.trans hright) ?_⟩
          · rw [eval, hx]
            show (do let b ← r.eval σ; op.apply x b) = _
            rw [hy]
            exact happly
          · rw [Array.append_push, Array.append_push]
            exact op.faultsWith hP hat happly
      · refine .inr ⟨?_, .of_leads hleft hfault⟩
        rw [eval, hx]
        show (do let b ← r.eval σ; op.apply x b) = _
        rw [hy]
        rfl
    · refine .inr ⟨?_, hfault⟩
      rw [eval, hx]
      rfl

/-- The code of a tree between statements, when nothing waits on the stack. -/
theorem computes_value (hP : p.chunks[m.chunk]? = some P)
    (h : e.emit? σ.types c = some (ty, c')) (hholds : P.Holds c c') (time : Float) :
    (∃ v n, e.eval σ = .ok v ∧ v.scalar = ty ∧ 0 < n ∧
      Exec.Leads p time n (m.at_ c.code.size σ.words) (m.at_ c'.code.size (σ.words.push v.word))) ∨
    e.eval σ = .error .divisionByZero ∧
      (m.at_ c.code.size σ.words).FaultsWith p time .divisionByZero := by
  have hcomputes : e.Computes p time m σ ty c.code.size c'.code.size #[] :=
    computes hP h hholds #[]
  simp only [Computes, Array.append_push, Array.append_empty] at hcomputes
  exact hcomputes

end Tree

end WordScript
