/-
Runs of the machine, instruction by instruction.

A run is a number of instructions after each of which control goes on, and then one
at which it stops or faults.  Since the machine is deterministic, what a run with
enough fuel ends in is what any run that ends can end in.

The second half says what the instructions of expressions and statements over
single words do to the stack.

* `Exec.Leads` — control goes on from one machine to another;
* `Machine.Halts`, `Machine.FaultsWith` — how a machine comes to its end;
* `Machine.run_eq_halted_iff`, `run_eq_error_iff` — the same of runs with fuel.
-/
import WordScript.Proofs.Operands
import WordScript.Proofs.StackSafety

namespace WordScript

namespace Words

variable {s : Array Word} {k : Nat} {v w : Word}

theorem run_one (h : s[k]? = some w) : run s k 1 = #[w] := by
  obtain ⟨hlt, hget⟩ := Array.getElem?_eq_some_iff.mp h
  rw [run, Array.extract_succ_right (Nat.lt_succ_self k) hlt, hget,
    Array.extract_empty_of_stop_le_start (Nat.le_refl k)]
  rfl

theorem shrink_append (s t : Array Word) : (s ++ t).shrink s.size = s := by
  rw [Array.shrink_eq_take]
  simp

theorem shrink_push (s : Array Word) (w : Word) : (s.push w).shrink s.size = s := by
  rw [Array.shrink_eq_take]
  simp

theorem setIfInBounds_push_of_lt (h : k < s.size) :
    (s.push w).setIfInBounds k v = (s.setIfInBounds k v).push w := by
  refine Array.ext_getElem? fun i => ?_
  rw [Array.getElem?_setIfInBounds, Array.getElem?_push, Array.getElem?_push,
    Array.getElem?_setIfInBounds]
  grind

end Words

namespace Exec

variable {p : Program} {time : Float} {m m₁ m₂ : Machine} {n k : Nat}

/-- A number of instructions lead from one machine to another. -/
def Leads (p : Program) (time : Float) : Nat → Machine → Machine → Prop
  | 0, m, m' => m = m'
  | n + 1, m, m' => ∃ m₁, step p time m = .ok .next m₁ ∧ Leads p time n m₁ m'

theorem Leads.refl (p : Program) (time : Float) (m : Machine) : Leads p time 0 m m := rfl

theorem Leads.one (h : step p time m = .ok .next m₁) : Leads p time 1 m m₁ := ⟨m₁, h, rfl⟩

theorem Leads.trans (h₁ : Leads p time n m m₁) (h₂ : Leads p time k m₁ m₂) :
    Leads p time (n + k) m m₂ := by
  induction n generalizing m with
  | zero =>
    obtain rfl : m = m₁ := h₁
    rwa [Nat.zero_add]
  | succ n ih =>
    obtain ⟨m', hstep, h₁⟩ := h₁
    rw [Nat.succ_add]
    exact ⟨m', hstep, ih h₁⟩

/-- Two runs from one machine lie one after the other. -/
theorem Leads.sub (h₁ : Leads p time n m m₁) (h₂ : Leads p time k m m₂) (hle : n ≤ k) :
    Leads p time (k - n) m₁ m₂ := by
  induction n generalizing m k with
  | zero =>
    obtain rfl : m = m₁ := h₁
    exact h₂
  | succ n ih =>
    obtain ⟨m', hstep, h₁⟩ := h₁
    obtain ⟨k, rfl⟩ := Nat.exists_eq_succ_of_ne_zero (by omega : k ≠ 0)
    obtain ⟨m'', hstep', h₂⟩ := h₂
    rw [hstep] at hstep'
    cases hstep'
    rw [Nat.succ_sub_succ]
    exact ih h₁ h₂ (Nat.le_of_succ_le_succ hle)

/-- No run goes on past a machine at which control does not. -/
theorem Leads.le_of_last (h₁ : Leads p time n m m₁) (hlast : ∀ m', step p time m₁ ≠ .ok .next m')
    (h₂ : Leads p time k m m₂) : k ≤ n := by
  by_cases hle : k ≤ n
  · exact hle
  · have hrest := h₁.sub h₂ (by omega)
    obtain ⟨j, hj⟩ := Nat.exists_eq_succ_of_ne_zero (by omega : k - n ≠ 0)
    rw [hj] at hrest
    obtain ⟨m', hstep, -⟩ := hrest
    exact absurd hstep (hlast m')

/-- There is one machine at which control does not go on. -/
theorem Leads.last_unique (h₁ : Leads p time n m m₁) (hlast₁ : ∀ m', step p time m₁ ≠ .ok .next m')
    (h₂ : Leads p time k m m₂) (hlast₂ : ∀ m', step p time m₂ ≠ .ok .next m') : m₁ = m₂ := by
  have hn : k = n := Nat.le_antisymm (h₁.le_of_last hlast₁ h₂) (h₂.le_of_last hlast₂ h₁)
  subst hn
  have hrest := h₁.sub h₂ (Nat.le_refl _)
  rwa [Nat.sub_self] at hrest

/-- Instructions after which control goes on only use up fuel. -/
theorem Leads.execute_add (h : Leads p time n m m₁) (k : Nat) :
    execute p time (n + k) m = execute p time k m₁ := by
  induction n generalizing m with
  | zero =>
    obtain rfl : m = m₁ := h
    rw [Nat.zero_add]
  | succ n ih =>
    obtain ⟨m', hstep, h⟩ := h
    rw [Nat.succ_add, execute]
    show EStateM.bind (step p time) _ m = _
    simp only [EStateM.bind, hstep]
    exact ih h

end Exec

namespace Machine

variable {p : Program} {time : Float} {m m₁ m₂ : Machine}

/-- The machine comes to a stop and is then `m₁`. -/
def Halts (p : Program) (time : Float) (m m₁ : Machine) : Prop :=
  ∃ n m', Exec.Leads p time n m m' ∧ Exec.step p time m' = .ok .stop m₁

/-- The machine comes to a fault. -/
def FaultsWith (p : Program) (time : Float) (m : Machine) (f : Fault) : Prop :=
  ∃ n m' m₁, Exec.Leads p time n m m' ∧ Exec.step p time m' = .error f m₁

/-- The machine executes at least `n` instructions and goes on. -/
def RunsFor (p : Program) (time : Float) (n : Nat) (m : Machine) : Prop :=
  ∃ k m', n ≤ k ∧ Exec.Leads p time k m m'

theorem Halts.of_leads {n : Nat} (h : Exec.Leads p time n m m₁) (h₁ : m₁.Halts p time m₂) :
    m.Halts p time m₂ := by
  obtain ⟨k, m', hleads, hstop⟩ := h₁
  exact ⟨n + k, m', h.trans hleads, hstop⟩

theorem FaultsWith.of_leads {n : Nat} {f : Fault} (h : Exec.Leads p time n m m₁)
    (h₁ : m₁.FaultsWith p time f) : m.FaultsWith p time f := by
  obtain ⟨k, m', m₂, hleads, hfault⟩ := h₁
  exact ⟨n + k, m', m₂, h.trans hleads, hfault⟩

theorem RunsFor.of_leads {n k : Nat} (h : Exec.Leads p time n m m₁) (h₁ : m₁.RunsFor p time k) :
    m.RunsFor p time (n + k) := by
  obtain ⟨j, m', hj, hleads⟩ := h₁
  exact ⟨n + j, m', Nat.add_le_add_left hj n, h.trans hleads⟩

theorem RunsFor.mono {n k : Nat} (h : m.RunsFor p time n) (hk : k ≤ n) : m.RunsFor p time k := by
  obtain ⟨j, m', hj, hleads⟩ := h
  exact ⟨j, m', Nat.le_trans hk hj, hleads⟩

/-- The instructions that lead there only come on top. -/
theorem RunsFor.behind {n k : Nat} (h₁ : m₁.RunsFor p time k) (h : Exec.Leads p time n m m₁) :
    m.RunsFor p time k :=
  (h₁.of_leads h).mono (Nat.le_add_left k n)

/-- Execution ends in a stop exactly when the machine comes to it. -/
theorem execute_eq_true_iff :
    (∃ fuel, Exec.execute p time fuel m = .ok true m₂) ↔ m.Halts p time m₂ := by
  constructor
  · rintro ⟨fuel, hexecute⟩
    -- the fuel that is left counts the instructions up to the stop
    induction fuel generalizing m with
    | zero => cases hexecute
    | succ fuel ih =>
      rw [Exec.execute] at hexecute
      change EStateM.bind (Exec.step p time) _ m = _ at hexecute
      simp only [EStateM.bind] at hexecute
      cases hstep : Exec.step p time m with
      | error f m' =>
        rw [hstep] at hexecute
        cases hexecute
      | ok flow m' =>
        rw [hstep] at hexecute
        cases flow with
        | stop =>
          cases hexecute
          exact ⟨0, m, rfl, hstep⟩
        | next => exact Halts.of_leads (.one hstep) (ih hexecute)
  · rintro ⟨n, m', hleads, hstop⟩
    refine ⟨n + 1, ?_⟩
    rw [hleads.execute_add, Exec.execute]
    show EStateM.bind (Exec.step p time) _ m' = _
    simp only [EStateM.bind, hstop]
    rfl

/-- Execution ends in a fault exactly when the machine comes to it. -/
theorem execute_eq_error_iff {f : Fault} :
    (∃ fuel m₂, Exec.execute p time fuel m = .error f m₂) ↔ m.FaultsWith p time f := by
  constructor
  · rintro ⟨fuel, m₂, hexecute⟩
    induction fuel generalizing m with
    | zero => cases hexecute
    | succ fuel ih =>
      rw [Exec.execute] at hexecute
      change EStateM.bind (Exec.step p time) _ m = _ at hexecute
      simp only [EStateM.bind] at hexecute
      cases hstep : Exec.step p time m with
      | error f' m' =>
        rw [hstep] at hexecute
        cases hexecute
        exact ⟨0, m, m₂, rfl, hstep⟩
      | ok flow m' =>
        rw [hstep] at hexecute
        cases flow with
        | stop => cases hexecute
        | next => exact FaultsWith.of_leads (.one hstep) (ih hexecute)
  · rintro ⟨n, m', m₂, hleads, hfault⟩
    refine ⟨n + 1, m₂, ?_⟩
    rw [hleads.execute_add, Exec.execute]
    show EStateM.bind (Exec.step p time) _ m' = _
    simp only [EStateM.bind, hfault]

theorem run_eq_resume (hp : m.program = some p) (hstate : m.state = .running) (fuel : Nat) :
    m.run fuel time =
      match Exec.execute p time fuel m with
      | .ok false m => (.ok .outOfFuel, m)
      | .ok true m => (.ok (if m.state = .halt then .halted else .suspended), m)
      | .error fault m => (m.brokenOff p fault, { m with state := .halt }) := by
  have hm : ({ m with state := .running } : Machine) = m := by
    cases m
    cases hstate
    rfl
  rw [run, hp]
  simp only [hstate]
  rewrite [resume, hm]
  rfl

/-- A run halts exactly when the machine comes to a stop at a halt. -/
theorem run_eq_halted_iff (hp : m.program = some p) (hstate : m.state = .running) :
    (∃ fuel, m.run fuel time = (.ok .halted, m₂)) ↔ m₂.state = .halt ∧ m.Halts p time m₂ := by
  rw [← execute_eq_true_iff]
  constructor
  · rintro ⟨fuel, hrun⟩
    rw [run_eq_resume hp hstate] at hrun
    split at hrun
    · cases hrun
    · next m' hexecute =>
      obtain ⟨hresult, rfl⟩ := Prod.mk.inj hrun
      by_cases hhalt : m'.state = .halt
      · exact ⟨hhalt, fuel, hexecute⟩
      · rw [if_neg hhalt] at hresult
        cases hresult
    · next fault m' _ =>
      have hresult : m'.brokenOff p fault = .ok .halted := (Prod.mk.inj hrun).1
      cases fault <;> cases hresult
  · rintro ⟨hhalt, fuel, hexecute⟩
    refine ⟨fuel, ?_⟩
    rw [run_eq_resume hp hstate, hexecute]
    simp only [if_pos hhalt]

/-- A run ends in a fault exactly when the machine comes to it.  A machine that panics does not end in
a fault. -/
theorem run_eq_error_iff (hp : m.program = some p) (hstate : m.state = .running) {f : Fault}
    (hf : f ≠ .overflow) :
    (∃ fuel e m₂, m.run fuel time = (.error e, m₂) ∧ e.fault = f) ↔ m.FaultsWith p time f := by
  rw [← execute_eq_error_iff]
  constructor
  · rintro ⟨fuel, e, m₂, hrun, rfl⟩
    rw [run_eq_resume hp hstate] at hrun
    split at hrun
    · cases hrun
    · cases hrun
    · next fault m' hexecute =>
      have hresult : m'.brokenOff p fault = .error e := (Prod.mk.inj hrun).1
      rw [fault_of_brokenOff hresult]
      exact ⟨fuel, m', hexecute⟩
  · rintro ⟨fuel, m₂, hexecute⟩
    refine ⟨fuel, { fault := f, callStack := m₂.callStack p }, { m₂ with state := .halt }, ?_, rfl⟩
    rw [run_eq_resume hp hstate, hexecute, ← m₂.brokenOff_of_ne p hf]

/-- A machine comes to one end. -/
theorem Halts.unique (h₁ : m.Halts p time m₁) (h₂ : m.Halts p time m₂) : m₁ = m₂ := by
  obtain ⟨n, a, hleads₁, hstop₁⟩ := h₁
  obtain ⟨k, b, hleads₂, hstop₂⟩ := h₂
  obtain rfl : a = b := hleads₁.last_unique (by simp [hstop₁]) hleads₂ (by simp [hstop₂])
  rw [hstop₁] at hstop₂
  cases hstop₂
  rfl

theorem Halts.not_faultsWith {f : Fault} (h₁ : m.Halts p time m₁) : ¬m.FaultsWith p time f := by
  rintro ⟨k, b, m₂, hleads₂, hfault⟩
  obtain ⟨n, a, hleads₁, hstop⟩ := h₁
  obtain rfl : a = b := hleads₁.last_unique (by simp [hstop]) hleads₂ (by simp [hfault])
  rw [hstop] at hfault
  cases hfault

/-- A machine that halts does not run on and on. -/
theorem Halts.exists_not_runsFor (h : m.Halts p time m₁) : ∃ n, ¬m.RunsFor p time n := by
  obtain ⟨n, a, hleads, hstop⟩ := h
  refine ⟨n + 1, ?_⟩
  rintro ⟨k, m', hk, hleads'⟩
  have hle := hleads.le_of_last (by simp [hstop]) hleads'
  omega

theorem FaultsWith.exists_not_runsFor {f : Fault} (h : m.FaultsWith p time f) :
    ∃ n, ¬m.RunsFor p time n := by
  obtain ⟨n, a, m₁, hleads, hfault⟩ := h
  refine ⟨n + 1, ?_⟩
  rintro ⟨k, m', hk, hleads'⟩
  have hle := hleads.le_of_last (by simp [hfault]) hleads'
  omega

/-- The stack at the end of a run that halts. -/
theorem Halts.run_iff (h : m.Halts p time m₁) (hhalt : m₁.state = .halt)
    (hp : m.program = some p) (hstate : m.state = .running) (stack : Array Word) :
    (∃ fuel m₂, m.run fuel time = (.ok .halted, m₂) ∧ m₂.stack = stack) ↔ stack = m₁.stack := by
  constructor
  · rintro ⟨fuel, m₂, hrun, rfl⟩
    obtain ⟨-, h₂⟩ := (run_eq_halted_iff hp hstate).mp ⟨fuel, hrun⟩
    rw [h.unique h₂]
  · rintro rfl
    obtain ⟨fuel, hrun⟩ := (run_eq_halted_iff hp hstate).mpr ⟨hhalt, h⟩
    exact ⟨fuel, m₁, hrun, rfl⟩

/-- The machine at another instruction and with another stack. -/
def at_ (m : Machine) (ip : Nat) (stack : Array Word) : Machine :=
  { m with ip, stack }

end Machine

namespace Exec

variable {p : Program} {P : Chunk} {time : Float} {m : Machine} {i : Instruction} {op : Opcode}
  {ip k : Nat} {s : Array Word} {w a b : Word}

theorem step_at (hP : p.chunks[m.chunk]? = some P) (hi : P.code[ip]? = some i)
    (hop : i.opcode? = some op) (s : Array Word) :
    step p time (m.at_ ip s) = perform p P time i op (m.at_ (ip + 1) s) :=
  Machine.step_eq (m := m.at_ ip s) hP hi hop

theorem continuing_eq_ok {x : Exec Unit} {m m₁ : Machine} (h : x m = .ok () m₁) :
    continuing x m = .ok .next m₁ := by
  show EStateM.bind x _ m = _
  simp only [EStateM.bind, h]
  rfl

/-- An instruction that goes on. -/
theorem leads_of_perform (hP : p.chunks[m.chunk]? = some P) (hi : P.code[ip]? = some i)
    (hop : i.opcode? = some op) {x : Exec Unit} {m₁ : Machine}
    (hperform : perform p P time i op = continuing x) (hx : x (m.at_ (ip + 1) s) = .ok () m₁) :
    Leads p time 1 (m.at_ ip s) m₁ := by
  refine .one ?_
  rw [step_at hP hi hop, hperform]
  exact continuing_eq_ok hx

theorem toNat_short (hk : k < 65536) : (UInt16.ofNat k).toNat = k :=
  UInt16.toNat_ofNat_of_lt' hk

theorem leads_pushImmediate (hP : p.chunks[m.chunk]? = some P) {v : Int}
    (hi : P.code[ip]? = some (.ofImmediate .pushImmediate v)) (hlo : Instruction.immediateMin ≤ v)
    (hhi : v ≤ Instruction.immediateMax) :
    Leads p time 1 (m.at_ ip s) (m.at_ (ip + 1) (s.push (Word.ofInt v))) := by
  refine leads_of_perform hP hi (Instruction.opcode?_ofImmediate _ _) rfl ?_
  rw [Instruction.immediate_ofImmediate _ hlo hhi]
  rfl

theorem leads_loadConstant (hP : p.chunks[m.chunk]? = some P)
    (hi : P.code[ip]? = some (.ofByteShort .loadConstant 0 (UInt16.ofNat k))) (hk : k < 65536)
    (hw : P.constants[k]? = some w) :
    Leads p time 1 (m.at_ ip s) (m.at_ (ip + 1) (s.push w)) := by
  refine leads_of_perform hP hi (Instruction.opcode?_ofByteShort _ _ _) rfl ?_
  simp only [Instruction.short_ofByteShort, toNat_short hk, hw]
  rfl

/-- A copy of a word of the stack. -/
theorem pushRun_at (m : Machine) (ip : Nat) (hw : s[k]? = some w) :
    pushRun k 1 (m.at_ ip s) = .ok () (m.at_ ip (s.push w)) := by
  have hlt : k < s.size := (Array.getElem?_eq_some_iff.mp hw).1
  rw [pushRun_eq (m := m.at_ ip s) hlt]
  show EStateM.Result.ok () (m.at_ ip (s ++ Words.run s k 1)) = _
  rw [Words.run_one hw]
  rfl

/-- A word goes from the top of the stack to a place further down. -/
theorem popInto_at (m : Machine) (ip : Nat) (hlt : k < s.size) :
    popInto k 1 (m.at_ ip (s.push w)) = .ok () (m.at_ ip (s.setIfInBounds k w)) := by
  have hroom : k + 1 + 1 ≤ (m.at_ ip (s.push w)).stack.size := by
    show k + 1 + 1 ≤ (s.push w).size
    rw [Array.size_push]
    omega
  have htop : Words.run (s.push w) ((s.push w).size - 1) 1 = #[w] := by
    rw [Array.size_push, Nat.add_sub_cancel]
    exact Words.run_one Array.getElem?_push_size
  have hsize : (s.push w).size - 1 = (s.setIfInBounds k w).size := by
    rw [Array.size_push, Nat.add_sub_cancel, Array.size_setIfInBounds]
  rw [popInto_eq hroom]
  show EStateM.Result.ok () (m.at_ ip ((Words.write (s.push w) k
    (Words.run (s.push w) ((s.push w).size - 1) 1).toList).shrink ((s.push w).size - 1))) = _
  rw [htop, Words.write, Words.write, Words.setIfInBounds_push_of_lt hlt, hsize, Words.shrink_push]

/-- Where the words on top of the stack begin. -/
theorem top_at (m : Machine) (ip : Nat) (s t : Array Word) :
    top t.size (m.at_ ip (s ++ t)) = .ok s.size (m.at_ ip (s ++ t)) := by
  have hle : t.size ≤ (m.at_ ip (s ++ t)).stack.size := by
    show t.size ≤ (s ++ t).size
    rw [Array.size_append]
    omega
  rw [top, if_pos hle]
  show EStateM.Result.ok ((s ++ t).size - t.size) _ = _
  rw [Array.size_append, Nat.add_sub_cancel]

theorem leads_loadGlobal (hP : p.chunks[m.chunk]? = some P)
    (hi : P.code[ip]? = some (.ofByteShort .loadGlobal 1 (UInt16.ofNat k))) (hk : k < 65536)
    (hw : s[k]? = some w) :
    Leads p time 1 (m.at_ ip s) (m.at_ (ip + 1) (s.push w)) := by
  refine leads_of_perform hP hi (Instruction.opcode?_ofByteShort _ _ _) rfl ?_
  rw [Instruction.short_ofByteShort, Instruction.a_ofByteShort, toNat_short hk]
  exact pushRun_at m (ip + 1) hw

theorem leads_storeGlobal (hP : p.chunks[m.chunk]? = some P)
    (hi : P.code[ip]? = some (.ofByteShort .storeGlobal 1 (UInt16.ofNat k))) (hk : k < 65536)
    (hlt : k < s.size) :
    Leads p time 1 (m.at_ ip (s.push w)) (m.at_ (ip + 1) (s.setIfInBounds k w)) := by
  refine leads_of_perform hP hi (Instruction.opcode?_ofByteShort _ _ _) rfl ?_
  rw [Instruction.short_ofByteShort, Instruction.a_ofByteShort, toNat_short hk]
  exact popInto_at m (ip + 1) hlt

/-- The removal of words. -/
theorem leads_pop (hP : p.chunks[m.chunk]? = some P) {t : Array Word}
    (hi : P.code[ip]? = some (.ofByteShort .pop 0 (UInt16.ofNat t.size))) (ht : t.size < 65536) :
    Leads p time 1 (m.at_ ip (s ++ t)) (m.at_ (ip + 1) s) := by
  refine leads_of_perform hP hi (Instruction.opcode?_ofByteShort _ _ _) rfl ?_
  rw [Instruction.short_ofByteShort, toNat_short ht]
  show EStateM.bind (top t.size) _ _ = _
  simp only [EStateM.bind, top_at]
  show EStateM.Result.ok () (m.at_ (ip + 1) ((s ++ t).shrink s.size)) = _
  rw [Words.shrink_append]

/-- A jump goes to its target. -/
theorem jump_at {t : Nat} (htarget : i.target ip = t) (ht : t ≤ P.code.size) :
    jump i P.code.size (m.at_ (ip + 1) s) = .ok () (m.at_ t s) := by
  have hto : (((m.at_ (ip + 1) s).ip : Int) + i.signedShort) = t := by
    rw [← htarget, Instruction.target]
    rfl
  have hin : ¬((t : Int) < 0 ∨ (P.code.size : Int) < t) := by omega
  simp only [jump, hto, if_neg hin, Int.toNat_natCast]
  rfl

theorem leads_jump (hP : p.chunks[m.chunk]? = some P) (hi : P.code[ip]? = some i)
    (hop : i.opcode? = some .jump) {t : Nat} (htarget : i.target ip = t) (ht : t ≤ P.code.size) :
    Leads p time 1 (m.at_ ip s) (m.at_ t s) :=
  leads_of_perform hP hi hop rfl (jump_at htarget ht)

theorem popWord_push (m : Machine) (ip : Nat) (s : Array Word) (w : Word) :
    popWord (m.at_ ip (s.push w)) = .ok w (m.at_ ip s) := by
  have hback : (m.at_ ip (s.push w)).stack.back? = some w := Array.back?_push
  simp only [popWord, hback]
  show EStateM.Result.ok w (m.at_ ip (s.push w).pop) = _
  rw [Array.pop_push]

/-- A conditional jump is taken from a zero. -/
theorem leads_jumpIfFalse (hP : p.chunks[m.chunk]? = some P) (hi : P.code[ip]? = some i)
    (hop : i.opcode? = some .jumpIfFalse) {t : Nat} (htarget : i.target ip = t)
    (ht : t ≤ P.code.size) :
    Leads p time 1 (m.at_ ip (s.push w)) (m.at_ (if w = 0 then t else ip + 1) s) := by
  refine leads_of_perform hP hi hop rfl ?_
  show EStateM.bind popWord _ _ = _
  simp only [EStateM.bind, popWord_push]
  by_cases hw : w = 0
  · rw [if_pos hw, if_pos hw]
    exact jump_at htarget ht
  · rw [if_neg hw, if_neg hw]
    rfl

/-- At a halt the machine stops with the stack that it has. -/
theorem halts_at (hP : p.chunks[m.chunk]? = some P)
    (hi : P.code[ip]? = some (.ofOpcode .halt)) (s : Array Word) :
    (m.at_ ip s).Halts p time { m.at_ (ip + 1) s with state := .halt } :=
  ⟨0, m.at_ ip s, rfl, step_at hP hi (Instruction.opcode?_ofOpcode .halt) s⟩

end Exec

/-- A program that passes is started at its first instruction and with nothing on the stack. -/
theorem Machine.boot_eq {p : Program} (h : p.verify = .ok ()) (m : Machine) :
    ∃ m₁, m.boot p = .ok m₁ ∧ m₁.program = some p ∧ m₁.state = .running ∧
      m₁.chunk = p.entryPoint.toNat ∧ m₁.at_ 0 #[] = m₁ := by
  rw [boot, h]
  exact ⟨_, rfl, rfl, rfl, rfl, rfl⟩

end WordScript
