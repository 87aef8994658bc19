/-
Runs of verified programs.

The verifier looks at the code alone, and the machine computes where control goes
from the code alone.  So a program that passes never blames its code when it runs,
whatever words lie on its stack and in its heap, and whatever its host does through
the helpers of the machine.  There is one exception.  The verifier lets a jump land
behind the last instruction of its chunk, and control that goes there has run past
the end.

* `Machine.Located` — control is inside a chunk, and so are the callers that wait;
* `Machine.Running.step`, `Machine.Waiting.hosted` — one instruction, and any number
  of runs with anything the host does between them;
* `inside_of_verified` — what holds of every verified program;
* `leaves_of_ranPastEnd` — only a jump behind the last instruction runs past the end.
-/
import WordScript.Proofs.Effects
import WordScript.Proofs.StackSafety

namespace WordScript

/-- A plain instruction that has been checked touches nothing but memory and does not blame the code,
and control goes on. -/
theorem Exec.perform_of_isPlain {p : Program} {c : Chunk} {k ip : Nat} {i : Instruction} {op : Opcode}
    (hplain : op.isPlain = true) (hop : i.opcode? = some op)
    (hcheck : p.checkInstruction k c ip i = .ok ()) (time : Float) (m : Machine) :
    match perform p c time i op m with
    | .ok flow m' => flow = .next ∧ m.Touches m'
    | .error f m' => m.Touches m' ∧ f.isOfCode = false := by
  have hacts : Acts true (perform p c time i op) :=
    acts_perform time (by rintro rfl; cases hplain) fun _ => ⟨hplain, hop, _, _, hcheck⟩
  obtain ⟨x, hx⟩ : ∃ x : Exec Unit, perform p c time i op = continuing x := by
    cases op <;> first | exact ⟨_, rfl⟩ | cases hplain
  have hends := hacts.ends m
  rw [hx] at hends ⊢
  have hcontinuing : continuing x m = EStateM.bind x (fun _ => pure Flow.next) m := rfl
  rw [hcontinuing, EStateM.bind] at hends ⊢
  cases hxm : x m with
  | ok a m' =>
    rw [hxm] at hends
    exact ⟨rfl, hends⟩
  | error f m' =>
    rw [hxm] at hends
    exact hends

/-! ### Control -/

/-- There is a jump that lands behind the last instruction. -/
def Chunk.Leaves (c : Chunk) : Prop :=
  ∃ (ip : Nat) (i : Instruction) (op : Opcode), c.code[ip]? = some i ∧ i.opcode? = some op ∧
    op.jumps = true ∧ i.target ip = c.code.size

theorem Instruction.terminates_eq {i : Instruction} {op : Opcode} (hop : i.opcode? = some op) :
    i.terminates = !op.fallsThrough := by
  rw [terminates, hop]
  cases op <;> rfl

namespace Program

variable {p : Program} {c : Chunk} {k ip : Nat} {i : Instruction} {op : Opcode}

/-- What is known of an instruction in a program that passes. -/
theorem checkInstruction_of_verify (h : p.verify = .ok ()) (hc : p.chunks[k]? = some c)
    (hi : c.code[ip]? = some i) :
    p.checkInstruction k c ip i = .ok () ∧ ∃ op, i.opcode? = some op := by
  have hchunk := (verify_eq_ok_iff.mp h).2 k c hc
  rw [checkChunk] at hchunk
  split at hchunk
  · cases hchunk
  · next hcode =>
    have hcheck := checkCode_eq_ok_iff.mp hcode ip i (by rw [Array.getElem?_toList]; exact hi)
    rw [Nat.zero_add] at hcheck
    refine ⟨hcheck, ?_⟩
    cases hop : i.opcode? with
    | none =>
      rw [checkInstruction, hop] at hcheck
      cases hcheck
    | some op => exact ⟨op, rfl⟩

/-- Control that goes on to the next instruction finds one. -/
theorem next_lt_of_verify (h : p.verify = .ok ()) (hc : p.chunks[k]? = some c)
    (hi : c.code[ip]? = some i) (hop : i.opcode? = some op) (hfalls : op.fallsThrough = true) :
    ip + 1 < c.code.size := by
  have hip : ip < c.code.size := (Array.getElem?_eq_some_iff.mp hi).1
  have hchunk := (verify_eq_ok_iff.mp h).2 k c hc
  rw [checkChunk] at hchunk
  split at hchunk
  · cases hchunk
  · split at hchunk
    · next hends =>
      by_cases hlast : ip + 1 = c.code.size
      · -- the last instruction would not fall through
        have hback : c.code.back? = some i := by
          rw [Array.back?_eq_getElem?, ← hlast, Nat.add_sub_cancel]
          exact hi
        rw [endsClosed, hback, Option.any_some, Instruction.terminates_eq hop, hfalls] at hends
        cases hends
      · omega
    · cases hchunk

/-- Every chunk has a first instruction. -/
theorem code_pos_of_verify (h : p.verify = .ok ()) (hc : p.chunks[k]? = some c) :
    0 < c.code.size := by
  have hchunk := (verify_eq_ok_iff.mp h).2 k c hc
  rw [checkChunk] at hchunk
  split at hchunk
  · cases hchunk
  · split at hchunk
    · next hends =>
      rw [endsClosed] at hends
      cases hback : c.code.back? with
      | none =>
        rw [hback] at hends
        cases hends
      | some i =>
        rw [Array.back?_eq_getElem?] at hback
        have hlt := (Array.getElem?_eq_some_iff.mp hback).1
        omega
    · cases hchunk

/-- A call goes to a chunk of the program. -/
theorem callee_lt_of_verify (h : p.verify = .ok ()) (hc : p.chunks[k]? = some c)
    (hi : c.code[ip]? = some i) (hop : i.opcode? = some .call) :
    i.short.toNat < p.chunks.size := by
  have hcheck := (checkInstruction_of_verify h hc hi).1
  rw [checkInstruction, hop] at hcheck
  simp only at hcheck
  split at hcheck
  · next hlt => exact hlt
  · cases hcheck

/-- A jump lands on an instruction, or behind the last one. -/
theorem target_of_verify (h : p.verify = .ok ()) (hc : p.chunks[k]? = some c)
    (hi : c.code[ip]? = some i) (hop : i.opcode? = some op) (hjumps : op.jumps = true) :
    ∃ t : Nat, i.target ip = t ∧ (t < c.code.size ∨ t = c.code.size ∧ c.Leaves) := by
  have hcheck := (checkInstruction_of_verify h hc hi).1
  have htarget : ¬(i.target ip < 0 ∨ (c.code.size : Int) < i.target ip) := by
    intro hout
    rw [checkInstruction, hop] at hcheck
    cases op with
    | jump | jumpIfFalse =>
      simp only [if_pos hout] at hcheck
      cases hcheck
    | _ => cases hjumps
  obtain ⟨t, ht⟩ : ∃ t : Nat, i.target ip = t := ⟨(i.target ip).toNat, by omega⟩
  refine ⟨t, ht, ?_⟩
  by_cases hlt : t < c.code.size
  · exact .inl hlt
  · have heq : t = c.code.size := by omega
    exact .inr ⟨heq, ip, i, op, hi, hop, hjumps, by rw [ht, heq]⟩

end Program

namespace Machine

/-- Control is in a chunk, and each caller that waits goes on with an instruction. -/
structure Located (p : Program) (m : Machine) : Prop where
  program : m.program = some p
  current : ∃ c, p.chunks[m.chunk]? = some c ∧ m.ip ≤ c.code.size
  frames : ∀ f ∈ m.frames, ∃ c, p.chunks[f.chunk]? = some c ∧ f.ip < c.code.size

/-- Control is at an instruction, or a jump has taken it behind the last one. -/
structure Running (p : Program) (m : Machine) : Prop extends m.Located p where
  leaves : ∀ c, p.chunks[m.chunk]? = some c → m.ip = c.code.size → c.Leaves

variable {p : Program} {m m' : Machine}

/-- What is done to memory does not move control. -/
theorem Located.touches (h : m.Located p) (ht : m.Touches m') : m'.Located p := by
  obtain ⟨stack, heap, heapConstants, log, rfl⟩ := ht
  exact ⟨h.program, h.current, h.frames⟩

theorem Running.touches (h : m.Running p) (ht : m.Touches m') : m'.Running p := by
  obtain ⟨stack, heap, heapConstants, log, rfl⟩ := ht
  exact ⟨h.toLocated.touches ⟨_, _, _, _, rfl⟩, h.leaves⟩

/-- A fault that can come from a program that passes. -/
def Explains (p : Program) (f : Fault) : Prop :=
  f.isOfCode = true → ∃ c ∈ p.chunks, c.Leaves ∧ f = .invalidProgram (.ranPastEnd c.name)

theorem explains_of_not {f : Fault} (h : f.isOfCode = false) : Explains p f := by
  intro hcode
  rw [h] at hcode
  cases hcode

/-- Where an instruction leads. -/
def StepsWithin (p : Program) : EStateM.Result Fault Machine Flow → Prop
  | .ok .next m' => m'.Running p
  | .ok .stop m' => m'.Located p ∧ (m'.state ≠ .halt → m'.Running p)
  | .error f m' => m'.Located p ∧ Explains p f

section Step

variable {c : Chunk} {i : Instruction} {op : Opcode} {time : Float}

/-- Another place in the chunk, for a machine that stops there. -/
theorem Located.moveTo {ip : Nat} (h : m.Located p) (hc : p.chunks[m.chunk]? = some c)
    (hip : ip ≤ c.code.size) : Located p { m with ip } :=
  ⟨h.program, ⟨c, hc, hip⟩, h.frames⟩

/-- Another place in the chunk, for a machine that goes on. -/
theorem Located.goTo {ip : Nat} (h : m.Located p) (hc : p.chunks[m.chunk]? = some c)
    (hip : ip < c.code.size ∨ ip = c.code.size ∧ c.Leaves) : Running p { m with ip } := by
  refine ⟨h.moveTo hc (by omega), fun c' hc' hend => ?_⟩
  obtain rfl : c = c' := Option.some_inj.mp (hc.symm.trans hc')
  have hend : ip = c.code.size := hend
  obtain hlt | ⟨-, hleaves⟩ := hip
  · omega
  · exact hleaves

/-- Plain instructions. -/
theorem Running.plain (h : m.Running p) {k ip : Nat} (hplain : op.isPlain = true)
    (hop : i.opcode? = some op) (hcheck : p.checkInstruction k c ip i = .ok ()) :
    StepsWithin p (Exec.perform p c time i op m) := by
  have hm := Exec.perform_of_isPlain hplain hop hcheck time m
  cases hxm : Exec.perform p c time i op m with
  | ok flow m' =>
    rw [hxm] at hm
    obtain ⟨rfl, htouches⟩ := hm
    exact h.touches htouches
  | error f m' =>
    rw [hxm] at hm
    exact ⟨h.toLocated.touches hm.1, explains_of_not hm.2⟩

/-- A jump that passes goes to its target. -/
theorem jump_of_verify (hverify : p.verify = .ok ()) (hc : p.chunks[m.chunk]? = some c)
    (hi : c.code[m.ip]? = some i) (hop : i.opcode? = some op) (hjumps : op.jumps = true)
    (stack : Array Word) :
    ∃ t, (t < c.code.size ∨ t = c.code.size ∧ c.Leaves) ∧
      Exec.jump i c.code.size { m with ip := m.ip + 1, stack } = .ok () { m with ip := t, stack } := by
  obtain ⟨t, ht, hin⟩ := Program.target_of_verify hverify hc hi hop hjumps
  refine ⟨t, hin, ?_⟩
  have htarget : ((m.ip + 1 : Nat) : Int) + i.signedShort = t := by
    rw [← ht, Instruction.target]
    omega
  have hout : ¬((t : Int) < 0 ∨ (c.code.size : Int) < t) := by omega
  simp only [Exec.jump, htarget, if_neg hout, Int.toNat_natCast]

theorem Located.step_jumpIfFalse (hverify : p.verify = .ok ()) (h : m.Located p)
    (hc : p.chunks[m.chunk]? = some c) (hi : c.code[m.ip]? = some i)
    (hop : i.opcode? = some .jumpIfFalse) : StepsWithin p (Exec.step p time m) := by
  have hnext := Program.next_lt_of_verify hverify hc hi hop rfl
  rw [step_eq hc hi hop]
  show StepsWithin p (EStateM.bind (EStateM.bind Exec.popWord _) _ _)
  simp only [EStateM.bind, Exec.popWord]
  cases m.stack.back? with
  | none => exact ⟨h.moveTo hc (Nat.le_of_lt hnext), explains_of_not rfl⟩
  | some w =>
    obtain ⟨t, hin, hjump⟩ := jump_of_verify hverify hc hi hop rfl m.stack.pop
    have hpopped : Located p { m with stack := m.stack.pop } := h.touches ⟨_, _, _, _, rfl⟩
    by_cases hw : w = 0
    · simp only [if_pos hw, hjump]
      exact hpopped.goTo hc hin
    · simp only [if_neg hw]
      exact hpopped.goTo hc (.inl hnext)

/-- Without its arguments a call does nothing. -/
theorem call_eq_error (hexists : i.short.toNat < p.chunks.size) (htop : ¬i.a.toNat ≤ m.stack.size) :
    ∃ f, f.isOfCode = false ∧ Exec.call p i m = .error f m := by
  have hunderflow : Exec.top i.a.toNat m = .error .stackUnderflow m := if_neg htop
  simp only [Exec.call, if_neg (Nat.not_le.mpr hexists)]
  by_cases hdepth : m.config.maxCallDepth ≤ m.frames.size
  · refine ⟨.callDepthExceeded m.config.maxCallDepth, rfl, ?_⟩
    show (if m.config.maxCallDepth ≤ m.frames.size then _ else _ : Exec Unit) _ = _
    rw [if_pos hdepth]
    rfl
  · refine ⟨.stackUnderflow, rfl, ?_⟩
    show (if m.config.maxCallDepth ≤ m.frames.size then _ else _ : Exec Unit) _ = _
    rw [if_neg hdepth]
    show EStateM.bind (Exec.top i.a.toNat) _ _ = _
    simp only [EStateM.bind, hunderflow]

/-- A call saves a place from which its caller can go on. -/
theorem Located.step_call (hverify : p.verify = .ok ()) (h : m.Located p)
    (hc : p.chunks[m.chunk]? = some c) (hi : c.code[m.ip]? = some i)
    (hop : i.opcode? = some .call) : StepsWithin p (Exec.step p time m) := by
  have hnext := Program.next_lt_of_verify hverify hc hi hop rfl
  have hexists := Program.callee_lt_of_verify hverify hc hi hop
  rw [step_eq hc hi hop]
  show StepsWithin p (EStateM.bind (Exec.call p i) _ _)
  by_cases htop : i.a.toNat ≤ m.stack.size
  · have hcall := call_eq (m := { m with ip := m.ip + 1 }) hexists htop
    simp only [EStateM.bind, hcall]
    by_cases hdepth : m.config.maxCallDepth ≤ m.frames.size
    · rw [if_pos hdepth]
      exact ⟨h.moveTo hc (Nat.le_of_lt hnext), explains_of_not rfl⟩
    · rw [if_neg hdepth]
      have hcallee : p.chunks[i.short.toNat]? = some p.chunks[i.short.toNat] :=
        Array.getElem?_eq_getElem hexists
      have hpos := Program.code_pos_of_verify hverify hcallee
      have hcalled : Located p { m with
          frames := m.frames.push ⟨m.chunk, m.ip + 1, m.fp⟩
          chunk := i.short.toNat
          fp := m.stack.size - i.a.toNat
          ip := 0 } := by
        refine ⟨h.program, ⟨_, hcallee, Nat.zero_le _⟩, fun f hf => ?_⟩
        rcases Array.mem_push.mp hf with hf | rfl
        · exact h.frames f hf
        · exact ⟨c, hc, hnext⟩
      exact hcalled.goTo hcallee (.inl hpos)
  · obtain ⟨f, hf, hcall⟩ := call_eq_error (m := { m with ip := m.ip + 1 }) hexists htop
    simp only [EStateM.bind, hcall]
    exact ⟨h.moveTo hc (Nat.le_of_lt hnext), explains_of_not hf⟩

/-- A return goes back to where its caller can go on. -/
theorem Located.step_return (h : m.Located p) (hc : p.chunks[m.chunk]? = some c)
    (hi : c.code[m.ip]? = some i) (hop : i.opcode? = some .return_) :
    StepsWithin p (Exec.step p time m) := by
  have hip : m.ip < c.code.size := (Array.getElem?_eq_some_iff.mp hi).1
  have hmoved : Located p { m with ip := m.ip + 1 } := h.moveTo hc hip
  have hunderflow : StepsWithin p (.error .stackUnderflow { m with ip := m.ip + 1 }) :=
    ⟨hmoved, explains_of_not rfl⟩
  rw [step_eq hc hi hop]
  show StepsWithin p (EStateM.bind (Exec.top i.a.toNat) _ _)
  by_cases htop : i.a.toNat ≤ m.stack.size
  · have htop' : Exec.top i.a.toNat { m with ip := m.ip + 1 } =
        .ok (m.stack.size - i.a.toNat) { m with ip := m.ip + 1 } := if_pos htop
    simp only [EStateM.bind, htop']
    show StepsWithin p ((if m.stack.size - i.a.toNat < m.fp then _ else _ : Exec Flow) _)
    -- results that reach below the frame are an underflow too
    by_cases hfp : m.stack.size - i.a.toNat < m.fp
    · rw [if_pos hfp]
      exact hunderflow
    · rw [if_neg hfp, modify_bind, modifyGet_apply]
      cases hcaller : m.frames.back? with
      | none => exact ⟨⟨h.program, ⟨c, hc, hip⟩, h.frames⟩, fun hne => absurd rfl hne⟩
      | some caller =>
        obtain ⟨c', hc', hip'⟩ := h.frames caller (Array.mem_of_back? hcaller)
        have hback : Located p { m with
            frames := m.frames.pop
            chunk := caller.chunk
            ip := caller.ip } := by
          refine ⟨h.program, ⟨c', hc', Nat.le_of_lt hip'⟩, fun f hf => h.frames f ?_⟩
          have hf : f ∈ m.frames.pop := hf
          rw [← Array.mem_toList_iff, Array.toList_pop] at hf
          exact Array.mem_toList_iff.mp ((List.dropLast_sublist _).subset hf)
        have hgoes := hback.goTo hc' (.inl hip')
        exact ⟨⟨hgoes.program, hgoes.current, hgoes.frames⟩, hgoes.leaves⟩
  · have htop' : Exec.top i.a.toNat { m with ip := m.ip + 1 } =
        .error .stackUnderflow { m with ip := m.ip + 1 } := if_neg htop
    simp only [EStateM.bind, htop']
    exact hunderflow

theorem Located.step_yield (hverify : p.verify = .ok ()) (h : m.Located p)
    (hc : p.chunks[m.chunk]? = some c) (hi : c.code[m.ip]? = some i)
    (hop : i.opcode? = some .yield) : StepsWithin p (Exec.step p time m) := by
  have hnext := Program.next_lt_of_verify hverify hc hi hop rfl
  rw [step_eq hc hi hop]
  show StepsWithin p (EStateM.bind (EStateM.bind Exec.popWord _) _ _)
  simp only [EStateM.bind, Exec.popWord]
  cases m.stack.back? with
  | none => exact ⟨h.moveTo hc (Nat.le_of_lt hnext), explains_of_not rfl⟩
  | some w =>
    have hgoes := h.goTo hc (.inl hnext)
    have hyields : Running p { m with
        ip := m.ip + 1
        stack := m.stack.pop
        resumeAt := time + w.toFloat.toFloat
        state := .yield } :=
      ⟨⟨hgoes.program, hgoes.current, hgoes.frames⟩, hgoes.leaves⟩
    exact ⟨hyields.toLocated, fun _ => hyields⟩

/-- One instruction of a verified program. -/
theorem Running.step (hverify : p.verify = .ok ()) (h : m.Running p) (time : Float) :
    StepsWithin p (Exec.step p time m) := by
  obtain ⟨c, hc, hip⟩ := h.current
  by_cases hlt : m.ip < c.code.size
  · have hi : c.code[m.ip]? = some c.code[m.ip] := Array.getElem?_eq_getElem hlt
    obtain ⟨hcheck, op, hop⟩ := Program.checkInstruction_of_verify hverify hc hi
    -- what works on memory goes on to the next instruction, which the check has found there
    by_cases hplain : op.isPlain = true
    · have hfalls : op.fallsThrough = true := by
        cases op <;> first | rfl | cases hplain
      have hnext := Program.next_lt_of_verify hverify hc hi hop hfalls
      rw [step_eq hc hi hop]
      exact (h.goTo hc (.inl hnext)).plain hplain hop hcheck
    · cases op with
      | halt =>
        rw [step_eq hc hi hop]
        have hmoved : Located p { m with ip := m.ip + 1 } := h.moveTo hc hlt
        exact ⟨⟨hmoved.program, hmoved.current, hmoved.frames⟩, fun hne => absurd rfl hne⟩
      | yield => exact h.step_yield hverify hc hi hop
      | jump =>
        obtain ⟨t, hin, hjump⟩ := jump_of_verify hverify hc hi hop rfl m.stack
        rw [step_eq hc hi hop]
        show StepsWithin p (EStateM.bind (Exec.jump _ c.code.size) _ _)
        simp only [EStateM.bind, hjump]
        exact h.goTo hc hin
      | jumpIfFalse => exact h.step_jumpIfFalse hverify hc hi hop
      | call => exact h.step_call hverify hc hi hop
      | return_ => exact h.step_return hc hi hop
      | _ => exact absurd rfl hplain
  · -- control has run past the end, and only a jump can have taken it there
    have hleaves := h.leaves c hc (by omega)
    have hnone : c.code[m.ip]? = none := Array.getElem?_eq_none (by omega)
    have hfetch : Exec.fetch p m = .error (.invalidProgram (.ranPastEnd c.name)) m := by
      simp only [Exec.fetch, hc, hnone]
    show StepsWithin p (EStateM.bind (Exec.fetch p) _ m)
    simp only [EStateM.bind, hfetch]
    exact ⟨h.toLocated, fun _ => ⟨c, Array.mem_of_getElem? hc, hleaves, rfl⟩⟩

end Step

/-! ### Runs -/

/-- Where instructions lead that are executed one after the other. -/
def ExecutesWithin (p : Program) : EStateM.Result Fault Machine Bool → Prop
  | .ok false m' => m'.Running p
  | .ok true m' => m'.Located p ∧ (m'.state ≠ .halt → m'.Running p)
  | .error f m' => m'.Located p ∧ Explains p f

theorem Running.execute (hverify : p.verify = .ok ()) (time : Float) (fuel : Nat) :
    ∀ {m : Machine}, m.Running p → ExecutesWithin p (Exec.execute p time fuel m) := by
  induction fuel with
  | zero =>
    intro m h
    exact h
  | succ fuel ih =>
    intro m h
    have hstep := h.step hverify time
    show ExecutesWithin p (EStateM.bind (Exec.step p time) _ m)
    rw [EStateM.bind]
    cases hx : Exec.step p time m with
    | ok flow m' =>
      rw [hx] at hstep
      cases flow with
      | next => exact ih hstep
      | stop => exact hstep
    | error f m' =>
      rw [hx] at hstep
      exact hstep

/-- Between two runs a machine has halted, or it can go on. -/
structure Waiting (p : Program) (m : Machine) : Prop extends m.Located p where
  running : m.state ≠ .halt → m.Running p

theorem Running.resume (hverify : p.verify = .ok ()) (h : m.Running p) (fuel : Nat) (time : Float) :
    (m.resume fuel time p).2.Waiting p ∧
      ∀ e, (m.resume fuel time p).1 = .error e → Explains p e.fault := by
  have hstarted : Running p { m with state := .running } :=
    ⟨⟨h.program, h.current, h.frames⟩, h.leaves⟩
  have hexec := Running.execute hverify time fuel hstarted
  rw [Machine.resume]
  cases hx : Exec.execute p time fuel { m with state := .running } with
  | ok stopped m' =>
    rw [hx] at hexec
    cases stopped with
    | false => exact ⟨⟨hexec.toLocated, fun _ => hexec⟩, fun e he => by cases he⟩
    | true => exact ⟨⟨hexec.1, hexec.2⟩, fun e he => by cases he⟩
  | error f m' =>
    rw [hx] at hexec
    obtain ⟨hlocated, hexplains⟩ := hexec
    refine ⟨⟨⟨hlocated.program, hlocated.current, hlocated.frames⟩, fun hne => absurd rfl hne⟩,
      fun e he => ?_⟩
    rw [fault_of_brokenOff he]
    exact hexplains

/-- What a run does, and which faults it can end in. -/
theorem Waiting.run (hverify : p.verify = .ok ()) (h : m.Waiting p) (fuel : Nat) (time : Float) :
    (m.run fuel time).2.Waiting p ∧
      ∀ e, (m.run fuel time).1 = .error e → Explains p e.fault := by
  rw [Machine.run, h.program]
  cases hstate : m.state with
  | halt => exact ⟨h, fun e he => by cases he⟩
  | running => exact (h.running (by rw [hstate]; decide)).resume hverify fuel time
  | yield =>
    have hrunning := h.running (by rw [hstate]; decide)
    show Waiting p (if time < m.resumeAt then _ else _ : _ × Machine).2 ∧ _
    split
    · exact ⟨h, fun e he => by cases he⟩
    · exact hrunning.resume hverify fuel time

end Machine

/-! ### Hosts -/

/-- What a host does with a machine that it has booted. -/
inductive HostAction where
  /-- a run with so much fuel and at a time -/
  | run (fuel : Nat) (time : Float)
  /-- a use of the helpers that host functions have -/
  | use (f : Native)
  /-- other host functions -/
  | bind (externals : Array Native)

namespace Machine

variable {p : Program} {m : Machine}

/-- The machine after something its host does. -/
def host (m : Machine) : HostAction → Machine
  | .run fuel time => (m.run fuel time).2
  | .use f =>
    match f.run m with
    | .ok _ m' | .error _ m' => m'
  | .bind externals => { m with externals }

/-- The machine after all that its host does. -/
def hosted (m : Machine) (actions : List HostAction) : Machine :=
  actions.foldl host m

theorem Waiting.touches {m' : Machine} (h : m.Waiting p) (ht : m.Touches m') : m'.Waiting p := by
  refine ⟨h.toLocated.touches ht, fun hne => ?_⟩
  have hstate : m'.state = m.state := by
    obtain ⟨stack, heap, heapConstants, log, rfl⟩ := ht
    rfl
  exact (h.running (hstate ▸ hne)).touches ht

/-- The helpers that host functions have touch nothing but memory. -/
theorem touches_use (m : Machine) (f : Native) : m.Touches (m.host (.use f)) := by
  have hacts : Exec.Acts true f.run := Exec.acts_native f
  have hconfined := hacts.ends m
  rw [host]
  cases hf : f.run m with
  | ok a m' =>
    rw [hf] at hconfined
    exact hconfined
  | error e m' =>
    rw [hf] at hconfined
    exact hconfined.1

theorem Waiting.host (hverify : p.verify = .ok ()) (h : m.Waiting p) (action : HostAction) :
    (m.host action).Waiting p := by
  cases action with
  | run fuel time => exact (h.run hverify fuel time).1
  | use f => exact h.touches (touches_use m f)
  | bind externals =>
    exact ⟨⟨h.program, h.current, h.frames⟩, fun hne =>
      ⟨⟨h.program, h.current, h.frames⟩, (h.running hne).leaves⟩⟩

theorem Waiting.hosted (hverify : p.verify = .ok ()) (actions : List HostAction) :
    ∀ {m : Machine}, m.Waiting p → (m.hosted actions).Waiting p := by
  induction actions with
  | nil => exact fun h => h
  | cons action actions ih => exact fun h => ih (h.host hverify action)

/-- A machine that has just been booted. -/
theorem boot_waiting (hverify : p.verify = .ok ()) (m : Machine) :
    ∃ m₁, m.boot p = .ok m₁ ∧ m₁.Waiting p := by
  rw [boot, hverify]
  refine ⟨_, rfl, ?_⟩
  obtain ⟨c, hc⟩ := Option.isSome_iff_exists.mp (Program.verify_eq_ok_iff.mp hverify).1
  have hpos := Program.code_pos_of_verify hverify hc
  have hlocated : ∀ m' : Machine, m'.program = some p → m'.chunk = p.entryPoint.toNat →
      m'.ip = 0 → m'.frames = #[] → m'.Running p := by
    intro m' hprogram hchunk hip hframes
    refine ⟨⟨hprogram, ⟨c, by rw [hchunk]; exact hc, by omega⟩, fun f hf => ?_⟩, fun c' hc' hend => ?_⟩
    · rw [hframes] at hf
      exact absurd hf (Array.not_mem_empty f)
    · rw [hchunk] at hc'
      obtain rfl : c = c' := Option.some_inj.mp (hc.symm.trans hc')
      omega
  exact ⟨(hlocated _ rfl rfl rfl rfl).toLocated, fun _ => hlocated _ rfl rfl rfl rfl⟩

end Machine

/-- What holds of a machine with a verified program.  Since a run may be cut short by its fuel, a
machine that its host has run stands between any two instructions. -/
structure Machine.Inside (p : Program) (m : Machine) : Prop where
  /-- the only way for a run to blame the code is to go past the end of a chunk -/
  faults : ∀ (fuel : Nat) (time : Float) (e : MachineError), (m.run fuel time).1 = .error e →
    e.fault.isOfCode = true → ∃ name, e.fault = .invalidProgram (.ranPastEnd name)
  /-- the current chunk is there -/
  current : ∃ c, p.chunks[m.chunk]? = some c ∧ m.ip ≤ c.code.size
  /-- the chunks of the callers are there -/
  frames : ∀ f ∈ m.frames, ∃ c, p.chunks[f.chunk]? = some c ∧ f.ip ≤ c.code.size

/-- Verification is sound for the way that control goes: every machine boots a verified program, and
stays inside it whatever its host does. -/
theorem inside_of_verified {p : Program} (hverify : p.verify = .ok ()) (m : Machine) :
    ∃ m₁, m.boot p = .ok m₁ ∧ ∀ actions, (m₁.hosted actions).Inside p := by
  obtain ⟨m₁, hboot, hwaiting⟩ := Machine.boot_waiting hverify m
  refine ⟨m₁, hboot, fun actions => ?_⟩
  have h := hwaiting.hosted hverify actions
  refine ⟨fun fuel time e he hcode => ?_, h.current, fun f hf => ?_⟩
  · obtain ⟨c, -, -, hfault⟩ := (h.run hverify fuel time).2 e he hcode
    exact ⟨c.name, hfault⟩
  · obtain ⟨c, hc, hip⟩ := h.frames f hf
    exact ⟨c, hc, Nat.le_of_lt hip⟩

/-- A chunk that calls itself, through a host function and a wait, with whatever lies on the stack. -/
def recursiveProgram : Program where
  chunks := #[⟨"<entry>", #[.ofByteShort .loadHeapConstant 0 1, .ofByteShort .callExternal 0 0,
    .ofOpcode .yield, .ofByteShort .call 3 0, .ofSigned .jumpIfFalse (-5), .ofBytes .return_ 2 0 0],
    #[9, 1, 0x41]⟩]
  entryPoint := 0
  externals := #["Poke"]

theorem inside_of_recursiveProgram :
    recursiveProgram.verify = .ok () ∧ ∃ m₁, (Machine.new {}).boot recursiveProgram = .ok m₁ ∧
      ∀ actions, (m₁.hosted actions).Inside recursiveProgram := by
  have hverify : recursiveProgram.verify = .ok () := rfl
  exact ⟨hverify, inside_of_verified hverify _⟩

/-- A run of a verified program goes past the end of a chunk only if a jump of that chunk lands behind
its last instruction. -/
theorem leaves_of_ranPastEnd {p : Program} (hverify : p.verify = .ok ()) {m m₁ : Machine}
    (hboot : m.boot p = .ok m₁) {actions : List HostAction} {fuel : Nat} {time : Float}
    {e : MachineError} (hrun : ((m₁.hosted actions).run fuel time).1 = .error e) {name : String}
    (hfault : e.fault = .invalidProgram (.ranPastEnd name)) :
    ∃ c ∈ p.chunks, c.name = name ∧ c.Leaves := by
  obtain ⟨m₂, hboot₂, hwaiting⟩ := Machine.boot_waiting hverify m
  obtain rfl : m₁ = m₂ := Except.ok.inj (hboot.symm.trans hboot₂)
  have h := hwaiting.hosted hverify actions
  obtain ⟨c, hc, hleaves, hpast⟩ := (h.run hverify fuel time).2 e hrun (by rw [hfault]; rfl)
  rw [hfault] at hpast
  cases hpast
  exact ⟨c, hc, rfl, hleaves⟩

/-- A jump over the only halt. -/
def leavingProgram : Program where
  chunks := #[⟨"<entry>", #[.ofSigned .jump 1, .ofOpcode .halt], #[]⟩]
  entryPoint := 0
  externals := #[]

/-- A verified program can run past the end of a chunk. -/
theorem ranPastEnd_of_leavingProgram :
    leavingProgram.verify = .ok () ∧ ∃ m₁, (Machine.new {}).boot leavingProgram = .ok m₁ ∧
      ∃ fuel e, (m₁.run fuel 0).1 = .error e ∧
        e.fault = .invalidProgram (.ranPastEnd "<entry>") := by
  exact ⟨rfl, _, rfl, 2, _, rfl, rfl⟩

theorem leaves_of_leavingProgram : ∃ c ∈ leavingProgram.chunks, c.name = "<entry>" ∧ c.Leaves := by
  have hverify : leavingProgram.verify = .ok () := rfl
  have hboot : ∃ m₁, (Machine.new {}).boot leavingProgram = .ok m₁ := ⟨_, rfl⟩
  obtain ⟨m₁, hboot⟩ := hboot
  have hrun : ((m₁.hosted []).run 2 0).1 =
      .error { fault := .invalidProgram (.ranPastEnd "<entry>"), callStack := ["<entry> @ 1"] } := by
    cases hboot
    rfl
  exact leaves_of_ranPastEnd hverify hboot hrun rfl

end WordScript
