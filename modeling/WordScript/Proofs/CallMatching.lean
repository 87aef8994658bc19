/-
Calls and returns match.

A call saves the place of its caller on the stack of frames, and a return takes the
last one off.  Nothing else touches that stack: not the words that the program
computes with, which may be anything, and not the host.  So whatever code a call
leads to, the frames below it stay as they are until they are all that is left, and
it is a return of that code that comes back.  What it leaves on the stack begins
where the arguments of the call began, because that is where its frame begins.

* `Machine.Moves` — what one instruction does to the frames;
* `Machine.Within` — control is in a call, or in calls that it has made;
* `Machine.Within.host`, `Machine.Within.hosted` — one thing that happens to the
  machine, and any number of them up to the end of the call;
* `Machine.Waiting.host_run_eq_hosted` — a run is a sequence of runs of one instruction;
* `returns_of_call` — a call and its return.

Design notes: a point of a run is a machine that its host has run one instruction at a
time, so that what happens between two instructions can be spoken of.
-/
import WordScript.Proofs.HostClock
import WordScript.Proofs.VerifiedRuns

namespace WordScript

namespace Machine

/-- Control stands at an instruction. -/
def At (p : Program) (m : Machine) (op : Opcode) (i : Instruction) : Prop :=
  ∃ c, p.chunks[m.chunk]? = some c ∧ c.code[m.ip]? = some i ∧ i.opcode? = some op

variable {p : Program} {m m' : Machine} {op op' : Opcode} {i i' : Instruction}

theorem At.unique (h : m.At p op i) (h' : m.At p op' i') : op = op' ∧ i = i' := by
  obtain ⟨c, hc, hi, hop⟩ := h
  obtain ⟨c', hc', hi', hop'⟩ := h'
  obtain rfl : c = c' := Option.some_inj.mp (hc.symm.trans hc')
  obtain rfl : i = i' := Option.some_inj.mp (hi.symm.trans hi')
  exact ⟨Option.some_inj.mp (hop.symm.trans hop'), rfl⟩

/-- The machines are in the same call. -/
structure SameCall (m m' : Machine) : Prop where
  frames : m'.frames = m.frames
  chunk : m'.chunk = m.chunk
  fp : m'.fp = m.fp

theorem Touches.sameCall (h : m.Touches m') : m.SameCall m' := by
  obtain ⟨stack, heap, heapConstants, log, rfl⟩ := h
  exact ⟨rfl, rfl, rfl⟩

/-- A call leads to the beginning of its callee, with its arguments as the new frame. -/
structure Calls (i : Instruction) (m m' : Machine) : Prop where
  arguments : i.a.toNat ≤ m.stack.size
  frames : m'.frames = m.frames.push ⟨m.chunk, m.ip + 1, m.fp⟩
  chunk : m'.chunk = i.short.toNat
  ip : m'.ip = 0
  fp : m'.fp = m.stack.size - i.a.toNat
  stack : m'.stack = m.stack

/-- What an instruction does to the frames if control goes on after it. -/
inductive Moves (p : Program) (m m' : Machine) : Prop where
  /-- it stays in its call -/
  | stays {op : Opcode} {i : Instruction} (here : m.At p op i) (call : op ≠ .call)
      (return_ : op ≠ .return_) (same : m.SameCall m')
  /-- it calls a chunk -/
  | calls {i : Instruction} (here : m.At p .call i) (called : Calls i m m')
  /-- it returns to a caller, with its results in place of its frame -/
  | returns {i : Instruction} {saved : List Frame} {caller : Frame} (here : m.At p .return_ i)
      (results : m.fp + i.a.toNat ≤ m.stack.size) (caller_eq : m.frames.toList = saved ++ [caller])
      (frames : m'.frames.toList = saved) (chunk : m'.chunk = caller.chunk)
      (ip : m'.ip = caller.ip) (fp : m'.fp = caller.fp)
      (stack : m'.stack = Words.moveDown m.stack (m.stack.size - i.a.toNat) m.fp i.a.toNat)

/-- Where an instruction leads. -/
def StepsMatched (p : Program) (m : Machine) : EStateM.Result Fault Machine Flow → Prop
  | .ok .next m' => m.Moves p m' ∧ m'.state = m.state
  | .ok .stop m' => m.SameCall m'
  | .error _ m' => m.SameCall m'

section Step

variable {c : Chunk} {time : Float}

theorem stepsMatched_plain {k ip : Nat} (hi : m.At p op i) (hplain : op.isPlain = true)
    (hop : i.opcode? = some op) (hcheck : p.checkInstruction k c ip i = .ok ()) :
    StepsMatched p m (Exec.perform p c time i op { m with ip := m.ip + 1 }) := by
  have hm := Exec.perform_of_isPlain hplain hop hcheck time { m with ip := m.ip + 1 }
  cases hxm : Exec.perform p c time i op { m with ip := m.ip + 1 } with
  | ok flow m' =>
    rw [hxm] at hm
    obtain ⟨rfl, stack, heap, heapConstants, log, rfl⟩ := hm
    refine ⟨.stays hi ?_ ?_ ⟨rfl, rfl, rfl⟩, rfl⟩
    · rintro rfl
      cases hplain
    · rintro rfl
      cases hplain
  | error f m' =>
    rw [hxm] at hm
    obtain ⟨⟨stack, heap, heapConstants, log, rfl⟩, -⟩ := hm
    exact ⟨rfl, rfl, rfl⟩

theorem stepsMatched_call (hverify : p.verify = .ok ()) (hc : p.chunks[m.chunk]? = some c)
    (hi : c.code[m.ip]? = some i) (hop : i.opcode? = some .call) :
    StepsMatched p m (Exec.step p time m) := by
  have hexists := Program.callee_lt_of_verify hverify hc hi hop
  rw [step_eq hc hi hop]
  show StepsMatched p m (EStateM.bind (Exec.call p i) _ _)
  by_cases htop : i.a.toNat ≤ m.stack.size
  · have hcall := call_eq (m := { m with ip := m.ip + 1 }) hexists htop
    simp only [EStateM.bind, hcall]
    by_cases hdepth : m.config.maxCallDepth ≤ m.frames.size
    · rw [if_pos hdepth]
      exact ⟨rfl, rfl, rfl⟩
    · rw [if_neg hdepth]
      exact ⟨.calls ⟨c, hc, hi, hop⟩ ⟨htop, rfl, rfl, rfl, rfl, rfl⟩, rfl⟩
  · obtain ⟨f, -, hcall⟩ := call_eq_error (m := { m with ip := m.ip + 1 }) hexists htop
    simp only [EStateM.bind, hcall]
    exact ⟨rfl, rfl, rfl⟩

theorem stepsMatched_return (hc : p.chunks[m.chunk]? = some c) (hi : c.code[m.ip]? = some i)
    (hop : i.opcode? = some .return_) : StepsMatched p m (Exec.step p time m) := by
  rw [step_eq hc hi hop]
  show StepsMatched p m (EStateM.bind (Exec.top i.a.toNat) _ _)
  by_cases htop : i.a.toNat ≤ m.stack.size
  · have htop' : Exec.top i.a.toNat { m with ip := m.ip + 1 } =
        .ok (m.stack.size - i.a.toNat) { m with ip := m.ip + 1 } := if_pos htop
    simp only [EStateM.bind, htop']
    show StepsMatched p m ((if m.stack.size - i.a.toNat < m.fp then _ else _ : Exec Flow) _)
    by_cases hfp : m.stack.size - i.a.toNat < m.fp
    · rw [if_pos hfp]
      exact ⟨rfl, rfl, rfl⟩
    · rw [if_neg hfp, modify_bind, modifyGet_apply]
      cases hcaller : m.frames.back? with
      | none => exact ⟨rfl, rfl, rfl⟩
      | some caller =>
        rw [← Array.getLast?_toList] at hcaller
        obtain ⟨saved, hsaved⟩ := List.getLast?_eq_some_iff.mp hcaller
        have hpop : m.frames.pop.toList = saved := by
          rw [Array.toList_pop, hsaved, List.dropLast_concat]
        exact ⟨.returns ⟨c, hc, hi, hop⟩ (by omega) hsaved hpop rfl rfl rfl rfl, rfl⟩
  · have htop' : Exec.top i.a.toNat { m with ip := m.ip + 1 } =
        .error .stackUnderflow { m with ip := m.ip + 1 } := if_neg htop
    simp only [EStateM.bind, htop']
    exact ⟨rfl, rfl, rfl⟩

/-- One instruction of a verified program. -/
theorem Located.stepsMatched (hverify : p.verify = .ok ()) (h : m.Located p) (time : Float) :
    StepsMatched p m (Exec.step p time m) := by
  obtain ⟨c, hc, hip⟩ := h.current
  by_cases hlt : m.ip < c.code.size
  · have hi : c.code[m.ip]? = some c.code[m.ip] := Array.getElem?_eq_getElem hlt
    obtain ⟨hcheck, op, hop⟩ := Program.checkInstruction_of_verify hverify hc hi
    have here : m.At p op c.code[m.ip] := ⟨c, hc, hi, hop⟩
    -- plain operations have no say in control, so only those that direct it are looked at
    by_cases hplain : op.isPlain = true
    · rw [step_eq hc hi hop]
      exact stepsMatched_plain here hplain hop hcheck
    · cases op with
      | halt =>
        rw [step_eq hc hi hop]
        exact ⟨rfl, rfl, rfl⟩
      | yield =>
        rw [step_eq hc hi hop]
        show StepsMatched p m (EStateM.bind (EStateM.bind Exec.popWord _) _ _)
        simp only [EStateM.bind, Exec.popWord]
        cases m.stack.back? with
        | none => exact ⟨rfl, rfl, rfl⟩
        | some w => exact ⟨rfl, rfl, rfl⟩
      | jump =>
        obtain ⟨t, -, hjump⟩ := jump_of_verify hverify hc hi hop rfl m.stack
        rw [step_eq hc hi hop]
        show StepsMatched p m (EStateM.bind (Exec.jump _ c.code.size) _ _)
        simp only [EStateM.bind, hjump]
        exact ⟨.stays here (by decide) (by decide) ⟨rfl, rfl, rfl⟩, rfl⟩
      | jumpIfFalse =>
        rw [step_eq hc hi hop]
        show StepsMatched p m (EStateM.bind (EStateM.bind Exec.popWord _) _ _)
        simp only [EStateM.bind, Exec.popWord]
        cases m.stack.back? with
        | none => exact ⟨rfl, rfl, rfl⟩
        | some w =>
          obtain ⟨t, -, hjump⟩ := jump_of_verify hverify hc hi hop rfl m.stack.pop
          by_cases hw : w = 0
          · simp only [if_pos hw, hjump]
            exact ⟨.stays here (by decide) (by decide) ⟨rfl, rfl, rfl⟩, rfl⟩
          · simp only [if_neg hw]
            exact ⟨.stays here (by decide) (by decide) ⟨rfl, rfl, rfl⟩, rfl⟩
      | call => exact stepsMatched_call hverify hc hi hop
      | return_ => exact stepsMatched_return hc hi hop
      | _ => exact absurd rfl hplain
  · -- one past the last instruction there is nothing to fetch
    have hnone : c.code[m.ip]? = none := Array.getElem?_eq_none (by omega)
    have hfetch : Exec.fetch p m = .error (.invalidProgram (.ranPastEnd c.name)) m := by
      simp only [Exec.fetch, hc, hnone]
    show StepsMatched p m (EStateM.bind (Exec.fetch p) _ m)
    simp only [EStateM.bind, hfetch]
    exact ⟨rfl, rfl, rfl⟩

end Step

/-! ### Runs of one instruction -/

/-- What a run with fuel for one instruction comes to. -/
inductive RunsOne (p : Program) (time : Float) (m : Machine) :
    Except MachineError RunResult × Machine → Prop where
  /-- the machine has halted, or its time has not come -/
  | idle {r : Except MachineError RunResult} (cut : r ≠ .ok .outOfFuel) : RunsOne p time m (r, m)
  /-- control goes on after the instruction -/
  | next {m' : Machine} (goes : m.executes time = true)
      (step : Exec.step p time { m with state := .running } = .ok .next m') :
      RunsOne p time m (.ok .outOfFuel, m')
  /-- control stops at the instruction -/
  | stop {m' : Machine} (goes : m.executes time = true)
      (step : Exec.step p time { m with state := .running } = .ok .stop m') :
      RunsOne p time m (.ok (if m'.state = .halt then .halted else .suspended), m')
  /-- the instruction breaks off -/
  | fault {f : Fault} {m' : Machine} (goes : m.executes time = true)
      (step : Exec.step p time { m with state := .running } = .error f m') :
      RunsOne p time m (m'.brokenOff p f, { m' with state := .halt })

theorem resume_one {time : Float} (goes : m.executes time = true) :
    RunsOne p time m (m.resume 1 time p) := by
  have hone : Exec.execute p time 1 { m with state := .running } =
      EStateM.bind (Exec.step p time) _ { m with state := .running } := rfl
  rw [resume, hone, EStateM.bind]
  cases hx : Exec.step p time { m with state := .running } with
  | ok flow m' =>
    cases flow with
    | next => exact .next goes hx
    | stop => exact .stop goes hx
  | error f m' => exact .fault goes hx

theorem run_one_cases (hprogram : m.program = some p) (time : Float) :
    RunsOne p time m (m.run 1 time) := by
  cases hexecutes : m.executes time with
  | false =>
    obtain ⟨r, hcut, hrun⟩ := run_of_not_executes hexecutes
    rw [hrun]
    exact .idle hcut
  | true =>
    rw [run_of_executes hexecutes hprogram]
    exact resume_one hexecutes

/-- A run of one instruction moves control, or it stays in its call and says so. -/
theorem Waiting.run_one (hverify : p.verify = .ok ()) (h : m.Waiting p) (time : Float) :
    m.Moves p (m.run 1 time).2 ∨
      m.SameCall (m.run 1 time).2 ∧ (m.run 1 time).1 ≠ .ok .outOfFuel := by
  have hrun := run_one_cases h.program time
  have hset : Located p { m with state := .running } := ⟨h.program, h.current, h.frames⟩
  have hstep := hset.stepsMatched hverify time
  generalize m.run 1 time = ran at hrun
  cases hrun with
  | idle cut => exact .inr ⟨⟨rfl, rfl, rfl⟩, cut⟩
  | next goes hx =>
    rw [hx] at hstep
    left
    -- the instruction does not see that the machine was set going
    obtain ⟨hmoves, -⟩ := hstep
    cases hmoves with
    | stays here hcall hreturn hsame =>
      exact .stays here hcall hreturn ⟨hsame.frames, hsame.chunk, hsame.fp⟩
    | calls here hcalled =>
      exact .calls here ⟨hcalled.arguments, hcalled.frames, hcalled.chunk, hcalled.ip, hcalled.fp,
        hcalled.stack⟩
    | returns here hresults hcaller hframes hchunk hip hfp hstack =>
      exact .returns here hresults hcaller hframes hchunk hip hfp hstack
  | stop goes hx =>
    rw [hx] at hstep
    exact .inr ⟨⟨hstep.frames, hstep.chunk, hstep.fp⟩, by simp; split <;> simp⟩
  | fault goes hx =>
    rw [hx] at hstep
    exact .inr ⟨⟨hstep.frames, hstep.chunk, hstep.fp⟩, brokenOff_ne_outOfFuel _ _ _⟩

/-! ### Inside a call -/

/-- Control is in a call, or in calls that it has made.  Below the caller lie the saved frames, and
the frame of the call itself begins at `base`. -/
def Within (saved : List Frame) (caller : Frame) (base : Nat) (m : Machine) : Prop :=
  ∃ inner : List Frame, m.frames.toList = saved ++ caller :: inner ∧
    (inner.map Frame.fp ++ [m.fp]).head? = some base

/-- Control is back in a caller. -/
structure BackIn (saved : List Frame) (caller : Frame) (m : Machine) : Prop where
  frames : m.frames.toList = saved
  chunk : m.chunk = caller.chunk
  ip : m.ip = caller.ip
  fp : m.fp = caller.fp

/-- The instruction is a return from a frame at `base`, which puts its results there. -/
structure ReturnsFrom (p : Program) (base : Nat) (i : Instruction) (m m' : Machine) : Prop where
  here : m.At p .return_ i
  results : base + i.a.toNat ≤ m.stack.size
  stack : m'.stack = Words.moveDown m.stack (m.stack.size - i.a.toNat) base i.a.toNat

variable {saved : List Frame} {caller : Frame} {base : Nat}

theorem Within.depth (h : m.Within saved caller base) : saved.length < m.frames.size := by
  obtain ⟨inner, hframes, -⟩ := h
  rw [← Array.length_toList, hframes]
  simp

theorem Within.sameCall (h : m.Within saved caller base) (hsame : m.SameCall m') :
    m'.Within saved caller base := by
  obtain ⟨inner, hframes, hbase⟩ := h
  exact ⟨inner, by rw [hsame.frames, hframes], by rw [hsame.fp, hbase]⟩

theorem ReturnsFrom.size_eq {i : Instruction} (h : ReturnsFrom p base i m m') :
    m'.stack.size = base + i.a.toNat := by
  rw [h.stack, Words.moveDown, Array.size_shrink, Words.size_write]
  exact Nat.min_eq_left h.results

/-- An instruction inside a call stays inside it, or it is the return of the call. -/
theorem Within.moves (h : m.Within saved caller base) (hmoves : m.Moves p m') :
    m'.Within saved caller base ∨ ∃ i, ReturnsFrom p base i m m' ∧ m'.BackIn saved caller := by
  obtain ⟨inner, hframes, hbase⟩ := h
  cases hmoves with
  | stays _ _ _ hsame => exact .inl (Within.sameCall ⟨inner, hframes, hbase⟩ hsame)
  | calls _ hcalled =>
    refine .inl ⟨inner ++ [⟨m.chunk, m.ip + 1, m.fp⟩], ?_, ?_⟩
    · rw [hcalled.frames, Array.toList_push, hframes]
      simp
    · rw [List.map_append, List.head?_append]
      show (List.head? (inner.map Frame.fp ++ [m.fp])).or _ = _
      rw [hbase]
      rfl
  | @returns i outer last here hresults hcaller hpop hchunk hip hfp hstack =>
    rw [hframes] at hcaller
    -- the frame that is taken off is the one of the call, or one of a call that it has made
    cases List.eq_nil_or_concat inner with
    | inl hnil =>
      subst hnil
      obtain ⟨rfl, hlast⟩ := List.append_inj' hcaller rfl
      cases hlast
      obtain rfl : m.fp = base := Option.some_inj.mp hbase
      exact .inr ⟨i, ⟨here, hresults, hstack⟩, hpop, hchunk, hip, hfp⟩
    | inr hconcat =>
      obtain ⟨inner', f, rfl⟩ := hconcat
      rw [List.concat_eq_append, ← List.cons_append, ← List.append_assoc] at hcaller
      obtain ⟨rfl, hlast⟩ := List.append_inj' hcaller rfl
      cases hlast
      refine .inl ⟨inner', hpop, ?_⟩
      rw [hfp]
      simpa using hbase

end Machine

/-! ### Points of a run -/

/-- The host does one thing: it runs one instruction, or it acts between two of them. -/
def HostAction.isSingle : HostAction → Bool
  | .run fuel _ => fuel == 1
  | .use _ => true
  | .bind _ => true

namespace Machine

variable {p : Program} {m : Machine} {saved : List Frame} {caller : Frame} {base : Nat}

theorem resume_eq_hosted (hverify : p.verify = .ok ()) {time : Float} (fuel : Nat) :
    ∀ {m : Machine}, m.Running p → m.run 1 time = m.resume 1 time p →
      ∃ k, k ≤ fuel + 1 ∧
        (m.resume (fuel + 1) time p).2 = m.hosted (List.replicate k (.run 1 time)) := by
  induction fuel with
  | zero =>
    intro m _ hrun
    exact ⟨1, Nat.le_refl 1, congrArg Prod.snd hrun.symm⟩
  | succ fuel ih =>
    intro m h hrun
    have hset : Running p { m with state := .running } :=
      ⟨⟨h.program, h.current, h.frames⟩, h.leaves⟩
    have hwithin := hset.step hverify time
    have hmatched := hset.stepsMatched hverify time
    have hone : (m.hosted [.run 1 time]) = (m.resume 1 time p).2 := congrArg Prod.snd hrun
    have hexecute : ∀ fuel, Exec.execute p time (fuel + 1) { m with state := .running } =
        EStateM.bind (Exec.step p time) _ { m with state := .running } := fun _ => rfl
    rw [resume, hexecute, EStateM.bind] at hone ⊢
    cases hx : Exec.step p time { m with state := .running } with
    | error f m' =>
      rw [hx] at hone
      exact ⟨1, by omega, hone.symm⟩
    | ok flow m' =>
      rw [hx] at hone hwithin hmatched
      cases flow with
      | stop => exact ⟨1, by omega, hone.symm⟩
      | next =>
        -- the machine is still set going, so the rest is a run of its own
        have hstate : m'.state = .running := hmatched.2
        have hrunning : m'.Running p := hwithin
        have hrun' : m'.run 1 time = m'.resume 1 time p := by
          rw [run, hrunning.program, hstate]
        obtain ⟨k, hk, hrest⟩ := ih hrunning hrun'
        refine ⟨k + 1, by omega, ?_⟩
        rw [List.replicate_succ]
        show _ = (m.hosted [.run 1 time]).hosted (List.replicate k (.run 1 time))
        rw [hone]
        refine Eq.trans ?_ hrest
        rw [resume, show { m' with state := .running } = m' by rw [← hstate]]

/-- A run is a sequence of runs of one instruction. -/
theorem Waiting.host_run_eq_hosted (hverify : p.verify = .ok ()) (h : m.Waiting p) (fuel : Nat)
    (time : Float) :
    ∃ k, k ≤ fuel + 1 ∧
      m.host (.run (fuel + 1) time) = m.hosted (List.replicate k (.run 1 time)) := by
  cases hexecutes : m.executes time with
  | false =>
    obtain ⟨r, -, hrun⟩ := run_of_not_executes hexecutes
    exact ⟨0, Nat.zero_le _, congrArg Prod.snd hrun⟩
  | true =>
    rw [Machine.host, run_of_executes hexecutes h.program]
    exact resume_eq_hosted hverify fuel (h.running (ne_halt_of_executes hexecutes))
      (run_of_executes hexecutes h.program)

/-- One thing that happens to a machine inside a call. -/
theorem Within.host (hverify : p.verify = .ok ()) (hwaiting : m.Waiting p)
    (h : m.Within saved caller base) {action : HostAction} (hsingle : action.isSingle = true) :
    (m.host action).Within saved caller base ∨
      ∃ time i, action = .run 1 time ∧ ReturnsFrom p base i m (m.host action) ∧
        (m.host action).BackIn saved caller := by
  cases action with
  | run fuel time =>
    obtain rfl : fuel = 1 := eq_of_beq hsingle
    rw [Machine.host]
    obtain hmoves | ⟨hsame, -⟩ := hwaiting.run_one hverify time
    · exact (h.moves hmoves).imp_right fun hback => ⟨time, hback.imp fun i hi => ⟨rfl, hi⟩⟩
    · exact .inl (h.sameCall hsame)
  | use f => exact .inl (h.sameCall (touches_use m f).sameCall)
  | bind externals => exact .inl (h.sameCall ⟨rfl, rfl, rfl⟩)

theorem Within.host_of_ne (hverify : p.verify = .ok ()) (hwaiting : m.Waiting p)
    (h : m.Within saved caller base) {action : HostAction} (hsingle : action.isSingle = true)
    (hne : (m.host action).frames.size ≠ saved.length) :
    (m.host action).Within saved caller base := by
  obtain hwithin | ⟨time, i, -, -, hback⟩ := h.host hverify hwaiting hsingle
  · exact hwithin
  · rw [← hback.frames, Array.length_toList] at hne
    exact absurd rfl hne

/-- Everything that happens to a machine inside a call, up to the end of the call. -/
theorem Within.hosted (hverify : p.verify = .ok ()) {actions : List HostAction} :
    ∀ {m : Machine}, m.Waiting p → m.Within saved caller base →
      (∀ a ∈ actions, a.isSingle = true) →
      (∀ pre, pre <+: actions → (m.hosted pre).frames.size ≠ saved.length) →
      (m.hosted actions).Within saved caller base := by
  induction actions with
  | nil =>
    intro m _ h _ _
    exact h
  | cons action actions ih =>
    intro m hwaiting h hsingle hinside
    obtain ⟨hfirst, hrest⟩ := List.forall_mem_cons.mp hsingle
    have hne := hinside [action] (List.cons_prefix_cons.mpr ⟨rfl, List.nil_prefix⟩)
    refine ih (hwaiting.host hverify action) (h.host_of_ne hverify hwaiting hfirst hne) hrest ?_
    intro pre hpre
    exact hinside (action :: pre) (List.cons_prefix_cons.mpr ⟨rfl, hpre⟩)

theorem hosted_concat (m : Machine) (actions : List HostAction) (last : HostAction) :
    m.hosted (actions ++ [last]) = (m.hosted actions).host last := by
  simp [hosted]

theorem Waiting.of_run (hverify : p.verify = .ok ()) (h : m.Waiting p) {fuel : Nat} {time : Float}
    {r : Except MachineError RunResult} {m' : Machine} (hrun : m.run fuel time = (r, m')) :
    m'.Waiting p := by
  have hafter := (h.run hverify fuel time).1
  rwa [hrun] at hafter

theorem run_eq_of_toOption {fuel : Nat} {time : Float} {r : RunResult}
    (h : (m.run fuel time).1.toOption = some r) : ∃ m', m.run fuel time = (.ok r, m') := by
  refine ⟨(m.run fuel time).2, Prod.ext ?_ rfl⟩
  cases hr : (m.run fuel time).1 with
  | error e =>
    rw [hr] at h
    cases h
  | ok r' =>
    rw [hr] at h
    exact congrArg Except.ok (Option.some_inj.mp h)

/-- A call that succeeds leads to its callee. -/
theorem Waiting.calls (hverify : p.verify = .ok ()) (h : m.Waiting p) {i : Instruction}
    (hat : m.At p .call i) {time : Float} {m' : Machine}
    (hcall : m.run 1 time = (.ok .outOfFuel, m')) : Calls i m m' := by
  have hrun := h.run_one hverify time
  rw [hcall] at hrun
  obtain hmoves | ⟨-, hcut⟩ := hrun
  · cases hmoves with
    | stays here hne _ _ => exact absurd (here.unique hat).1 hne
    | returns here _ _ _ _ _ _ _ =>
      have hop := (here.unique hat).1
      cases hop
    | calls here hcalled =>
      obtain ⟨-, rfl⟩ := here.unique hat
      exact hcalled
  · exact absurd rfl hcut

theorem Calls.within {i : Instruction} {m' : Machine} (h : Calls i m m') :
    m'.Within m.frames.toList ⟨m.chunk, m.ip + 1, m.fp⟩ (m.stack.size - i.a.toNat) := by
  refine ⟨[], ?_, ?_⟩
  · rw [h.frames, Array.toList_push]
  · rw [h.fp]
    rfl

end Machine

/-- A call and its return match.  Take a machine that has booted a verified program, at any point
where it is at a call that succeeds.  Whatever happens then, one instruction or one use of its
helpers at a time, the saved frames stay as they are until their number is again what it was.  It
is a return that makes it so, to the place after the call, with its results where the arguments
began. -/
theorem returns_of_call {p : Program} (hverify : p.verify = .ok ()) {m m₁ m₀ m₂ : Machine}
    (hboot : m.boot p = .ok m₁) {before : List HostAction} (hbefore : m₁.hosted before = m₀)
    {i : Instruction} (hat : m₀.At p .call i) {time : Float}
    (hcall : m₀.run 1 time = (.ok .outOfFuel, m₂)) {actions : List HostAction}
    (hsingle : ∀ a ∈ actions, a.isSingle = true)
    (hinside : ∀ pre, pre <+: actions → (m₂.hosted pre).frames.size ≠ m₀.frames.size) :
    i.a.toNat ≤ m₀.stack.size ∧ m₀.frames.toList <+: (m₂.hosted actions).frames.toList ∧
      ∀ last : HostAction, last.isSingle = true →
        (m₂.hosted (actions ++ [last])).frames.size = m₀.frames.size →
        ∃ time' i', last = .run 1 time' ∧ (m₂.hosted actions).At p .return_ i' ∧
          (m₂.hosted (actions ++ [last])).BackIn m₀.frames.toList ⟨m₀.chunk, m₀.ip + 1, m₀.fp⟩ ∧
          (m₂.hosted (actions ++ [last])).stack.size =
            m₀.stack.size - i.a.toNat + i'.a.toNat := by
  obtain ⟨m₁', hboot', hwaiting⟩ := Machine.boot_waiting hverify m
  obtain rfl : m₁ = m₁' := Except.ok.inj (hboot.symm.trans hboot')
  have hreached : m₀.Waiting p := hbefore ▸ hwaiting.hosted hverify before
  have hcalls := hreached.calls hverify hat hcall
  have hcalled := hreached.of_run hverify hcall
  have hlast := hcalls.within.hosted hverify hcalled hsingle (by simpa using hinside)
  refine ⟨hcalls.arguments, ?_, ?_⟩
  · obtain ⟨inner, hframes, -⟩ := hlast
    rw [hframes]
    exact List.prefix_append _ _
  · intro last hlastSingle hdepth
    rw [Machine.hosted_concat] at hdepth ⊢
    obtain hstill | hback := hlast.host hverify (hcalled.hosted hverify actions) hlastSingle
    · -- inside the call there are more frames than the saved ones
      have hdeep := hstill.depth
      rw [Array.length_toList] at hdeep
      omega
    · obtain ⟨time', i', hrun, hreturns, hback⟩ := hback
      exact ⟨time', i', hrun, hreturns.here, hback, hreturns.size_eq⟩

/-- A chunk that drops the words of its caller and its own, and calls another one before it
returns. -/
def droppingProgram : Program where
  chunks := #[
    ⟨"<entry>", #[.ofImmediate .pushImmediate 5, .ofImmediate .pushImmediate 6,
      .ofByteShort .call 1 1, .ofOpcode .halt], #[]⟩,
    ⟨"drop", #[.ofByteShort .pop 0 2, .ofByteShort .call 0 2, .ofImmediate .pushImmediate 8,
      .ofImmediate .pushImmediate 9, .ofBytes .return_ 1 0 0], #[]⟩,
    ⟨"seven", #[.ofImmediate .pushImmediate 7, .ofBytes .return_ 1 0 0], #[]⟩]
  entryPoint := 0
  externals := #[]

theorem returns_of_droppingProgram : ∃ m₁ m₂ i',
    (Machine.new {}).boot droppingProgram = .ok m₁ ∧
    (m₁.hosted [.run 2 0]).run 1 0 = (.ok .outOfFuel, m₂) ∧
    (m₂.hosted (List.replicate 6 (.run 1 0))).At droppingProgram .return_ i' ∧
    (m₂.hosted (List.replicate 6 (.run 1 0) ++ [.run 1 0])).BackIn [] ⟨0, 3, 0⟩ ∧
    (m₂.hosted (List.replicate 6 (.run 1 0) ++ [.run 1 0])).stack.size = 2 - 1 + i'.a.toNat := by
  have hboot : ∃ m₁, (Machine.new {}).boot droppingProgram = .ok m₁ := ⟨_, rfl⟩
  obtain ⟨m₁, hboot⟩ := hboot
  have hran : ((m₁.hosted [.run 2 0]).run 1 0).1.toOption = some .outOfFuel := by
    cases hboot
    decide +kernel
  obtain ⟨m₂, hcall⟩ := Machine.run_eq_of_toOption hran
  have hcaller : (m₁.hosted [.run 2 0]).frames.size = 0 ∧ (m₁.hosted [.run 2 0]).chunk = 0 ∧
      (m₁.hosted [.run 2 0]).ip = 2 ∧ (m₁.hosted [.run 2 0]).fp = 0 ∧
      (m₁.hosted [.run 2 0]).stack.size = 2 := by
    cases hboot
    decide +kernel
  obtain ⟨hbefore, hchunk, hip, hfp, hstack⟩ := hcaller
  have hat : (m₁.hosted [.run 2 0]).At droppingProgram .call (.ofByteShort .call 1 1) := by
    rw [Machine.At, hchunk, hip]
    exact ⟨_, rfl, rfl, rfl⟩
  have hdepths : (∀ k < 7, (m₂.hosted (List.replicate k (.run 1 0))).frames.size ≠ 0) ∧
      (m₂.hosted (List.replicate 6 (.run 1 0) ++ [.run 1 0])).frames.size = 0 := by
    obtain rfl : ((m₁.hosted [.run 2 0]).run 1 0).2 = m₂ := congrArg Prod.snd hcall
    cases hboot
    decide +kernel
  obtain ⟨hinside, hafter⟩ := hdepths
  have hsingle : ∀ a ∈ List.replicate 6 (.run 1 0), HostAction.isSingle a = true := by
    simp [HostAction.isSingle]
  have hinside' : ∀ pre, pre <+: List.replicate 6 (.run 1 0) →
      (m₂.hosted pre).frames.size ≠ (m₁.hosted [.run 2 0]).frames.size := by
    intro pre hpre
    obtain ⟨hlength, hreplicate⟩ := List.prefix_replicate_iff.mp hpre
    rw [hreplicate, hbefore]
    exact hinside _ (by omega)
  obtain ⟨-, -, hreturns⟩ := returns_of_call rfl hboot rfl hat hcall hsingle hinside'
  obtain ⟨time', i', -, hat', hback⟩ := hreturns (.run 1 0) rfl (hafter.trans hbefore.symm)
  have hframes : (m₁.hosted [.run 2 0]).frames.toList = [] :=
    List.eq_nil_of_length_eq_zero hbefore
  rw [hframes, hchunk, hip, hfp, hstack] at hback
  exact ⟨m₁, m₂, i', hboot, hcall, hat', hback⟩

end WordScript
