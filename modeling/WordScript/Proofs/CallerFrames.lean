/-
Frames of callers survive calls.

All frames share one stack, and nothing guards the words of one against the code of
another.  Compiled code needs no guard: the frame of a call begins with its arguments,
its code never lets the stack sink below them, and the places that it stores to are in
its frame.  So when the call returns, the stack is what it was before, with the results
in place of the arguments.  Only code that writes to global variables or through
addresses, or asks the host, can do more than that.

* `Machine.Nested` — calls inside a call, with the heights at which they go on;
* `Machine.Guarded` — a call whose callers are as they were;
* `Machine.Guarded.step`, `Machine.Guarded.hosted` — one instruction, and any number of
  them up to the end of the call;
* `frames_survive_calls` — the stack after a call.

Design notes: the heights of a chunk are those of the frame alone, so they hold in a call
whatever has happened to the stack before it.
-/
import WordScript.Proofs.CallMatching
import WordScript.Proofs.HeapWords
import WordScript.Proofs.StackFloor
import WordScript.Proofs.Verified

namespace WordScript

/-- The words at the end of an array, moved down, replace everything from their new place on. -/
theorem Words.moveDown_eq {s : Array Word} {target count : Nat} (h : target + count ≤ s.size) :
    moveDown s (s.size - count) target count =
      s.extract 0 target ++ s.extract (s.size - count) s.size := by
  have hrun : (run s (s.size - count) count).toList.length = count := by
    rw [Array.length_toList, run, Array.size_extract]
    omega
  have hsize : (s.extract 0 target).size = target := by
    rw [Array.size_extract]
    omega
  refine Array.ext_getElem? fun j => ?_
  by_cases hlow : j < target
  · rw [AgreeBelow.moveDown count (Nat.le_refl target) j hlow,
      Array.getElem?_append_left (by omega), Array.getElem?_extract, if_pos (by omega),
      Nat.zero_add]
  · rw [Array.getElem?_append_right (by omega), hsize, moveDown]
    rw [Array.shrink_eq_take, Array.take_eq_extract, Array.getElem?_extract, size_write,
      Array.getElem?_extract, Nat.zero_add]
    by_cases hhigh : j < target + count
    · have hwrite : (write s target (run s (s.size - count) count).toList)[target + (j - target)]? =
          (run s (s.size - count) count).toList[j - target]? := getElem?_write (by omega) (by omega)
      rw [show target + (j - target) = j by omega, Array.getElem?_toList, getElem?_run,
        if_pos (by omega)] at hwrite
      rw [if_pos (by omega), if_pos (by omega), hwrite]
    · rw [if_neg (by omega), if_neg (by omega)]

namespace Machine

section

variable (L : Linkage) (heights : Nat → Nat → Nat) (p : Program)

/-- Calls that wait for a chunk whose frame begins at `fp`, the innermost first, up to the call
whose frame begins at `base`. -/
def Nested (base : Nat) : (chunk fp : Nat) → List Frame → Prop
  | chunk, fp, [] => (∃ s, L.chunks[chunk]? = some (some s)) ∧ fp = base
  | chunk, fp, caller :: rest =>
    (∃ s, L.chunks[chunk]? = some (some s) ∧ caller.fp ≤ fp ∧
      heights caller.chunk caller.ip = fp - caller.fp + s.returns) ∧
    (∃ c, p.chunks[caller.chunk]? = some c ∧ caller.ip < c.code.size) ∧
    Nested base caller.chunk caller.fp rest

/-- Control is in a call whose frame begins at `base`, or in calls that it has made, each frame has
the height of its instruction, and the words below `base` are those of `outside`. -/
structure Guarded (saved : List Frame) (caller : Frame) (base : Nat) (outside : Array Word)
    (m : Machine) : Prop where
  code : ∃ c, p.chunks[m.chunk]? = some c ∧ m.ip < c.code.size
  size : m.stack.size = m.fp + heights m.chunk m.ip
  frames : ∃ inner, m.frames.toList = saved ++ caller :: inner ∧
    Nested L heights p base m.chunk m.fp inner.reverse
  below : Words.AgreeBelow base outside m.stack

end

variable {L : Linkage} {heights : Nat → Nat → Nat} {p : Program} {m m' : Machine}
  {saved : List Frame} {caller : Frame} {base : Nat} {outside : Array Word}

theorem Nested.shape {chunk fp : Nat} {frames : List Frame}
    (h : Nested L heights p base chunk fp frames) : ∃ s, L.chunks[chunk]? = some (some s) := by
  cases frames with
  | nil => exact h.1
  | cons f rest =>
    obtain ⟨⟨s, hs, -⟩, -⟩ := h
    exact ⟨s, hs⟩

theorem Nested.base_le {frames : List Frame} : ∀ {chunk fp : Nat},
    Nested L heights p base chunk fp frames → base ≤ fp := by
  induction frames with
  | nil =>
    rintro chunk fp ⟨-, rfl⟩
    exact Nat.le_refl fp
  | cons f rest ih =>
    rintro chunk fp ⟨⟨s, -, hle, -⟩, -, hrest⟩
    exact Nat.le_trans (ih hrest) hle

/-! ### One instruction -/

section Step

variable {c : Chunk} {shape : Option ChunkShape} {i : Instruction} {op : Opcode} {time : Float}
  {flow : Flow}

theorem Guarded.base_le (h : m.Guarded L heights p saved caller base outside) : base ≤ m.fp := by
  obtain ⟨inner, -, hnested⟩ := h.frames
  exact hnested.base_le

/-- The instruction at which control stands fits. -/
theorem Guarded.fits (hp : p.Shaped L heights) (h : m.Guarded L heights p saved caller base outside)
    (hc : p.chunks[m.chunk]? = some c) (hi : c.code[m.ip]? = some i) (hop : i.opcode? = some op) :
    ∃ s, L.chunks[m.chunk]? = some (some s) ∧
      i.Fits L (some s) c.constants (heights m.chunk) (c.code.size - 1) m.ip op := by
  obtain ⟨inner, -, hnested⟩ := h.frames
  obtain ⟨s, hs⟩ := hnested.shape
  obtain ⟨c', hc', hshaped⟩ := hp.chunk m.chunk _ hs
  obtain rfl : c = c' := Option.some_inj.mp (hc.symm.trans hc')
  obtain ⟨op', hfits⟩ := hshaped.fits m.ip i hi
  obtain rfl : op = op' := Option.some_inj.mp (hop.symm.trans hfits.opcode)
  exact ⟨s, hs, hfits⟩

theorem Guarded.step_plain (h : m.Guarded L heights p saved caller base outside)
    (hc : p.chunks[m.chunk]? = some c) (hi : c.code[m.ip]? = some i)
    (hfits : i.Fits L shape c.constants (heights m.chunk) (c.code.size - 1) m.ip op)
    (hplain : op.isPlain = true) (hcalm : op.reachesOut = false)
    (hstep : Exec.step p time m = .ok flow m') :
    m'.Guarded L heights p saved caller base outside := by
  rw [step_eq hc hi hfits.opcode] at hstep
  have hfalls : op.fallsThrough = true := by
    cases op <;> first | rfl | cases hplain
  obtain ⟨hlt, hnext⟩ := hfits.next hfalls
  have habove : (Exec.perform p c time i op).Above { m with ip := m.ip + 1 } m.fp _ :=
    Exec.above_perform hplain hcalm h.size hfits.pops_le hfits.admits
  obtain ⟨⟨stack, heap, heapConstants, log, rfl⟩, hbelow, -, hsize⟩ := habove flow m' hstep
  refine ⟨⟨c, hc, ?_⟩, ?_, h.frames, h.below.trans (hbelow.mono h.base_le)⟩
  · show m.ip + 1 < c.code.size
    omega
  · show stack.size = m.fp + heights m.chunk (m.ip + 1)
    rw [hnext]
    exact hsize

/-- A machine that goes on in the same call, with another instruction and words above the frame. -/
theorem Guarded.goTo {ip : Nat} {stack : Array Word} {time' : Float} {state : ExecutionState}
    (h : m.Guarded L heights p saved caller base outside) (hc : p.chunks[m.chunk]? = some c)
    (hip : ip < c.code.size) (hsize : stack.size = m.fp + heights m.chunk ip)
    (hbelow : Words.AgreeBelow m.fp m.stack stack) :
    Guarded L heights p saved caller base outside
      { m with ip, stack, resumeAt := time', state } :=
  ⟨⟨c, hc, hip⟩, hsize, h.frames, h.below.trans (hbelow.mono h.base_le)⟩

theorem Guarded.step_jump (h : m.Guarded L heights p saved caller base outside)
    (hc : p.chunks[m.chunk]? = some c) (hi : c.code[m.ip]? = some i)
    (hfits : i.Fits L shape c.constants (heights m.chunk) (c.code.size - 1) m.ip .jump)
    (hstep : Exec.step p time m = .ok flow m') :
    m'.Guarded L heights p saved caller base outside := by
  have hip : m.ip < c.code.size := (Array.getElem?_eq_some_iff.mp hi).1
  obtain ⟨k, hk, hheight, hjump⟩ := jump_eq (m := { m with ip := m.ip + 1 }) rfl (hfits.target rfl)
    (Nat.sub_le c.code.size 1)
  rw [step_eq hc hi hfits.opcode] at hstep
  change EStateM.bind (Exec.jump i c.code.size) _ _ = _ at hstep
  simp only [EStateM.bind, hjump] at hstep
  cases hstep
  refine h.goTo hc (by omega) ?_ (.refl _ _)
  rw [show heights m.chunk k = _ from hheight, h.size]
  rfl

theorem Guarded.step_jumpIfFalse (h : m.Guarded L heights p saved caller base outside)
    (hc : p.chunks[m.chunk]? = some c) (hi : c.code[m.ip]? = some i)
    (hfits : i.Fits L shape c.constants (heights m.chunk) (c.code.size - 1) m.ip .jumpIfFalse)
    (hstep : Exec.step p time m = .ok flow m') :
    m'.Guarded L heights p saved caller base outside := by
  have hsize := h.size
  have hpops : 1 ≤ heights m.chunk m.ip := hfits.pops_le
  obtain ⟨hlt, hnext⟩ := hfits.next rfl
  have hpopped : m.stack.pop.size = m.fp + (heights m.chunk m.ip - 1) := by
    rw [Array.size_pop]
    omega
  -- the condition lies above the frame pointer, so the words of the callers are not touched
  have hbelow : Words.AgreeBelow m.fp m.stack m.stack.pop := .pop (by omega)
  obtain ⟨w, hpop⟩ := popWord_eq (m := { m with ip := m.ip + 1 }) (by show 0 < m.stack.size; omega)
  rw [step_eq hc hi hfits.opcode] at hstep
  change EStateM.bind (EStateM.bind Exec.popWord _) _ _ = _ at hstep
  simp only [EStateM.bind, hpop] at hstep
  by_cases hw : w = 0
  · obtain ⟨k, hk, hheight, hjump⟩ := jump_eq (m := { m with ip := m.ip + 1, stack := m.stack.pop })
      rfl (hfits.target rfl) (Nat.sub_le c.code.size 1)
    simp only [if_pos hw, hjump] at hstep
    cases hstep
    refine h.goTo hc (by omega) ?_ hbelow
    rw [show heights m.chunk k = _ from hheight]
    exact hpopped
  · simp only [if_neg hw] at hstep
    cases hstep
    refine h.goTo hc (by omega) ?_ hbelow
    rw [hnext]
    exact hpopped

theorem Guarded.step_yield (h : m.Guarded L heights p saved caller base outside)
    (hc : p.chunks[m.chunk]? = some c) (hi : c.code[m.ip]? = some i)
    (hfits : i.Fits L shape c.constants (heights m.chunk) (c.code.size - 1) m.ip .yield)
    (hstep : Exec.step p time m = .ok flow m') :
    m'.Guarded L heights p saved caller base outside := by
  have hsize := h.size
  have hpops : 1 ≤ heights m.chunk m.ip := hfits.pops_le
  obtain ⟨hlt, hnext⟩ := hfits.next rfl
  obtain ⟨w, hpop⟩ := popWord_eq (m := { m with ip := m.ip + 1 }) (by show 0 < m.stack.size; omega)
  rw [step_eq hc hi hfits.opcode] at hstep
  change EStateM.bind (EStateM.bind Exec.popWord _) _ _ = _ at hstep
  simp only [EStateM.bind, hpop] at hstep
  cases hstep
  refine h.goTo hc (by show m.ip + 1 < c.code.size; omega) ?_ (.pop (by omega))
  show m.stack.pop.size = m.fp + heights m.chunk (m.ip + 1)
  rw [hnext, Array.size_pop]
  simp only [Instruction.pops, Instruction.pushes]
  omega

/-- A call inside the call: its arguments are the new frame. -/
theorem Guarded.step_call (hp : p.Shaped L heights)
    (h : m.Guarded L heights p saved caller base outside) (hc : p.chunks[m.chunk]? = some c)
    (hi : c.code[m.ip]? = some i)
    (hfits : i.Fits L shape c.constants (heights m.chunk) (c.code.size - 1) m.ip .call)
    (hstep : Exec.step p time m = .ok flow m') :
    m'.Guarded L heights p saved caller base outside := by
  have hsize := h.size
  have hpops : i.a.toNat ≤ heights m.chunk m.ip := hfits.pops_le
  obtain ⟨s, hs, ha, -⟩ := hfits.admits
  obtain ⟨hlt, hnext⟩ := hfits.next rfl
  obtain ⟨callee, hcallee, hshaped⟩ := hp.chunk _ _ hs
  have hexists : i.short.toNat < p.chunks.size := (Array.getElem?_eq_some_iff.mp hcallee).1
  have htop : i.a.toNat ≤ m.stack.size := by omega
  have hcall := call_eq (m := { m with ip := m.ip + 1 }) hexists htop
  rw [step_eq hc hi hfits.opcode] at hstep
  change EStateM.bind (Exec.call p i) _ _ = _ at hstep
  simp only [EStateM.bind, hcall] at hstep
  by_cases hdepth : m.config.maxCallDepth ≤ m.frames.size
  · rw [if_pos hdepth] at hstep
    cases hstep
  · rw [if_neg hdepth] at hstep
    cases hstep
    obtain ⟨inner, hframes, hnested⟩ := h.frames
    -- the stack stays as it is: the frame begins below the arguments that are on it
    refine ⟨⟨callee, hcallee, hshaped.nonempty⟩, ?_, ?_, h.below⟩
    · show m.stack.size = m.stack.size - i.a.toNat + heights i.short.toNat 0
      rw [hshaped.entry]
      show _ = _ + s.parameters
      omega
    · refine ⟨inner ++ [⟨m.chunk, m.ip + 1, m.fp⟩], ?_, ?_⟩
      · show (m.frames.push _).toList = _
        rw [Array.toList_push, hframes]
        simp
      · rw [List.reverse_append]
        refine ⟨⟨s, hs, ?_, ?_⟩, ⟨c, hc, ?_⟩, hnested⟩
        · show m.fp ≤ m.stack.size - i.a.toNat
          omega
        · show heights m.chunk (m.ip + 1) = m.stack.size - i.a.toNat - m.fp + s.returns
          rw [hnext]
          simp only [Instruction.pops, Instruction.pushes, hs]
          omega
        · show m.ip + 1 < c.code.size
          omega

/-- A return to a caller inside the call, which finds the height it expects. -/
theorem Guarded.step_return (h : m.Guarded L heights p saved caller base outside)
    (hc : p.chunks[m.chunk]? = some c) (hi : c.code[m.ip]? = some i) {s : ChunkShape}
    (hs : L.chunks[m.chunk]? = some (some s))
    (hfits : i.Fits L (some s) c.constants (heights m.chunk) (c.code.size - 1) m.ip .return_)
    (hstep : Exec.step p time m = .ok flow m') (hdeep : saved.length < m'.frames.size) :
    m'.Guarded L heights p saved caller base outside := by
  have hsize := h.size
  have hpops : i.a.toNat ≤ heights m.chunk m.ip := hfits.pops_le
  obtain ⟨s', hs', ha⟩ := hfits.admits
  cases hs'
  obtain ⟨inner, hframes, hnested⟩ := h.frames
  have hreturn : ∀ {rest : List Frame} {f : Frame}, m.frames.toList = rest ++ [f] →
      m'.frames.toList = rest ∧ m' = { m with
        stack := Words.moveDown m.stack (m.stack.size - i.a.toNat) m.fp i.a.toNat
        frames := m.frames.pop
        chunk := f.chunk
        ip := f.ip
        fp := f.fp } := by
    intro rest f hlist
    have hback : m.frames.back? = some f := by
      rw [← Array.getLast?_toList, hlist, List.getLast?_concat]
    rw [step_eq hc hi hfits.opcode] at hstep
    change Exec.return_ i _ = _ at hstep
    rw [return_eq (m := { m with ip := m.ip + 1 })
      (by show m.fp + i.a.toNat ≤ m.stack.size; omega) hback] at hstep
    cases hstep
    refine ⟨?_, rfl⟩
    rw [Array.toList_pop, hlist, List.dropLast_concat]
  obtain hnil | ⟨inner', f, hconcat⟩ := List.eq_nil_or_concat inner
  · -- a return of the call itself would leave no more than the saved frames
    rw [hnil] at hframes
    obtain ⟨hrest, -⟩ := hreturn hframes
    rw [← Array.length_toList, hrest] at hdeep
    exact absurd hdeep (Nat.lt_irrefl _)
  -- the caller is the last of the frames inside the call, and was pushed at the height it now finds
  · rw [hconcat, List.concat_eq_append] at hframes hnested
    rw [List.reverse_append] at hnested
    obtain ⟨⟨s', hs', hle, hheight⟩, hcode, hrest⟩ := hnested
    cases hs.symm.trans hs'
    have hlist : m.frames.toList = (saved ++ caller :: inner') ++ [f] := by simpa using hframes
    obtain ⟨hrestFrames, rfl⟩ := hreturn hlist
    refine ⟨hcode, ?_, ⟨inner', hrestFrames, hrest⟩, ?_⟩
    · show (Array.shrink (Words.write m.stack m.fp _) (m.fp + i.a.toNat)).size =
        f.fp + heights f.chunk f.ip
      rw [Array.size_shrink, Words.size_write, hheight]
      omega
    · exact h.below.trans (.moveDown _ h.base_le)

/-- One instruction inside the call, as long as it does not end it. -/
theorem Guarded.step (hp : p.Shaped L heights)
    (h : m.Guarded L heights p saved caller base outside) (hat : m.At p op i)
    (hcalm : op.reachesOut = false) (hstep : Exec.step p time m = .ok flow m')
    (halive : m'.state ≠ .halt) (hdeep : saved.length < m'.frames.size) :
    m'.Guarded L heights p saved caller base outside := by
  obtain ⟨c, hc, hi, hop⟩ := hat
  obtain ⟨s, hs, hfits⟩ := h.fits hp hc hi hop
  by_cases hplain : op.isPlain = true
  · exact h.step_plain hc hi hfits hplain hcalm hstep
  · cases op with
    | halt =>
      rw [step_eq hc hi hop] at hstep
      cases hstep
      exact absurd rfl halive
    | yield => exact h.step_yield hc hi hfits hstep
    | jump => exact h.step_jump hc hi hfits hstep
    | jumpIfFalse => exact h.step_jumpIfFalse hc hi hfits hstep
    | call => exact h.step_call hp hc hi hfits hstep
    | return_ => exact h.step_return hc hi hs hfits hstep hdeep
    | _ => exact absurd rfl hplain

end Step

/-! ### Runs -/

/-- The operation at which control stands. -/
def opcode? (p : Program) (m : Machine) : Option Opcode := do
  let c ← p.chunks[m.chunk]?
  let i ← c.code[m.ip]?
  i.opcode?

theorem At.opcode?_eq {op : Opcode} {i : Instruction} (h : m.At p op i) :
    m.opcode? p = some op := by
  obtain ⟨c, hc, hi, hop⟩ := h
  simp [opcode?, hc, hi, hop]

/-- Between the runs the host does not touch the stack, and no instruction that is executed reaches
out of its frame. -/
structure LeavesAlone (p : Program) (m : Machine) (actions : List HostAction) : Prop where
  host : ∀ pre f, pre ++ [.use f] <+: actions →
    (m.hosted (pre ++ [.use f])).stack = (m.hosted pre).stack
  code : ∀ pre fuel time, pre ++ [.run fuel time] <+: actions →
    (m.hosted pre).executes time = true →
    ∀ op, (m.hosted pre).opcode? p = some op → op.reachesOut = false

theorem LeavesAlone.tail {action : HostAction} {actions : List HostAction}
    (h : m.LeavesAlone p (action :: actions)) : (m.host action).LeavesAlone p actions := by
  constructor
  · intro pre f hpre
    exact h.host (action :: pre) f (List.cons_prefix_cons.mpr ⟨rfl, hpre⟩)
  · intro pre fuel time hpre
    exact h.code (action :: pre) fuel time (List.cons_prefix_cons.mpr ⟨rfl, hpre⟩)

theorem LeavesAlone.mono {pre actions : List HostAction} (h : m.LeavesAlone p actions)
    (hpre : pre <+: actions) : m.LeavesAlone p pre :=
  ⟨fun _ _ h' => h.host _ _ (h'.trans hpre), fun _ _ _ h' => h.code _ _ _ (h'.trans hpre)⟩

theorem Guarded.at_ (hp : p.Shaped L heights)
    (h : m.Guarded L heights p saved caller base outside) : ∃ op i, m.At p op i := by
  obtain ⟨c, hc, hip⟩ := h.code
  obtain ⟨inner, -, hnested⟩ := h.frames
  obtain ⟨s, hs⟩ := hnested.shape
  obtain ⟨c', hc', hshaped⟩ := hp.chunk m.chunk _ hs
  obtain rfl : c = c' := Option.some_inj.mp (hc.symm.trans hc')
  obtain ⟨op, hfits⟩ := hshaped.fits m.ip _ (Array.getElem?_eq_getElem hip)
  exact ⟨op, _, c, hc, Array.getElem?_eq_getElem hip, hfits.opcode⟩

/-- One thing that happens to a machine inside the call, as long as it does not end it. -/
theorem Guarded.host (hp : p.Shaped L heights) (hprogram : m.program = some p)
    (h : m.state ≠ .halt → m.Guarded L heights p saved caller base outside) {action : HostAction}
    (hsingle : action.isSingle = true) (halone : m.LeavesAlone p [action])
    (hdeep : saved.length < (m.host action).frames.size) :
    (m.host action).state ≠ .halt →
      (m.host action).Guarded L heights p saved caller base outside := by
  cases action with
  | bind externals =>
    intro halive
    have hm := h halive
    exact ⟨hm.code, hm.size, hm.frames, hm.below⟩
  | use f =>
    intro halive
    have hstack : (m.host (.use f)).stack = m.stack := halone.host [] f (List.prefix_refl _)
    obtain ⟨stack, heap, heapConstants, log, hm'⟩ := touches_use m f
    rw [hm'] at hstack halive ⊢
    obtain rfl : stack = m.stack := hstack
    have hm := h halive
    exact ⟨hm.code, hm.size, hm.frames, hm.below⟩
  | run fuel time =>
    obtain rfl : fuel = 1 := eq_of_beq hsingle
    rw [Machine.host] at hdeep ⊢
    have hrun := run_one_cases hprogram time
    have hcalm := halone.code [] 1 time (List.prefix_refl _)
    -- whether or not the machine goes on afterwards, it has executed one instruction
    have hexecuted {flow : Flow} {m' : Machine} (goes : m.executes time = true)
        (hx : Exec.step p time { m with state := .running } = .ok flow m')
        (hdeep : saved.length < m'.frames.size) (halive : m'.state ≠ .halt) :
        m'.Guarded L heights p saved caller base outside := by
      have hm := h (ne_halt_of_executes goes)
      obtain ⟨op, i, hat⟩ := hm.at_ hp
      have hset : Guarded L heights p saved caller base outside { m with state := .running } :=
        ⟨hm.code, hm.size, hm.frames, hm.below⟩
      exact hset.step hp hat (hcalm goes op hat.opcode?_eq) hx halive hdeep
    generalize m.run 1 time = ran at hrun hdeep
    cases hrun with
    | idle cut => exact h
    | next goes hx => exact hexecuted goes hx hdeep
    | stop goes hx => exact hexecuted goes hx hdeep
    | fault goes hx =>
      intro halive
      exact absurd rfl halive

/-- Everything that happens to a machine inside the call, up to the end of the call. -/
theorem Guarded.hosted (hp : p.Shaped L heights) (hverify : p.verify = .ok ())
    {actions : List HostAction} : ∀ {m : Machine}, m.Waiting p → m.Within saved caller base →
      (m.state ≠ .halt → m.Guarded L heights p saved caller base outside) →
      (∀ a ∈ actions, a.isSingle = true) → m.LeavesAlone p actions →
      (∀ pre, pre <+: actions → (m.hosted pre).frames.size ≠ saved.length) →
      (m.hosted actions).state ≠ .halt →
        (m.hosted actions).Guarded L heights p saved caller base outside := by
  induction actions with
  | nil =>
    intro m _ _ h _ _ _
    exact h
  | cons action actions ih =>
    intro m hwaiting hwithin h hsingle halone hinside
    obtain ⟨hfirst, hrest⟩ := List.forall_mem_cons.mp hsingle
    have hpre : [action] <+: action :: actions := List.cons_prefix_cons.mpr ⟨rfl, List.nil_prefix⟩
    have hwithin' := hwithin.host_of_ne hverify hwaiting hfirst (hinside [action] hpre)
    refine ih (hwaiting.host hverify action) hwithin' ?_ hrest halone.tail ?_
    · exact Guarded.host hp hwaiting.program h hfirst (halone.mono hpre) hwithin'.depth
    · intro pre hpre
      exact hinside (action :: pre) (List.cons_prefix_cons.mpr ⟨rfl, hpre⟩)

/-- A call in shaped code leads to a callee whose frame has the words of the arguments. -/
theorem Calls.guarded (hp : p.Shaped L heights) (hall : p.chunks.size = L.chunks.length)
    {i : Instruction} (hat : m.At p .call i) (h : Calls i m m') :
    m'.Guarded L heights p m.frames.toList ⟨m.chunk, m.ip + 1, m.fp⟩
      (m.stack.size - i.a.toNat) m.stack := by
  obtain ⟨c, hc, hi, hop⟩ := hat
  have hk : m.chunk < L.chunks.length := by
    rw [← hall]
    exact (Array.getElem?_eq_some_iff.mp hc).1
  -- the shape of the caller says which callee is called and with how many words
  obtain ⟨c', hc', hshaped⟩ := hp.chunk m.chunk _ (List.getElem?_eq_getElem hk)
  obtain rfl : c = c' := Option.some_inj.mp (hc.symm.trans hc')
  obtain ⟨op, hfits⟩ := hshaped.fits m.ip i hi
  obtain rfl : .call = op := Option.some_inj.mp (hop.symm.trans hfits.opcode)
  obtain ⟨s, hs, ha, -⟩ := hfits.admits
  obtain ⟨callee, hcallee, hcalleeShaped⟩ := hp.chunk _ _ hs
  have harguments := h.arguments
  refine ⟨⟨callee, ?_, ?_⟩, ?_, ⟨[], ?_, ⟨s, ?_⟩, h.fp⟩, ?_⟩
  · rw [h.chunk]
    exact hcallee
  · rw [h.ip]
    exact hcalleeShaped.nonempty
  · rw [h.stack, h.fp, h.chunk, h.ip, hcalleeShaped.entry]
    show m.stack.size = m.stack.size - i.a.toNat + s.parameters
    omega
  · rw [h.frames, Array.toList_push]
  · rw [h.chunk]
    exact hs
  · rw [h.stack]
    exact .refl _ _

end Machine

/-- Frames of callers survive calls.  Take a compiled program, and a machine at any point of it
where it is at a call that succeeds.  If no instruction reaches out of its frame and the host does
not touch the stack, then the return of the call leaves the stack as it was before the call, with
the results in place of the arguments, and goes on in the caller. -/
theorem frames_survive_calls {modules : List (String × String)} {p : Program}
    (hcompile : compileModules modules = .ok p) {m m₁ m₀ m₂ : Machine} (hboot : m.boot p = .ok m₁)
    {before : List HostAction} (hbefore : m₁.hosted before = m₀) {i : Instruction}
    (hat : m₀.At p .call i) {time : Float} (hcall : m₀.run 1 time = (.ok .outOfFuel, m₂))
    {actions : List HostAction} (hsingle : ∀ a ∈ actions, a.isSingle = true)
    (halone : m₂.LeavesAlone p actions)
    (hinside : ∀ pre, pre <+: actions → (m₂.hosted pre).frames.size ≠ m₀.frames.size)
    {last : HostAction} (hlast : last.isSingle = true)
    (hdepth : (m₂.hosted (actions ++ [last])).frames.size = m₀.frames.size) :
    i.a.toNat ≤ m₀.stack.size ∧ ∃ i', (m₂.hosted actions).At p .return_ i' ∧
      (m₂.hosted (actions ++ [last])).BackIn m₀.frames.toList ⟨m₀.chunk, m₀.ip + 1, m₀.fp⟩ ∧
      (m₂.hosted (actions ++ [last])).stack =
        m₀.stack.extract 0 (m₀.stack.size - i.a.toNat) ++ (m₂.hosted actions).stack.extract
          ((m₂.hosted actions).stack.size - i'.a.toNat) (m₂.hosted actions).stack.size := by
  obtain ⟨c, L, hkept, rfl⟩ := Compiler.kept_of_compiled hcompile
  obtain ⟨heights, hp, -⟩ := hkept.shaped
  have hverify := hkept.verify
  obtain ⟨m₁', hboot', hwaiting⟩ := Machine.boot_waiting hverify m
  obtain rfl : m₁ = m₁' := Except.ok.inj (hboot.symm.trans hboot')
  have hreached : m₀.Waiting c.build := hbefore ▸ hwaiting.hosted hverify before
  have hcalls := hreached.calls hverify hat hcall
  have hcalled := hreached.of_run hverify hcall
  have hinside' : ∀ pre, pre <+: actions →
      (m₂.hosted pre).frames.size ≠ m₀.frames.toList.length := by simpa using hinside
  have hwithin := hcalls.within.hosted hverify hcalled hsingle hinside'
  have hguarded := Machine.Guarded.hosted hp hverify hcalled hcalls.within
    (fun _ => hcalls.guarded hp hkept.chunks_size hat) hsingle halone hinside'
  rw [Machine.hosted_concat] at hdepth ⊢
  refine ⟨hcalls.arguments, ?_⟩
  obtain hstill | ⟨time', i', rfl, hreturns, hback⟩ :=
    hwithin.host hverify (hcalled.hosted hverify actions) hlast
  · have hdeep := hstill.depth
    rw [Array.length_toList] at hdeep
    omega
  · refine ⟨i', hreturns.here, hback, ?_⟩
    -- a machine that has halted does not return
    have halive : (m₂.hosted actions).state ≠ .halt := by
      intro hhalt
      have hidle : (m₂.hosted actions).executes time' = false := by
        rw [Machine.executes, hhalt]
      obtain ⟨r, -, hrun⟩ := Machine.run_of_not_executes hidle
      have hdeep := hwithin.depth
      rw [Machine.host, hrun] at hdepth
      rw [Array.length_toList] at hdeep
      exact absurd hdepth (Nat.ne_of_gt hdeep)
    rw [hreturns.stack, Words.moveDown_eq hreturns.results, (hguarded halive).below.extract_eq]

/-- A function that calls itself while a sum waits for its result. -/
def sumModules : List (String × String) :=
  [("sums", "function Sum(Int n) returns Int\n    if n < 1 then return 0\n" ++
    "    return n + Sum(n - 1)\nvar a = 7\nvar b = a + Sum(1)\n")]

/-- The machine `m₀` is at the call, and sixteen instructions after it `m₂` is at the return. -/
abbrev ShowsSum (p : Program) (m₀ m₂ : Machine) : Prop :=
  (m₀.run 1 0).1.toOption = some .outOfFuel ∧
  (p.chunks[m₀.chunk]?.bind fun c => c.code[m₀.ip]?) = some (.ofByteShort .call 1 1) ∧
  m₀.frames.size = 0 ∧ m₀.chunk = 0 ∧ m₀.ip = 3 ∧ m₀.fp = 0 ∧ m₀.stack = #[7, 7, 1] ∧
  (∀ k < 17, (m₂.hosted (List.replicate k (.run 1 0))).frames.size ≠ 0 ∧
    ((m₂.hosted (List.replicate k (.run 1 0))).opcode? p).all (!·.reachesOut) = true) ∧
  (m₂.hosted (List.replicate 16 (.run 1 0) ++ [.run 1 0])).frames.size = 0

theorem frames_survive_sum : ∃ (p : Program) (m₁ m₂ : Machine) (i' : Instruction),
    compileModules sumModules = .ok p ∧ (Machine.new {}).boot p = .ok m₁ ∧
    (m₁.hosted [.run 3 0]).run 1 0 = (.ok .outOfFuel, m₂) ∧
    (m₂.hosted (List.replicate 16 (.run 1 0))).At p .return_ i' ∧
    (m₂.hosted (List.replicate 16 (.run 1 0) ++ [.run 1 0])).BackIn [] ⟨0, 4, 0⟩ ∧
    (m₂.hosted (List.replicate 16 (.run 1 0) ++ [.run 1 0])).stack =
      #[7, 7] ++ (m₂.hosted (List.replicate 16 (.run 1 0))).stack.extract
        ((m₂.hosted (List.replicate 16 (.run 1 0))).stack.size - i'.a.toNat)
        (m₂.hosted (List.replicate 16 (.run 1 0))).stack.size := by
  have hcheck : ((compileModules sumModules).toOption.bind fun p =>
      ((Machine.new {}).boot p).toOption.map fun m₁ => decide (ShowsSum p (m₁.hosted [.run 3 0])
        ((m₁.hosted [.run 3 0]).run 1 0).2)) = some true := by
    decide +kernel
  cases hp : compileModules sumModules with
  | error e =>
    rw [hp] at hcheck
    cases hcheck
  | ok p =>
    cases hboot : (Machine.new {}).boot p with
    | error e =>
      rw [hp] at hcheck
      simp [Except.toOption, hboot] at hcheck
    | ok m₁ =>
      rw [hp] at hcheck
      simp only [Except.toOption, Option.bind_some, hboot, Option.map_some,
        Option.some_inj] at hcheck
      obtain ⟨hran, hcode, hframes, hchunk, hip, hfp, hstack, hinside, hback⟩ :=
        of_decide_eq_true hcheck
      obtain ⟨m₂, hcall⟩ := Machine.run_eq_of_toOption hran
      rw [hcall] at hinside hback
      obtain ⟨c, hc, hi⟩ := Option.bind_eq_some_iff.mp hcode
      have hsingle : ∀ a ∈ List.replicate 16 (.run 1 0), HostAction.isSingle a = true := by
        simp [HostAction.isSingle]
      have halone : m₂.LeavesAlone p (List.replicate 16 (.run 1 0)) := by
        constructor
        · intro pre f hpre
          have hmem := hpre.subset (List.mem_append_right pre List.mem_cons_self)
          cases (List.mem_replicate.mp hmem).2
        · intro pre fuel time hpre _ op hop
          have hpre' := (List.prefix_append pre _).trans hpre
          obtain ⟨hlength, hreplicate⟩ := List.prefix_replicate_iff.mp hpre'
          have hcalm := (hinside pre.length (by omega)).2
          rw [← hreplicate, hop] at hcalm
          simpa using hcalm
      have hdepths : ∀ pre, pre <+: List.replicate 16 (.run 1 0) →
          (m₂.hosted pre).frames.size ≠ (m₁.hosted [.run 3 0]).frames.size := by
        intro pre hpre
        obtain ⟨hlength, hreplicate⟩ := List.prefix_replicate_iff.mp hpre
        rw [hreplicate, hframes]
        exact (hinside _ (by omega)).1
      obtain ⟨-, i', hat, hin, hafter⟩ := frames_survive_calls hp hboot rfl ⟨c, hc, hi, rfl⟩ hcall
        hsingle halone hdepths rfl (hback.trans hframes.symm)
      have hnil : (m₁.hosted [.run 3 0]).frames.toList = [] := List.eq_nil_of_length_eq_zero hframes
      rw [hnil, hchunk, hip, hfp] at hin
      rw [hstack] at hafter
      exact ⟨p, m₁, m₂, i', rfl, hboot, hcall, hat, hin, hafter⟩

end WordScript
