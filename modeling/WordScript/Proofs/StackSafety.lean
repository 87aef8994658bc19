/-
Well-shaped programs keep the discipline of the stack.

If every chunk of a program has a shape, a machine that starts with it is always
where the shapes say: the frame has the height of the next instruction, and each
caller that waits will find the height it expects when its callee returns.  So no
instruction lacks words, and no run ends for want of code.

* `Machine.Stable` — the invariant;
* `Machine.Stable.step` — what one instruction does to it;
* `Machine.Settled.run` — what a run does to it, whatever the clock shows.

The code decides how control moves and the stack only holds data, so the invariant
needs no assumption about the words on the stack or in the heap.
-/
import WordScript.Machine.Run
import WordScript.Proofs.StackShape
import WordScript.Proofs.HostFunctions

namespace WordScript

/-- The bottom of a frame: the first chunk stands on the bottom of the stack, and the chunks that it
calls stand above the words that they may address there. -/
def StandsOn (shape : Option ChunkShape) (fp : Nat) : Prop :=
  match shape with
  | none => fp = 0
  | some s => s.globals ≤ fp

/-- What a chunk may address at the bottom of the stack is there. -/
theorem StandsOn.reach_le {shape : Option ChunkShape} {fp : Nat} (h : StandsOn shape fp)
    (height : Nat) : reach shape height ≤ fp + height := by
  cases shape with
  | none => exact Nat.le_add_left _ _
  | some s => exact Nat.le_trans h (Nat.le_add_right _ _)

namespace Exec

/-- The host functions that are bound do what their shapes say. -/
def Natives (L : Linkage) (externals : Array Native) : Prop :=
  ∀ (k : Nat) (s : CallShape) (f : Native), L.externals[k]? = some s → externals[k]? = some f →
    f.Balanced s.parameters s.returns

variable {L : Linkage} {shape : Option ChunkShape} {p : Program} {c : Chunk} {time : Float}
  {i : Instruction} {op : Opcode} {m : Machine} {height : Nat}

theorem Sizes.continuing {x : Exec Unit} {floor size : Nat} (h : x.Sizes m floor fun _ n => n = size) :
    (continuing x).Sizes m floor fun flow n => flow = .next ∧ n = size :=
  Sizes.bind h fun _ _ _ hn => sizes_pure ⟨rfl, hn⟩

theorem sizes_callExternal (hn : Natives L m.externals) {s : CallShape}
    (hs : L.externals[i.short.toNat]? = some s) {floor : Nat}
    (hstack : floor + s.parameters ≤ m.stack.size) :
    (callExternal p i).Sizes m floor
      fun _ n => n + s.parameters = m.stack.size + s.returns := by
  refine sizes_get ?_
  cases hf : m.externals[i.short.toNat]? with
  | some f => exact (hn _ s f hs hf).sizes_run hstack
  | none => exact sizes_of_error rfl (.refl m) rfl (by omega)

/-- What a plain instruction does to the height of its frame. -/
theorem sizes_perform (hplain : op.isPlain = true) (hstack : m.stack.size = m.fp + height)
    (hpops : i.pops op ≤ height) (hadmits : i.Admits L shape c.constants height op)
    (hstands : StandsOn shape m.fp) (hn : Natives L m.externals) :
    (perform p c time i op).Sizes m m.fp fun flow n =>
      flow = .next ∧ n = m.fp + (height - i.pops op + i.pushes L op) := by
  have hreach := hstands.reach_le
  -- the words that the opcode takes lie above the floor, those that it gives follow from its effect
  cases op with
  | halt | yield | jump | jumpIfFalse | call | return_ => cases hplain
  | callExternal =>
    obtain ⟨s, hs, ha⟩ := hadmits
    simp only [Instruction.pops, Instruction.pushes, hs] at hpops ⊢
    refine Sizes.continuing ((sizes_callExternal hn hs (by omega)).mono fun _ n hsize => ?_)
    omega
  | pushImmediate =>
    simp only [Instruction.pops, Instruction.pushes] at hpops ⊢
    refine Sizes.continuing ((sizes_pushWord _).mono fun _ n hsize => ?_)
    omega
  | loadConstant =>
    simp only [Instruction.pops, Instruction.pushes] at hpops ⊢
    refine Sizes.continuing ?_
    rw [Array.getElem?_eq_getElem hadmits]
    refine (sizes_pushWord _).mono fun _ n hsize => ?_
    omega
  | loadHeapConstant =>
    simp only [Instruction.pops, Instruction.pushes] at hpops ⊢
    obtain ⟨payload, hpayload, hsize⟩ := hadmits
    refine Sizes.continuing
      ((steady_heapConstant c i.short hpayload hsize m m.fp (by omega)).bind fun address m₁ _ h₁ => ?_)
    refine (sizes_pushWord _).mono fun _ n hsize => ?_
    omega
  | pushZero =>
    simp only [Instruction.pops, Instruction.pushes] at hpops ⊢
    refine Sizes.continuing ((sizes_pushWords _).mono fun _ n hsize => ?_)
    rw [Array.size_replicate] at hsize
    omega
  | pop =>
    simp only [Instruction.pops, Instruction.pushes] at hpops ⊢
    refine Sizes.continuing ((sizes_top (by omega)).bind fun at_ m₁ _ h₁ => ?_)
    refine (sizes_truncate (by omega)).mono fun _ n hsize => ?_
    omega
  | duplicate =>
    simp only [Instruction.pops, Instruction.pushes] at hpops ⊢
    refine Sizes.continuing ((sizes_top (by omega)).bind fun at_ m₁ _ h₁ => ?_)
    refine (sizes_pushRun (by omega)).mono fun _ n hsize => ?_
    omega
  | loadVariable =>
    simp only [Instruction.pops, Instruction.pushes, Instruction.Admits] at hpops hadmits ⊢
    refine Sizes.continuing (sizes_get ((sizes_pushRun (by omega)).mono fun _ n hsize => ?_))
    omega
  | storeVariable =>
    simp only [Instruction.pops, Instruction.pushes, Instruction.Admits] at hpops hadmits ⊢
    refine Sizes.continuing (sizes_get ((sizes_popInto (by omega)).mono fun _ n hsize => ?_))
    omega
  | loadGlobal =>
    have := hreach height
    simp only [Instruction.pops, Instruction.pushes, Instruction.Admits] at hpops hadmits ⊢
    refine Sizes.continuing ((sizes_pushRun (by omega)).mono fun _ n hsize => ?_)
    omega
  | storeGlobal =>
    have := hreach (height - i.a.toNat)
    simp only [Instruction.pops, Instruction.pushes, Instruction.Admits] at hpops hadmits ⊢
    refine Sizes.continuing ((sizes_popInto (by omega)).mono fun _ n hsize => ?_)
    omega
  | select =>
    simp only [Instruction.pops, Instruction.pushes, Instruction.Admits] at hpops hadmits ⊢
    refine Sizes.continuing ((sizes_select hadmits (by omega)).mono fun _ n hsize => ?_)
    omega
  | storeTop =>
    simp only [Instruction.pops, Instruction.pushes, Instruction.Admits] at hpops hadmits ⊢
    refine Sizes.continuing ((sizes_storeTop hadmits.1 (by omega)).mono fun _ n hsize => ?_)
    omega
  | addressOf =>
    simp only [Instruction.pops, Instruction.pushes] at hpops ⊢
    refine Sizes.continuing (sizes_get ((sizes_pushWord _).mono fun _ n hsize => ?_))
    omega
  | loadIndirect =>
    simp only [Instruction.pops, Instruction.pushes] at hpops ⊢
    refine Sizes.continuing ((sizes_popWord (by omega)).bind fun address m₁ _ h₁ => ?_)
    refine (steady_offset _ _ m₁ m.fp (by omega)).bind fun place m₂ _ h₂ => ?_
    refine (sizes_loadRun _ _ _ (by omega)).mono fun _ n hsize => ?_
    omega
  | storeIndirect =>
    simp only [Instruction.pops, Instruction.pushes] at hpops ⊢
    refine Sizes.continuing ((sizes_storeIndirect _ (by omega) (by omega)).mono fun _ n hsize => ?_)
    omega
  | offsetAddress =>
    simp only [Instruction.pops, Instruction.pushes] at hpops ⊢
    refine Sizes.continuing ((sizes_popWord (by omega)).bind fun address m₁ _ h₁ => ?_)
    refine (steady_offset _ _ m₁ m.fp (by omega)).bind fun place m₂ _ h₂ => ?_
    refine (sizes_pushWord _).mono fun _ n hsize => ?_
    omega
  | indexAddress =>
    simp only [Instruction.pops, Instruction.pushes] at hpops ⊢
    refine Sizes.continuing ((sizes_indexSpan _ _ (by omega)).mono fun _ n hsize => ?_)
    omega
  | addInt | subtractInt | multiplyInt | addFloat | subtractFloat | multiplyFloat | divideFloat
  | lessInt | lessEqualInt | greaterInt | greaterEqualInt | lessFloat | lessEqualFloat
  | greaterFloat | greaterEqualFloat | and | or =>
    simp only [Instruction.pops, Instruction.pushes] at hpops ⊢
    refine Sizes.continuing ((sizes_binary _ (by omega)).mono fun _ n hsize => ?_)
    omega
  | divideInt | moduloInt =>
    simp only [Instruction.pops, Instruction.pushes] at hpops ⊢
    refine Sizes.continuing ((sizes_divide _ (by omega)).mono fun _ n hsize => ?_)
    omega
  | negateInt | negateFloat | not | intToFloat | floatToInt =>
    simp only [Instruction.pops, Instruction.pushes] at hpops ⊢
    refine Sizes.continuing ((sizes_unary _ (by omega)).mono fun _ n hsize => ?_)
    omega
  | equal | notEqual =>
    simp only [Instruction.pops, Instruction.pushes] at hpops ⊢
    refine Sizes.continuing ((sizes_equal _ (by omega)).mono fun _ n hsize => ?_)
    omega
  | new =>
    simp only [Instruction.pops, Instruction.pushes] at hpops ⊢
    refine Sizes.continuing ((sizes_newBlock (by omega) (by omega)).mono fun _ n hsize => ?_)
    omega
  | freeHeap =>
    simp only [Instruction.pops, Instruction.pushes] at hpops ⊢
    refine Sizes.continuing ((sizes_freeBlock _ (by omega)).mono fun _ n hsize => ?_)
    omega
  | listNew =>
    simp only [Instruction.pops, Instruction.pushes] at hpops ⊢
    refine Sizes.continuing ((steady_newList _ _ m m.fp (by omega)).bind fun list m₁ _ h₁ => ?_)
    refine (sizes_pushWord _).mono fun _ n hsize => ?_
    omega
  | listPush =>
    simp only [Instruction.pops, Instruction.pushes] at hpops ⊢
    refine Sizes.continuing ((sizes_pushList _ ?_ (by omega)).mono fun _ n hsize => ?_)
    · rw [UInt8.toNat_toUInt32]
      omega
    · rw [UInt8.toNat_toUInt32] at hsize
      omega
  | listLength =>
    simp only [Instruction.pops, Instruction.pushes] at hpops ⊢
    refine Sizes.continuing ((sizes_popWord (by omega)).bind fun list m₁ _ h₁ => ?_)
    refine (steady_lengthList _ m₁ m.fp (by omega)).bind fun length m₂ _ h₂ => ?_
    refine (sizes_pushWord _).mono fun _ n hsize => ?_
    omega
  | listIndex =>
    simp only [Instruction.pops, Instruction.pushes] at hpops ⊢
    refine Sizes.continuing ((sizes_indexList _ (by omega)).mono fun _ n hsize => ?_)
    omega
  | listFree =>
    simp only [Instruction.pops, Instruction.pushes] at hpops ⊢
    refine Sizes.continuing ((sizes_freeList _ (by omega)).mono fun _ n hsize => ?_)
    omega

end Exec

/-- Every chunk of a program has a shape, by its number. -/
structure Program.Shaped (L : Linkage) (heights : Nat → Nat → Nat) (p : Program) : Prop where
  chunk : ∀ (k : Nat) (shape : Option ChunkShape), L.chunks[k]? = some shape →
    ∃ c, p.chunks[k]? = some c ∧ c.Shaped L shape (heights k)
  entry : L.chunks[p.entryPoint.toNat]? = some none

namespace Machine

section

variable (L : Linkage) (heights : Nat → Nat → Nat) (p : Program)

/-- The callers that wait, the innermost first, for a chunk whose frame begins at `fp`.  When it
returns, its results take the place of its frame, and that is the height its caller goes on with. -/
def Awaited : (chunk fp : Nat) → List Frame → Prop
  | chunk, fp, [] => L.chunks[chunk]? = some none ∧ fp = 0
  | chunk, fp, caller :: rest =>
    (∃ s, L.chunks[chunk]? = some (some s) ∧ s.globals ≤ fp ∧ caller.fp ≤ fp ∧
      heights caller.chunk caller.ip = fp - caller.fp + s.returns) ∧
    (∃ c, p.chunks[caller.chunk]? = some c ∧ caller.ip < c.code.size) ∧
    Awaited caller.chunk caller.fp rest

/-- The machine is at an instruction, its frame has the height of that instruction, and so will the
frames of all callers when they go on. -/
structure Stable (m : Machine) : Prop where
  code : ∃ c, p.chunks[m.chunk]? = some c ∧ m.ip < c.code.size
  size : m.stack.size = m.fp + heights m.chunk m.ip
  frames : Awaited L heights p m.chunk m.fp m.frames.toList.reverse
  natives : Exec.Natives L m.externals
  program : m.program = some p

end

variable {L : Linkage} {heights : Nat → Nat → Nat} {p : Program} {m : Machine}

/-- The chunk that is running has a shape, and its frame stands where it should. -/
theorem Awaited.stands {chunk fp : Nat} {frames : List Frame}
    (h : Awaited L heights p chunk fp frames) :
    ∃ shape, L.chunks[chunk]? = some shape ∧ StandsOn shape fp := by
  cases frames with
  | nil => exact ⟨none, h.1, h.2⟩
  | cons caller rest =>
    obtain ⟨⟨s, hs, hglobals, -⟩, -⟩ := h
    exact ⟨some s, hs, hglobals⟩

/-- What the next instruction is, and that it fits. -/
theorem Stable.fetch (hp : p.Shaped L heights) (h : m.Stable L heights p) :
    ∃ (c : Chunk) (shape : Option ChunkShape) (i : Instruction) (op : Opcode),
      p.chunks[m.chunk]? = some c ∧ L.chunks[m.chunk]? = some shape ∧ c.code[m.ip]? = some i ∧
      i.Fits L shape c.constants (heights m.chunk) (c.code.size - 1) m.ip op ∧
      StandsOn shape m.fp := by
  obtain ⟨c, hc, hip⟩ := h.code
  obtain ⟨shape, hshape, hstands⟩ := h.frames.stands
  obtain ⟨c', hc', hshaped⟩ := hp.chunk m.chunk shape hshape
  obtain rfl : c = c' := Option.some_inj.mp (hc.symm.trans hc')
  obtain ⟨op, hfits⟩ := hshaped.fits m.ip _ (Array.getElem?_eq_getElem hip)
  exact ⟨c, shape, _, op, hc, hshape, Array.getElem?_eq_getElem hip, hfits, hstands⟩

theorem step_eq {c : Chunk} {i : Instruction} {op : Opcode} {time : Float}
    (hc : p.chunks[m.chunk]? = some c) (hi : c.code[m.ip]? = some i) (hop : i.opcode? = some op) :
    Exec.step p time m = Exec.perform p c time i op { m with ip := m.ip + 1 } := by
  have hfetch : Exec.fetch p m = .ok (c, i) { m with ip := m.ip + 1 } := by
    simp only [Exec.fetch, hc, hi]
  show EStateM.bind (Exec.fetch p) _ m = _
  simp only [EStateM.bind, hfetch, hop]

/-- Where one instruction leads: on to an instruction in a stable machine, to a stop in a machine that
has halted or will go on in a stable state, or to a tame fault.  The stack never sinks below the
frame. -/
def StepsSafely (L : Linkage) (heights : Nat → Nat → Nat) (p : Program) (m : Machine) :
    EStateM.Result Fault Machine Flow → Prop
  | .ok .next m' => m'.Stable L heights p
  | .ok .stop m' => m'.state = .halt ∧ m' = { m with ip := m.ip + 1, state := .halt } ∨
      m'.state = .yield ∧ m'.Stable L heights p
  | .error f m' => f.isTame = true ∧ m'.fp ≤ m'.stack.size ∧ m'.program = some p

/-- Instructions that only work on memory. -/
theorem Stable.step_plain (h : m.Stable L heights p) {c : Chunk} {shape : Option ChunkShape}
    {i : Instruction} {op : Opcode} {time : Float} (hc : p.chunks[m.chunk]? = some c)
    (hi : c.code[m.ip]? = some i)
    (hfits : i.Fits L shape c.constants (heights m.chunk) (c.code.size - 1) m.ip op)
    (hstands : StandsOn shape m.fp) (hplain : op.isPlain = true) :
    StepsSafely L heights p m (Exec.step p time m) := by
  rw [step_eq hc hi hfits.opcode]
  have hfalls : op.fallsThrough = true := by
    cases op <;> first | rfl | cases hplain
  obtain ⟨hlt, hnext⟩ := hfits.next hfalls
  have hin : m.ip + 1 < c.code.size := by omega
  -- the code decides where control goes on, the effect only how high the stack is then
  have hsizes : (Exec.perform p c time i op).Sizes { m with ip := m.ip + 1 } m.fp _ :=
    Exec.sizes_perform hplain h.size hfits.pops_le hfits.admits hstands h.natives
  rw [Exec.Sizes] at hsizes
  cases hx : Exec.perform p c time i op { m with ip := m.ip + 1 } with
  | ok flow m' =>
    rw [hx] at hsizes
    obtain ⟨⟨stack, heap, heapConstants, log, rfl⟩, rfl, hsize⟩ := hsizes
    refine ⟨⟨c, hc, hin⟩, ?_, h.frames, h.natives, h.program⟩
    show stack.size = m.fp + heights m.chunk (m.ip + 1)
    rw [hnext]
    exact hsize
  | error f m' =>
    rw [hx] at hsizes
    obtain ⟨⟨stack, heap, heapConstants, log, rfl⟩, htame, hfloor⟩ := hsizes
    exact ⟨htame, hfloor, h.program⟩

/-- A jump that lands. -/
theorem jump_eq {i : Instruction} {ip n length : Nat} {height : Nat}
    (hip : m.ip = ip + 1) (hlands : Instruction.Lands (heights m.chunk) n (i.target ip) height)
    (hn : n ≤ length) :
    ∃ k, k ≤ n ∧ heights m.chunk k = height ∧
      Exec.jump i length m = .ok () { m with ip := k } := by
  obtain ⟨k, hk, hkn, hheight⟩ := hlands
  have htarget : (m.ip : Int) + i.signedShort = k := by
    rw [← hk, Instruction.target, hip]
    omega
  refine ⟨k, hkn, hheight, ?_⟩
  have hin : ¬((k : Int) < 0 ∨ (length : Int) < k) := by omega
  simp only [Exec.jump, htarget, if_neg hin, Int.toNat_natCast]

theorem popWord_eq {m : Machine} (h : 0 < m.stack.size) :
    ∃ w, Exec.popWord m = .ok w { m with stack := m.stack.pop } := by
  refine ⟨m.stack[m.stack.size - 1], ?_⟩
  simp only [Exec.popWord, Array.back?_eq_getElem?, Array.getElem?_eq_getElem (Nat.sub_one_lt_of_lt h)]

/-- Jumps, taken or not. -/
theorem Stable.step_jump (h : m.Stable L heights p) {c : Chunk} {shape : Option ChunkShape}
    {i : Instruction} {op : Opcode} {time : Float} (hc : p.chunks[m.chunk]? = some c)
    (hi : c.code[m.ip]? = some i)
    (hfits : i.Fits L shape c.constants (heights m.chunk) (c.code.size - 1) m.ip op)
    (hjumps : op.jumps = true) : StepsSafely L heights p m (Exec.step p time m) := by
  rw [step_eq hc hi hfits.opcode]
  have hip : m.ip < c.code.size := (Array.getElem?_eq_some_iff.mp hi).1
  have hpops := hfits.pops_le
  have hlands := hfits.target hjumps
  have hsize := h.size
  cases op with
  | jump =>
    obtain ⟨k, hk, hheight, hjump⟩ := jump_eq (m := { m with ip := m.ip + 1 }) rfl hlands
      (Nat.sub_le c.code.size 1)
    show StepsSafely L heights p m (EStateM.bind (Exec.jump i c.code.size) _ _)
    simp only [EStateM.bind, hjump]
    refine ⟨⟨c, hc, ?_⟩, ?_, h.frames, h.natives, h.program⟩
    · show k < c.code.size
      omega
    · show m.stack.size = m.fp + heights m.chunk k
      rw [hheight]
      exact hsize
  | jumpIfFalse =>
    have hpos : 0 < heights m.chunk m.ip := hpops
    obtain ⟨hlt, hnext⟩ := hfits.next rfl
    obtain ⟨w, hpop⟩ := popWord_eq (m := { m with ip := m.ip + 1 }) (by show 0 < m.stack.size; omega)
    have hsize' : m.stack.pop.size = m.fp + (heights m.chunk m.ip - 1) := by
      rw [Array.size_pop]
      omega
    show StepsSafely L heights p m (EStateM.bind (EStateM.bind Exec.popWord _) _ _)
    simp only [EStateM.bind, hpop]
    -- the condition is popped on both ways, so both targets have one word less
    by_cases hw : w = 0
    · obtain ⟨k, hk, hheight, hjump⟩ :=
        jump_eq (m := { m with ip := m.ip + 1, stack := m.stack.pop }) rfl hlands
          (Nat.sub_le c.code.size 1)
      simp only [if_pos hw, hjump]
      refine ⟨⟨c, hc, ?_⟩, ?_, h.frames, h.natives, h.program⟩
      · show k < c.code.size
        omega
      · show m.stack.pop.size = m.fp + heights m.chunk k
        rw [hheight]
        exact hsize'
    · rw [if_neg hw]
      refine ⟨⟨c, hc, ?_⟩, ?_, h.frames, h.natives, h.program⟩
      · show m.ip + 1 < c.code.size
        omega
      · show m.stack.pop.size = m.fp + heights m.chunk (m.ip + 1)
        rw [hnext]
        exact hsize'
  | _ => cases hjumps

/-- What a call to an existing chunk does when its arguments are there. -/
theorem call_eq {i : Instruction} {m : Machine} (hexists : i.short.toNat < p.chunks.size)
    (htop : i.a.toNat ≤ m.stack.size) :
    Exec.call p i m =
      if m.config.maxCallDepth ≤ m.frames.size then
        .error (.callDepthExceeded m.config.maxCallDepth) m
      else
        .ok () { m with
          frames := m.frames.push ⟨m.chunk, m.ip, m.fp⟩
          chunk := i.short.toNat
          ip := 0
          fp := m.stack.size - i.a.toNat } := by
  have htop' : Exec.top i.a.toNat m = .ok (m.stack.size - i.a.toNat) m := if_pos htop
  simp only [Exec.call, if_neg (Nat.not_le.mpr hexists)]
  show (if m.config.maxCallDepth ≤ m.frames.size then _ else _ : Exec Unit) m = _
  by_cases hdepth : m.config.maxCallDepth ≤ m.frames.size
  · rw [if_pos hdepth, if_pos hdepth]
    rfl
  · rw [if_neg hdepth, if_neg hdepth]
    show EStateM.bind (Exec.top i.a.toNat) _ m = _
    simp only [EStateM.bind, htop']
    rfl

/-- A call goes to the beginning of its callee, with its arguments as the new frame. -/
theorem Stable.step_call (hp : p.Shaped L heights) (h : m.Stable L heights p) {c : Chunk}
    {shape : Option ChunkShape} {i : Instruction} {time : Float}
    (hc : p.chunks[m.chunk]? = some c) (hi : c.code[m.ip]? = some i)
    (hfits : i.Fits L shape c.constants (heights m.chunk) (c.code.size - 1) m.ip .call)
    (hstands : StandsOn shape m.fp) : StepsSafely L heights p m (Exec.step p time m) := by
  rw [step_eq hc hi hfits.opcode]
  obtain ⟨s, hs, ha, hglobals⟩ := hfits.admits
  obtain ⟨hlt, hnext⟩ := hfits.next rfl
  obtain ⟨callee, hcallee, hshaped⟩ := hp.chunk _ _ hs
  have hsize := h.size
  have hpops : i.a.toNat ≤ heights m.chunk m.ip := hfits.pops_le
  have hexists : i.short.toNat < p.chunks.size := (Array.getElem?_eq_some_iff.mp hcallee).1
  have htop : i.a.toNat ≤ m.stack.size := by omega
  have hcall := call_eq (m := { m with ip := m.ip + 1 }) hexists htop
  show StepsSafely L heights p m (EStateM.bind (Exec.call p i) _ _)
  simp only [EStateM.bind, hcall]
  -- too many frames are a fault that leaves the frame as it is
  by_cases hdepth : m.config.maxCallDepth ≤ m.frames.size
  · rw [if_pos hdepth]
    refine ⟨rfl, ?_, h.program⟩
    show m.fp ≤ m.stack.size
    omega
  · rw [if_neg hdepth]
    refine ⟨⟨callee, hcallee, hshaped.nonempty⟩, ?_, ?_, h.natives, h.program⟩
    · show m.stack.size = m.stack.size - i.a.toNat + heights i.short.toNat 0
      rw [hshaped.entry]
      show _ = _ + s.parameters
      omega
    · have hreach := hstands.reach_le (heights m.chunk m.ip - i.a.toNat)
      show Awaited L heights p i.short.toNat (m.stack.size - i.a.toNat)
        (m.frames.push ⟨m.chunk, m.ip + 1, m.fp⟩).toList.reverse
      rw [Array.toList_push, List.reverse_append]
      refine ⟨⟨s, hs, ?_, ?_, ?_⟩, ⟨c, hc, ?_⟩, h.frames⟩
      · omega
      · show m.fp ≤ m.stack.size - i.a.toNat
        omega
      · show heights m.chunk (m.ip + 1) = m.stack.size - i.a.toNat - m.fp + s.returns
        rw [hnext]
        simp only [Instruction.pops, Instruction.pushes, hs]
        omega
      · show m.ip + 1 < c.code.size
        omega

theorem modify_bind {α : Type} (f : Machine → Machine) (x : Exec α) (m : Machine) :
    ((modify f : Exec PUnit) >>= fun _ => x) m = x (f m) :=
  rfl

theorem modifyGet_apply {α : Type} (f : Machine → α × Machine) (m : Machine) :
    (modifyGet f : Exec α) m = .ok (f m).1 (f m).2 :=
  rfl

/-- What a return does when its results lie in its frame and a caller waits. -/
theorem return_eq {i : Instruction} {m : Machine} {caller : Frame}
    (hsize : m.fp + i.a.toNat ≤ m.stack.size) (hcaller : m.frames.back? = some caller) :
    Exec.return_ i m = .ok .next { m with
      stack := Words.moveDown m.stack (m.stack.size - i.a.toNat) m.fp i.a.toNat
      frames := m.frames.pop
      chunk := caller.chunk
      ip := caller.ip
      fp := caller.fp } := by
  have htop : Exec.top i.a.toNat m = .ok (m.stack.size - i.a.toNat) m := if_pos (by omega)
  show EStateM.bind (Exec.top i.a.toNat) _ m = _
  simp only [EStateM.bind, htop]
  show (if m.stack.size - i.a.toNat < m.fp then _ else _ : Exec Flow) m = _
  rw [if_neg (by omega), modify_bind, modifyGet_apply]
  simp only [hcaller]

/-- A return goes on with its caller, which finds the height it expects. -/
theorem Stable.step_return (h : m.Stable L heights p) {c : Chunk} {shape : Option ChunkShape}
    {i : Instruction} {time : Float} (hc : p.chunks[m.chunk]? = some c)
    (hshape : L.chunks[m.chunk]? = some shape) (hi : c.code[m.ip]? = some i)
    (hfits : i.Fits L shape c.constants (heights m.chunk) (c.code.size - 1) m.ip .return_) :
    StepsSafely L heights p m (Exec.step p time m) := by
  rw [step_eq hc hi hfits.opcode]
  obtain ⟨s, rfl, ha⟩ := hfits.admits
  have hsize := h.size
  have hpops : i.a.toNat ≤ heights m.chunk m.ip := hfits.pops_le
  have hframes := h.frames
  cases hrev : m.frames.toList.reverse with
  | nil =>
    -- only the first chunk has no callers, and it does not return
    rw [hrev] at hframes
    have := hshape.symm.trans hframes.1
    cases this
  | cons caller rest =>
    rw [hrev] at hframes
    obtain ⟨⟨s', hs', -, hfp, hheight⟩, hcode, hrest⟩ := hframes
    obtain rfl : s = s' := by
      have := hshape.symm.trans hs'
      cases this
      rfl
    have hlist : m.frames.toList = rest.reverse ++ [caller] := by
      rw [← List.reverse_reverse m.frames.toList, hrev, List.reverse_cons]
    have hback : m.frames.back? = some caller := by
      rw [← Array.getLast?_toList, hlist, List.getLast?_concat]
    have hpop : m.frames.pop.toList.reverse = rest := by
      rw [Array.toList_pop, hlist, List.dropLast_concat, List.reverse_reverse]
    have hreturn := return_eq (i := i) (m := { m with ip := m.ip + 1 })
      (by show m.fp + i.a.toNat ≤ m.stack.size; omega) hback
    show StepsSafely L heights p m (Exec.return_ i _)
    rw [hreturn]
    refine ⟨hcode, ?_, ?_, h.natives, h.program⟩
    · show (Array.shrink (Words.write m.stack m.fp _) (m.fp + i.a.toNat)).size =
        caller.fp + heights caller.chunk caller.ip
      rw [Array.size_shrink, Words.size_write, hheight]
      omega
    · show Awaited L heights p caller.chunk caller.fp m.frames.pop.toList.reverse
      rw [hpop]
      exact hrest

/-- Suspending drops the time to wait; the machine goes on after it. -/
theorem Stable.step_yield (h : m.Stable L heights p) {c : Chunk} {shape : Option ChunkShape}
    {i : Instruction} {time : Float} (hc : p.chunks[m.chunk]? = some c)
    (hi : c.code[m.ip]? = some i)
    (hfits : i.Fits L shape c.constants (heights m.chunk) (c.code.size - 1) m.ip .yield) :
    StepsSafely L heights p m (Exec.step p time m) := by
  rw [step_eq hc hi hfits.opcode]
  obtain ⟨hlt, hnext⟩ := hfits.next rfl
  have hsize := h.size
  have hpops : 1 ≤ heights m.chunk m.ip := hfits.pops_le
  obtain ⟨w, hpop⟩ := popWord_eq (m := { m with ip := m.ip + 1 }) (by show 0 < m.stack.size; omega)
  show StepsSafely L heights p m (EStateM.bind (EStateM.bind Exec.popWord _) _ _)
  simp only [EStateM.bind, hpop]
  refine .inr ⟨rfl, ⟨c, hc, ?_⟩, ?_, h.frames, h.natives, h.program⟩
  · show m.ip + 1 < c.code.size
    omega
  · show m.stack.pop.size = m.fp + heights m.chunk (m.ip + 1)
    rw [Array.size_pop, hnext]
    simp only [Instruction.pops, Instruction.pushes]
    omega

/-- One instruction of a well-shaped program. -/
theorem Stable.step (hp : p.Shaped L heights) (h : m.Stable L heights p) (time : Float) :
    StepsSafely L heights p m (Exec.step p time m) := by
  obtain ⟨c, shape, i, op, hc, hshape, hi, hfits, hstands⟩ := h.fetch hp
  by_cases hplain : op.isPlain = true
  · exact h.step_plain hc hi hfits hstands hplain
  · cases op with
    | halt =>
      rw [step_eq hc hi hfits.opcode]
      exact .inl ⟨rfl, rfl⟩
    | yield => exact h.step_yield hc hi hfits
    | jump => exact h.step_jump hc hi hfits rfl
    | jumpIfFalse => exact h.step_jump hc hi hfits rfl
    | call => exact h.step_call hp hc hi hfits hstands
    | return_ => exact h.step_return hc hshape hi hfits
    | _ => exact absurd rfl hplain

/-! ### Runs -/

/-- Where instructions lead that are executed one after the other. -/
def ExecutesSafely (L : Linkage) (heights : Nat → Nat → Nat) (p : Program) :
    EStateM.Result Fault Machine Bool → Prop
  | .ok false m => m.Stable L heights p
  | .ok true m => m.program = some p ∧ m.fp ≤ m.stack.size ∧
      (m.state ≠ .halt → m.Stable L heights p)
  | .error f m => f.isTame = true ∧ m.fp ≤ m.stack.size ∧ m.program = some p

theorem Stable.fp_le (h : m.Stable L heights p) : m.fp ≤ m.stack.size := by
  rw [h.size]
  exact Nat.le_add_right _ _

theorem Stable.execute (hp : p.Shaped L heights) (time : Float) (fuel : Nat) :
    ∀ {m : Machine}, m.Stable L heights p →
      ExecutesSafely L heights p (Exec.execute p time fuel m) := by
  induction fuel with
  | zero =>
    intro m h
    exact h
  | succ fuel ih =>
    intro m h
    have hstep := h.step hp time
    show ExecutesSafely L heights p (EStateM.bind (Exec.step p time) _ m)
    rw [EStateM.bind]
    cases hx : Exec.step p time m with
    | ok flow m' =>
      rw [hx] at hstep
      cases flow with
      | next => exact ih hstep
      | stop =>
        obtain ⟨hhalt, rfl⟩ | ⟨-, hstable⟩ := hstep
        · exact ⟨h.program, h.fp_le, fun hne => absurd hhalt hne⟩
        · exact ⟨hstable.program, hstable.fp_le, fun _ => hstable⟩
    | error f m' =>
      rw [hx] at hstep
      exact hstep

/-- A machine between two runs: it has stopped for good, or it can go on. -/
structure Settled (L : Linkage) (heights : Nat → Nat → Nat) (p : Program) (m : Machine) : Prop where
  program : m.program = some p
  fp_le : m.fp ≤ m.stack.size
  stable : m.state ≠ .halt → m.Stable L heights p

/-- What a run of a settled machine does. -/
theorem Settled.resume (hp : p.Shaped L heights) (h : m.Stable L heights p) (fuel : Nat)
    (time : Float) :
    (m.resume fuel time p).2.Settled L heights p ∧
      ∀ e, (m.resume fuel time p).1 = .error e → e.fault.isTame = true := by
  have hrunning : Stable L heights p { m with state := .running } :=
    ⟨h.code, h.size, h.frames, h.natives, h.program⟩
  have hexec := Stable.execute hp time fuel hrunning
  rw [Machine.resume]
  cases hx : Exec.execute p time fuel { m with state := .running } with
  | ok stopped m' =>
    rw [hx] at hexec
    cases stopped with
    | false => exact ⟨⟨hexec.program, hexec.fp_le, fun _ => hexec⟩, fun e he => nomatch he⟩
    | true => exact ⟨⟨hexec.1, hexec.2.1, hexec.2.2⟩, fun e he => nomatch he⟩
  | error f m' =>
    rw [hx] at hexec
    obtain ⟨htame, hfp, hprogram⟩ := hexec
    refine ⟨⟨hprogram, hfp, fun hne => absurd rfl hne⟩, fun e he => ?_⟩
    rw [fault_of_brokenOff he]
    exact htame

theorem Settled.run (hp : p.Shaped L heights) (h : m.Settled L heights p) (fuel : Nat)
    (time : Float) :
    (m.run fuel time).2.Settled L heights p ∧
      ∀ e, (m.run fuel time).1 = .error e → e.fault.isTame = true := by
  rw [Machine.run, h.program]
  cases hstate : m.state with
  | halt => exact ⟨h, fun e he => nomatch he⟩
  | running => exact Settled.resume hp (h.stable (by rw [hstate]; decide)) fuel time
  | yield =>
    have hstable := h.stable (by rw [hstate]; decide)
    show Settled L heights p (if time < m.resumeAt then _ else _ : _ × Machine).2 ∧ _
    split
    · exact ⟨h, fun e he => nomatch he⟩
    · exact Settled.resume hp hstable fuel time

/-- The machine after some runs, each with its fuel and at its time. -/
def after (m : Machine) : List (Nat × Float) → Machine
  | [] => m
  | (fuel, time) :: runs => (m.run fuel time).2.after runs

theorem Settled.after (hp : p.Shaped L heights) :
    ∀ {m : Machine} (runs : List (Nat × Float)), m.Settled L heights p →
      (m.after runs).Settled L heights p
  | _, [], h => h
  | _, (fuel, time) :: runs, h => Settled.after hp runs (h.run hp fuel time).1

/-- A machine that has just been booted. -/
theorem boot_settled (hp : p.Shaped L heights) {m₁ : Machine} {externals : Array Native}
    (hn : Exec.Natives L externals) (hboot : m.boot p = .ok m₁) :
    Settled L heights p { m₁ with externals } := by
  rw [boot] at hboot
  split at hboot
  · cases hboot
  · cases hboot
    obtain ⟨c, hc, hshaped⟩ := hp.chunk _ _ hp.entry
    refine ⟨rfl, Nat.le_refl 0, fun _ => ⟨⟨c, hc, hshaped.nonempty⟩, ?_, ⟨hp.entry, rfl⟩, hn, rfl⟩⟩
    show 0 = 0 + heights p.entryPoint.toNat 0
    rw [hshaped.entry]
    rfl

/-! ### Variables -/

end Machine

namespace Opcode

/-- Operations on variables, which go by an offset. -/
def isVariableAccess : Opcode → Bool
  | loadVariable | storeVariable | loadGlobal | storeGlobal => true
  | _ => false

end Opcode

namespace Machine

variable {L : Linkage} {heights : Nat → Nat → Nat} {p : Program} {m : Machine}

/-- Access to a variable never faults. -/
theorem Stable.step_variable (hp : p.Shaped L heights) (h : m.Stable L heights p) {c : Chunk}
    {i : Instruction} {op : Opcode} (time : Float) (hc : p.chunks[m.chunk]? = some c)
    (hi : c.code[m.ip]? = some i) (hop : i.opcode? = some op) (hv : op.isVariableAccess = true) :
    ∃ m', Exec.step p time m = .ok .next m' := by
  obtain ⟨c', shape, i', op', hc', -, hi', hfits, hstands⟩ := h.fetch hp
  obtain rfl : c' = c := Option.some_inj.mp (hc'.symm.trans hc)
  obtain rfl : i' = i := Option.some_inj.mp (hi'.symm.trans hi)
  obtain rfl : op' = op := Option.some_inj.mp (hfits.opcode.symm.trans hop)
  rw [step_eq hc hi hop]
  have hsize := h.size
  have hpops := hfits.pops_le
  have hadmits := hfits.admits
  have hreach := hstands.reach_le
  -- what a variable needs is below the height, in the frame for locals and at the bottom for
  -- globals
  cases op' with
  | loadVariable =>
    simp only [Instruction.Admits] at hadmits
    have hrun := Exec.pushRun_eq (m := { m with ip := m.ip + 1 })
      (show m.fp + i'.short.toNat + i'.a.toNat ≤ m.stack.size by omega)
    show ∃ m', EStateM.bind (Exec.pushRun (m.fp + i'.short.toNat) i'.a.toNat) _ _ = _
    simp only [EStateM.bind, hrun]
    exact ⟨_, rfl⟩
  | storeVariable =>
    simp only [Instruction.Admits, Instruction.pops] at hadmits hpops
    have hrun := Exec.popInto_eq (m := { m with ip := m.ip + 1 })
      (show m.fp + i'.short.toNat + i'.a.toNat + i'.a.toNat ≤ m.stack.size by omega)
    show ∃ m', EStateM.bind (Exec.popInto (m.fp + i'.short.toNat) i'.a.toNat) _ _ = _
    simp only [EStateM.bind, hrun]
    exact ⟨_, rfl⟩
  | loadGlobal =>
    have := hreach (heights m.chunk m.ip)
    simp only [Instruction.Admits] at hadmits
    have hrun := Exec.pushRun_eq (m := { m with ip := m.ip + 1 })
      (show i'.short.toNat + i'.a.toNat ≤ m.stack.size by omega)
    show ∃ m', EStateM.bind (Exec.pushRun i'.short.toNat i'.a.toNat) _ _ = _
    simp only [EStateM.bind, hrun]
    exact ⟨_, rfl⟩
  | storeGlobal =>
    have := hreach (heights m.chunk m.ip - i'.a.toNat)
    simp only [Instruction.Admits, Instruction.pops] at hadmits hpops
    have hrun := Exec.popInto_eq (m := { m with ip := m.ip + 1 })
      (show i'.short.toNat + i'.a.toNat + i'.a.toNat ≤ m.stack.size by omega)
    show ∃ m', EStateM.bind (Exec.popInto i'.short.toNat i'.a.toNat) _ _ = _
    simp only [EStateM.bind, hrun]
    exact ⟨_, rfl⟩
  | _ => cases hv

end Machine

end WordScript
