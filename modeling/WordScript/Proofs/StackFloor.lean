/-
Instructions above the floor of a frame.

An instruction of shaped code takes its operands from the words of its frame and puts
its results back there.  The words below the frame are out of its reach, unless it
writes to a global variable or through an address, or leaves the work to the host.

* `Words.AgreeBelow` — stacks with the same words below a floor;
* `Exec.Above` — an effect that leaves the words below a floor alone;
* `Opcode.reachesOut` — operations that may write anywhere;
* `Exec.above_perform` — all others stay above the frame pointer.

Design notes: nothing is said of effects that fault.  So nothing has to be known of the
words below the frame, and whatever the host has done to them does not matter.
-/
import WordScript.Proofs.StackSafety

namespace WordScript

/-- The stacks have the same words below a floor. -/
def Words.AgreeBelow (floor : Nat) (s s' : Array Word) : Prop :=
  ∀ j, j < floor → s'[j]? = s[j]?

namespace Words.AgreeBelow

variable {floor : Nat} {s s₁ s₂ : Array Word}

theorem refl (floor : Nat) (s : Array Word) : AgreeBelow floor s s :=
  fun _ _ => rfl

theorem trans (h₁ : AgreeBelow floor s s₁) (h₂ : AgreeBelow floor s₁ s₂) :
    AgreeBelow floor s s₂ := by
  intro j hj
  rw [h₂ j hj, h₁ j hj]

theorem mono {floor' : Nat} (h : AgreeBelow floor s s₁) (hle : floor' ≤ floor) :
    AgreeBelow floor' s s₁ :=
  fun j hj => h j (by omega)

theorem push (w : Word) (h : floor ≤ s.size) : AgreeBelow floor s (s.push w) := by
  intro j hj
  rw [Array.getElem?_push, if_neg (by omega)]

theorem append (ws : Array Word) (h : floor ≤ s.size) : AgreeBelow floor s (s ++ ws) :=
  fun _ hj => Array.getElem?_append_left (by omega)

theorem pop (h : floor < s.size) : AgreeBelow floor s s.pop := by
  intro j hj
  rw [Array.getElem?_pop, if_pos (by omega)]

theorem shrink {size : Nat} (h : floor ≤ size) : AgreeBelow floor s (s.shrink size) := by
  intro j hj
  rw [Array.shrink_eq_take, Array.take_eq_extract, Array.getElem?_extract]
  by_cases hs : j < s.size
  · rw [if_pos (by omega), Nat.zero_add]
  · rw [if_neg (by omega), Array.getElem?_eq_none (by omega)]

theorem write {index : Nat} (ws : List Word) (h : floor ≤ index) :
    AgreeBelow floor s (Words.write s index ws) :=
  fun _ hj => Words.getElem?_write_of_lt (by omega)

theorem moveDown {source target : Nat} (count : Nat) (h : floor ≤ target) :
    AgreeBelow floor s (Words.moveDown s source target count) :=
  (write _ h).trans (shrink (by omega))

theorem extract_eq (h : AgreeBelow floor s s₁) : s₁.extract 0 floor = s.extract 0 floor := by
  refine Array.ext_getElem? fun j => ?_
  rw [Array.getElem?_extract, Array.getElem?_extract, Nat.zero_add]
  by_cases hj : j < floor
  · have hword := h j hj
    by_cases hs : j < s.size
    · rw [Array.getElem?_eq_getElem hs] at hword
      have hs₁ := (Array.getElem?_eq_some_iff.mp hword).1
      rw [if_pos (by omega), if_pos (by omega), hword, Array.getElem?_eq_getElem hs]
    · rw [Array.getElem?_eq_none (Nat.le_of_not_lt hs)] at hword
      have hs₁ := Array.getElem?_eq_none_iff.mp hword
      rw [if_neg (by omega), if_neg (by omega)]
  · rw [if_neg (by omega), if_neg (by omega)]

end Words.AgreeBelow

namespace Exec

variable {α β : Type} {m : Machine} {floor : Nat}

/-- What a sequence has done where it succeeds. -/
theorem bind_eq_ok {x : Exec α} {f : α → Exec β} {b : β} {m' : Machine}
    (h : (x >>= f) m = .ok b m') : ∃ a m₁, x m = .ok a m₁ ∧ f a m₁ = .ok b m' := by
  have h : EStateM.bind x f m = .ok b m' := h
  rw [EStateM.bind] at h
  cases hx : x m with
  | ok a m₁ =>
    rw [hx] at h
    exact ⟨a, m₁, rfl, h⟩
  | error e m₁ =>
    rw [hx] at h
    cases h

/-- Where the effect succeeds on `m`, it has touched nothing but memory, and of the stack nothing
below the floor; its result and the size of the stack are as described by `Q`. -/
def Above (x : Exec α) (m : Machine) (floor : Nat) (Q : α → Nat → Prop) : Prop :=
  ∀ a m', x m = .ok a m' →
    m.Touches m' ∧ Words.AgreeBelow floor m.stack m'.stack ∧ Q a m'.stack.size

theorem Above.mono {x : Exec α} {Q Q' : α → Nat → Prop} (h : x.Above m floor Q)
    (hQ : ∀ a n, Q a n → Q' a n) : x.Above m floor Q' := by
  intro a m' hx
  obtain ⟨htouches, hbelow, hq⟩ := h a m' hx
  exact ⟨htouches, hbelow, hQ _ _ hq⟩

theorem Above.bind {x : Exec α} {f : α → Exec β} {Q : α → Nat → Prop} {Q' : β → Nat → Prop}
    (hx : x.Above m floor Q) (hf : ∀ a m', Q a m'.stack.size → (f a).Above m' floor Q') :
    (x >>= f).Above m floor Q' := by
  intro b m' h
  obtain ⟨a, m₁, hxm, hfm⟩ := bind_eq_ok h
  obtain ⟨htouches, hbelow, hq⟩ := hx a m₁ hxm
  obtain ⟨htouches', hbelow', hq'⟩ := hf a m₁ hq b m' hfm
  exact ⟨htouches.trans htouches', hbelow.trans hbelow', hq'⟩

theorem above_pure {a : α} {Q : α → Nat → Prop} (h : Q a m.stack.size) :
    (pure a : Exec α).Above m floor Q := by
  rintro _ _ ⟨⟩
  exact ⟨.refl m, .refl _ _, h⟩

theorem above_throw {f : Fault} {Q : α → Nat → Prop} : (throw f : Exec α).Above m floor Q := by
  rintro _ _ ⟨⟩

theorem above_get {f : Machine → Exec β} {Q : β → Nat → Prop} (h : (f m).Above m floor Q) :
    (get >>= f).Above m floor Q :=
  h

/-- A check before the rest. -/
theorem Above.checked {c : Prop} [Decidable c] {f : Fault} {x : Exec α} {Q : α → Nat → Prop}
    (h : ¬c → x.Above m floor Q) :
    (if c then (throw f : Exec PUnit) >>= fun _ => x else x).Above m floor Q := by
  split
  · rintro _ _ ⟨⟩
  · next hc => exact h hc

/-! ### Effects that leave the stack alone -/

/-- Where the effect succeeds, it has not touched the stack. -/
def Still (x : Exec α) : Prop :=
  ∀ m a m', x m = .ok a m' → m.Touches m' ∧ m'.stack = m.stack

theorem Still.above {x : Exec α} (h : Still x) (m : Machine) (floor : Nat) :
    x.Above m floor fun _ n => n = m.stack.size := by
  intro a m' hx
  obtain ⟨htouches, hstack⟩ := h m a m' hx
  rw [hstack]
  exact ⟨htouches, .refl _ _, rfl⟩

theorem Still.pure (a : α) : Still (pure a : Exec α) := by
  rintro m _ _ ⟨⟩
  exact ⟨.refl m, rfl⟩

theorem Still.throw (f : Fault) : Still (throw f : Exec α) := by
  rintro m _ _ ⟨⟩

theorem Still.bind {x : Exec α} {f : α → Exec β} (hx : Still x) (hf : ∀ a, Still (f a)) :
    Still (x >>= f) := by
  intro m b m' h
  obtain ⟨a, m₁, hxm, hfm⟩ := bind_eq_ok h
  obtain ⟨htouches, hstack⟩ := hx m a m₁ hxm
  obtain ⟨htouches', hstack'⟩ := hf a m₁ b m' hfm
  exact ⟨htouches.trans htouches', hstack'.trans hstack⟩

theorem Still.ite {c : Prop} [Decidable c] {x y : Exec α} (hx : Still x) (hy : Still y) :
    Still (if c then x else y) := by
  split
  · exact hx
  · exact hy

theorem still_get : Still (get : Exec Machine) := by
  rintro m _ _ ⟨⟩
  exact ⟨.refl m, rfl⟩

theorem still_lift (r : Except Fault α) : Still (lift r) := by
  intro m a m' h
  cases r with
  | ok b =>
    cases h
    exact ⟨.refl m, rfl⟩
  | error f => cases h

theorem still_allocate (length : Nat) : Still (allocate length) := by
  intro m a m' h
  simp only [allocate] at h
  split at h
  · cases h
    exact ⟨⟨_, _, _, _, rfl⟩, rfl⟩
  · cases h

theorem still_heapRead (index : Nat) : Still (heapRead index) := by
  intro m a m' h
  simp only [heapRead] at h
  split at h
  · cases h
    exact ⟨.refl m, rfl⟩
  · cases h

theorem still_heapStore (index : Nat) (ws : List Word) : Still (heapStore index ws) := by
  intro m a m' h
  simp only [heapStore] at h
  split at h
  · cases h
    exact ⟨⟨_, _, _, _, rfl⟩, rfl⟩
  · cases h

theorem still_allocateBlock (ws : Array Word) : Still (allocateBlock ws) :=
  (still_allocate _).bind fun _ => (still_heapStore _ _).bind fun _ => .pure _

theorem still_load (address : Word) : Still (load address) := by
  intro m a m' h
  simp only [load] at h
  split at h
  · exact still_heapRead _ m a m' h
  · split at h
    · cases h
      exact ⟨.refl m, rfl⟩
    · cases h

theorem still_stackRun (index count : Nat) : Still (stackRun index count) := by
  rintro m _ _ ⟨⟩
  exact ⟨.refl m, rfl⟩

theorem still_newList (elementWords capacity : Word) : Still (newList elementWords capacity) :=
  (still_lift _).bind fun _ => (still_allocate _).bind fun _ =>
    Still.bind (still_heapStore _ _) fun _ => .pure _

theorem still_lengthList (list : Word) : Still (lengthList list) :=
  .ite (.pure _) (still_load _)

theorem still_heapConstant (c : Chunk) (index : UInt16) : Still (heapConstant c index) := by
  refine still_get.bind fun m => ?_
  split
  · exact .pure _
  · dsimp only
    split
    · exact .throw _
    · have hcopy : ∀ address, Still (do
          modify fun m =>
            { m with heapConstants := ((m.chunk, index), address) :: m.heapConstants }
          return address) := by
        rintro address m _ _ ⟨⟩
        exact ⟨⟨_, _, _, _, rfl⟩, rfl⟩
      exact .ite ((Still.throw _).bind fun _ => (still_allocateBlock _).bind hcopy)
        ((still_allocateBlock _).bind hcopy)

/-! ### Effects on the stack -/

theorem above_pushWord (w : Word) (h : floor ≤ m.stack.size) :
    (pushWord w).Above m floor fun _ n => n = m.stack.size + 1 := by
  rintro _ _ ⟨⟩
  exact ⟨⟨_, _, _, _, rfl⟩, .push w h, Array.size_push w⟩

theorem above_pushWords (ws : Array Word) (h : floor ≤ m.stack.size) :
    (pushWords ws).Above m floor fun _ n => n = m.stack.size + ws.size := by
  rintro _ _ ⟨⟩
  exact ⟨⟨_, _, _, _, rfl⟩, .append ws h, Array.size_append⟩

theorem above_popWord (h : floor < m.stack.size) :
    popWord.Above m floor fun _ n => n + 1 = m.stack.size := by
  intro w m' hx
  simp only [popWord] at hx
  split at hx
  · cases hx
    refine ⟨⟨_, _, _, _, rfl⟩, .pop h, ?_⟩
    rw [Array.size_pop]
    omega
  · cases hx

theorem above_top (words : Nat) :
    (top words).Above m floor fun at_ n => n = m.stack.size ∧ at_ + words = m.stack.size := by
  intro at_ m' hx
  rw [top] at hx
  split at hx
  · next hwords =>
    cases hx
    exact ⟨.refl m, .refl _ _, rfl, Nat.sub_add_cancel hwords⟩
  · cases hx

theorem above_below (at_ depth : Nat) :
    (below at_ depth).Above m floor fun base n => n = m.stack.size ∧ base + depth = at_ := by
  rw [below]
  split
  · next hdepth => exact above_pure ⟨rfl, Nat.sub_add_cancel hdepth⟩
  · exact above_throw

theorem above_truncate {size : Nat} (hfloor : floor ≤ size) (h : size ≤ m.stack.size) :
    (truncate size).Above m floor fun _ n => n = size := by
  rintro _ _ ⟨⟩
  refine ⟨⟨_, _, _, _, rfl⟩, .shrink hfloor, ?_⟩
  show (m.stack.shrink size).size = size
  rw [Array.size_shrink]
  exact Nat.min_eq_left h

theorem above_pushRun (base words : Nat) (h : floor ≤ m.stack.size) :
    (pushRun base words).Above m floor fun _ n => n = m.stack.size + words := by
  intro _ m' hx
  rw [pushRun] at hx
  split at hx
  · cases hx
    refine ⟨⟨_, _, _, _, rfl⟩, .append _ h, ?_⟩
    show (m.stack ++ Words.run m.stack base words).size = _
    rw [Array.size_append, Words.run, Array.size_extract]
    omega
  · cases hx

theorem above_popInto {base words : Nat} (hfloor : floor ≤ base) :
    (popInto base words).Above m floor fun _ n => n + words = m.stack.size := by
  refine (above_top words).bind fun at_ m₁ h₁ => Above.checked fun hroom => ?_
  refine ((still_stackRun at_ words).above m₁ floor).bind fun moved m₂ h₂ => ?_
  rintro _ _ ⟨⟩
  refine ⟨⟨_, _, _, _, rfl⟩, (Words.AgreeBelow.write _ hfloor).trans (.shrink (by omega)), ?_⟩
  show (Array.shrink (Words.write _ _ _) at_).size + words = m.stack.size
  rw [Array.size_shrink, Words.size_write]
  omega

theorem above_loadRun (address : Word) (k count : Nat) (h : floor ≤ m.stack.size) :
    (loadRun address k count).Above m floor fun _ n => n = m.stack.size + count := by
  induction count generalizing m k with
  | zero => exact above_pure rfl
  | succ count ih =>
    refine ((still_lift _).above m floor).bind fun place m₁ h₁ => ?_
    refine ((still_load place).above m₁ floor).bind fun w m₂ h₂ => ?_
    refine (above_pushWord w (by omega)).bind fun _ m₃ h₃ => ?_
    refine (ih (k + 1) (by omega)).mono fun _ n hn => ?_
    omega

/-! ### Operations -/

theorem above_select {total offset words : Nat} (h : floor + total ≤ m.stack.size) :
    (select total offset words).Above m floor fun _ n => n + total = m.stack.size + words := by
  refine Above.checked fun hinside => (above_top total).bind fun at_ m₁ h₁ => ?_
  rintro _ _ ⟨⟩
  refine ⟨⟨_, _, _, _, rfl⟩, .moveDown words (by omega), ?_⟩
  show (Array.shrink (Words.write _ _ _) (at_ + words)).size + total = m.stack.size + words
  rw [Array.size_shrink, Words.size_write]
  omega

theorem above_storeTop {words depth : Nat} (h : floor + words + depth ≤ m.stack.size) :
    (storeTop words depth).Above m floor fun _ n => n + words = m.stack.size := by
  refine (above_top words).bind fun at_ m₁ h₁ => (above_below at_ depth).bind fun base m₂ h₂ => ?_
  refine Above.checked fun _ => (above_popInto (by omega)).mono fun _ n hn => ?_
  omega

theorem above_binary (f : Word → Word → Word) (h : floor + 2 ≤ m.stack.size) :
    (binary f).Above m floor fun _ n => n + 1 = m.stack.size := by
  refine (above_popWord (by omega)).bind fun b m₁ h₁ => ?_
  refine (above_popWord (by omega)).bind fun a m₂ h₂ => ?_
  refine (above_pushWord _ (by omega)).mono fun _ n hn => ?_
  omega

theorem above_divide (f : Int32 → Int32 → Int32) (h : floor + 2 ≤ m.stack.size) :
    (divide f).Above m floor fun _ n => n + 1 = m.stack.size := by
  refine (above_popWord (by omega)).bind fun b m₁ h₁ => ?_
  refine (above_popWord (by omega)).bind fun a m₂ h₂ => ?_
  refine Above.checked fun _ => (above_pushWord _ (by omega)).mono fun _ n hn => ?_
  omega

theorem above_unary (f : Word → Word) (h : floor < m.stack.size) :
    (unary f).Above m floor fun _ n => n = m.stack.size := by
  refine (above_popWord h).bind fun a m₁ h₁ => ?_
  refine (above_pushWord _ (by omega)).mono fun _ n hn => ?_
  omega

theorem above_equal {words : Nat} (expected : Bool) (h : floor + (words + words) ≤ m.stack.size) :
    (equal words expected).Above m floor fun _ n => n + (words + words) = m.stack.size + 1 := by
  refine (above_top words).bind fun right m₁ h₁ => ?_
  refine (above_below right words).bind fun left m₂ h₂ => ?_
  refine ((still_stackRun left words).above m₂ floor).bind fun x m₃ h₃ => ?_
  refine ((still_stackRun right words).above m₃ floor).bind fun y m₄ h₄ => ?_
  refine (above_truncate (by omega) (by omega)).bind fun _ m₅ h₅ => ?_
  refine (above_pushWord _ (by omega)).mono fun _ n hn => ?_
  omega

theorem above_newBlock {words : Nat} (h : floor + words ≤ m.stack.size) :
    (newBlock words).Above m floor fun _ n => n + words = m.stack.size + 1 := by
  refine (above_top words).bind fun at_ m₁ h₁ => ?_
  refine ((still_allocate words).above m₁ floor).bind fun index m₂ h₂ => ?_
  refine ((still_stackRun at_ words).above m₂ floor).bind fun value m₃ h₃ => ?_
  refine ((still_heapStore index _).above m₃ floor).bind fun _ m₄ h₄ => ?_
  refine (above_truncate (by omega) (by omega)).bind fun _ m₅ h₅ => ?_
  refine (above_pushWord _ (by omega)).mono fun _ n hn => ?_
  omega

theorem above_indexSpan (elementWords length : Word) (h : floor + 2 ≤ m.stack.size) :
    (indexSpan elementWords length).Above m floor fun _ n => n + 1 = m.stack.size := by
  refine (above_popWord (by omega)).bind fun index m₁ h₁ => ?_
  refine (above_popWord (by omega)).bind fun address m₂ h₂ => ?_
  refine ((still_lift _).above m₂ floor).bind fun _ m₃ h₃ => ?_
  refine ((still_lift _).above m₃ floor).bind fun place m₄ h₄ => ?_
  refine (above_pushWord _ (by omega)).mono fun _ n hn => ?_
  omega

theorem above_indexList (elementWords : Word) (h : floor + 2 ≤ m.stack.size) :
    (indexList elementWords).Above m floor fun _ n => n + 1 = m.stack.size := by
  refine (above_popWord (by omega)).bind fun index m₁ h₁ => ?_
  refine (above_popWord (by omega)).bind fun list m₂ h₂ => ?_
  refine ((still_lengthList list).above m₂ floor).bind fun length m₃ h₃ => ?_
  refine ((still_lift _).above m₃ floor).bind fun _ m₄ h₄ => ?_
  refine ((still_lift _).above m₄ floor).bind fun before m₅ h₅ => ?_
  refine ((still_lift _).above m₅ floor).bind fun place m₆ h₆ => ?_
  refine (above_pushWord _ (by omega)).mono fun _ n hn => ?_
  omega

theorem Above.continuing {x : Exec Unit} {Q : Flow → Nat → Prop}
    (h : x.Above m floor fun _ n => Q .next n) : (continuing x).Above m floor Q :=
  h.bind fun _ _ hn => above_pure hn

end Exec

/-- Operations that may write anywhere: to global variables, through an address, or by what the host
does. -/
def Opcode.reachesOut : Opcode → Bool
  | .storeGlobal | .storeIndirect | .listPush | .listFree | .freeHeap | .callExternal => true
  | _ => false

namespace Exec

variable {L : Linkage} {shape : Option ChunkShape} {p : Program} {c : Chunk} {time : Float}
  {i : Instruction} {op : Opcode} {m : Machine} {height : Nat}

/-- A plain instruction that does not reach out works above the frame pointer. -/
theorem above_perform (hplain : op.isPlain = true) (hcalm : op.reachesOut = false)
    (hstack : m.stack.size = m.fp + height) (hpops : i.pops op ≤ height)
    (hadmits : i.Admits L shape c.constants height op) :
    (perform p c time i op).Above m m.fp fun flow n =>
      flow = .next ∧ n = m.fp + (height - i.pops op + i.pushes L op) := by
  cases op with
  | halt | yield | jump | jumpIfFalse | call | return_ => cases hplain
  | storeGlobal | storeIndirect | listPush | listFree | freeHeap | callExternal => cases hcalm
  | pushImmediate =>
    simp only [Instruction.pops, Instruction.pushes] at hpops ⊢
    refine Above.continuing ((above_pushWord _ (by omega)).mono fun _ n hn => ?_)
    exact ⟨rfl, by omega⟩
  | loadConstant =>
    simp only [Instruction.pops, Instruction.pushes] at hpops ⊢
    refine Above.continuing ?_
    rw [Array.getElem?_eq_getElem hadmits]
    refine (above_pushWord _ (by omega)).mono fun _ n hn => ?_
    exact ⟨rfl, by omega⟩
  | loadHeapConstant =>
    simp only [Instruction.pops, Instruction.pushes] at hpops ⊢
    refine Above.continuing
      (((still_heapConstant c i.short).above m m.fp).bind fun address m₁ h₁ => ?_)
    refine (above_pushWord _ (by omega)).mono fun _ n hn => ?_
    exact ⟨rfl, by omega⟩
  | pushZero =>
    simp only [Instruction.pops, Instruction.pushes] at hpops ⊢
    refine Above.continuing ((above_pushWords _ (by omega)).mono fun _ n hn => ?_)
    rw [Array.size_replicate] at hn
    exact ⟨rfl, by omega⟩
  | pop =>
    simp only [Instruction.pops, Instruction.pushes] at hpops ⊢
    refine Above.continuing ((above_top _).bind fun at_ m₁ h₁ => ?_)
    refine (above_truncate (by omega) (by omega)).mono fun _ n hn => ?_
    exact ⟨rfl, by omega⟩
  | duplicate =>
    simp only [Instruction.pops, Instruction.pushes] at hpops ⊢
    refine Above.continuing ((above_top _).bind fun at_ m₁ h₁ => ?_)
    refine (above_pushRun _ _ (by omega)).mono fun _ n hn => ?_
    exact ⟨rfl, by omega⟩
  | loadVariable =>
    simp only [Instruction.pops, Instruction.pushes] at hpops ⊢
    refine Above.continuing (above_get ((above_pushRun _ _ (by omega)).mono fun _ n hn => ?_))
    exact ⟨rfl, by omega⟩
  | storeVariable =>
    -- the variable lies in the frame
    simp only [Instruction.pops, Instruction.pushes] at hpops ⊢
    refine Above.continuing
      (above_get ((above_popInto (Nat.le_add_right _ _)).mono fun _ n hn => ?_))
    exact ⟨rfl, by omega⟩
  | loadGlobal =>
    simp only [Instruction.pops, Instruction.pushes] at hpops ⊢
    refine Above.continuing ((above_pushRun _ _ (by omega)).mono fun _ n hn => ?_)
    exact ⟨rfl, by omega⟩
  | select =>
    simp only [Instruction.pops, Instruction.pushes] at hpops ⊢
    refine Above.continuing ((above_select (by omega)).mono fun _ n hn => ?_)
    exact ⟨rfl, by omega⟩
  | storeTop =>
    -- the place stored to is a temporary of the same frame
    simp only [Instruction.pops, Instruction.pushes, Instruction.Admits] at hpops hadmits ⊢
    refine Above.continuing ((above_storeTop (by omega)).mono fun _ n hn => ?_)
    exact ⟨rfl, by omega⟩
  | addressOf =>
    simp only [Instruction.pops, Instruction.pushes] at hpops ⊢
    refine Above.continuing (above_get ((above_pushWord _ (by omega)).mono fun _ n hn => ?_))
    exact ⟨rfl, by omega⟩
  | loadIndirect =>
    simp only [Instruction.pops, Instruction.pushes] at hpops ⊢
    refine Above.continuing ((above_popWord (by omega)).bind fun address m₁ h₁ => ?_)
    refine ((still_lift _).above m₁ m.fp).bind fun place m₂ h₂ => ?_
    refine (above_loadRun _ _ _ (by omega)).mono fun _ n hn => ?_
    exact ⟨rfl, by omega⟩
  | offsetAddress =>
    simp only [Instruction.pops, Instruction.pushes] at hpops ⊢
    refine Above.continuing ((above_popWord (by omega)).bind fun address m₁ h₁ => ?_)
    refine ((still_lift _).above m₁ m.fp).bind fun place m₂ h₂ => ?_
    refine (above_pushWord _ (by omega)).mono fun _ n hn => ?_
    exact ⟨rfl, by omega⟩
  | indexAddress =>
    simp only [Instruction.pops, Instruction.pushes] at hpops ⊢
    refine Above.continuing ((above_indexSpan _ _ (by omega)).mono fun _ n hn => ?_)
    exact ⟨rfl, by omega⟩
  | addInt | subtractInt | multiplyInt | addFloat | subtractFloat | multiplyFloat | divideFloat
  | lessInt | lessEqualInt | greaterInt | greaterEqualInt | lessFloat | lessEqualFloat
  | greaterFloat | greaterEqualFloat | and | or =>
    simp only [Instruction.pops, Instruction.pushes] at hpops ⊢
    refine Above.continuing ((above_binary _ (by omega)).mono fun _ n hn => ?_)
    exact ⟨rfl, by omega⟩
  | divideInt | moduloInt =>
    simp only [Instruction.pops, Instruction.pushes] at hpops ⊢
    refine Above.continuing ((above_divide _ (by omega)).mono fun _ n hn => ?_)
    exact ⟨rfl, by omega⟩
  | negateInt | negateFloat | not | intToFloat | floatToInt =>
    simp only [Instruction.pops, Instruction.pushes] at hpops ⊢
    refine Above.continuing ((above_unary _ (by omega)).mono fun _ n hn => ?_)
    exact ⟨rfl, by omega⟩
  | equal | notEqual =>
    simp only [Instruction.pops, Instruction.pushes] at hpops ⊢
    refine Above.continuing ((above_equal _ (by omega)).mono fun _ n hn => ?_)
    exact ⟨rfl, by omega⟩
  | new =>
    simp only [Instruction.pops, Instruction.pushes] at hpops ⊢
    refine Above.continuing ((above_newBlock (by omega)).mono fun _ n hn => ?_)
    exact ⟨rfl, by omega⟩
  | listNew =>
    simp only [Instruction.pops, Instruction.pushes] at hpops ⊢
    refine Above.continuing (((still_newList _ _).above m m.fp).bind fun list m₁ h₁ => ?_)
    refine (above_pushWord _ (by omega)).mono fun _ n hn => ?_
    exact ⟨rfl, by omega⟩
  | listLength =>
    simp only [Instruction.pops, Instruction.pushes] at hpops ⊢
    refine Above.continuing ((above_popWord (by omega)).bind fun list m₁ h₁ => ?_)
    refine ((still_lengthList list).above m₁ m.fp).bind fun length m₂ h₂ => ?_
    refine (above_pushWord _ (by omega)).mono fun _ n hn => ?_
    exact ⟨rfl, by omega⟩
  | listIndex =>
    simp only [Instruction.pops, Instruction.pushes] at hpops ⊢
    refine Above.continuing ((above_indexList _ (by omega)).mono fun _ n hn => ?_)
    exact ⟨rfl, by omega⟩

end Exec

end WordScript
