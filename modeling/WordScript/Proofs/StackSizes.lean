/-
What instructions do to the size of the stack.

Execution is followed here as far as the size of the stack goes.  The words on the
stack are data and may be anything; no instruction moves control by them.

* `Fault.isTame` — the faults that do not come from the code itself;
* `Machine.Touches` — nothing but memory and output has changed;
* `Exec.Sizes` — an effect that touches nothing else, leaves the stack at a known
  size or stops with a tame fault, and never takes it below a floor.

There is one lemma for each effect of the machine; callers never unfold them.
-/
import WordScript.Machine.Step

namespace WordScript

/-- Faults that well-shaped code may meet.  The others are an empty stack, code that is not there and
operands that do not fit together. -/
def Fault.isTame : Fault → Bool
  | .stackUnderflow | .invalidOpcode _ | .invalidChunk _ => false
  | .invalidProgram .listCapacityOverflow | .invalidProgram .listBlockTooLarge => true
  | .invalidProgram _ => false
  | _ => true

/-- Nothing but memory and output differs. -/
def Machine.Touches (m m' : Machine) : Prop :=
  ∃ stack heap heapConstants log, m' = { m with stack, heap, heapConstants, log }

namespace Machine.Touches

theorem refl (m : Machine) : m.Touches m :=
  ⟨_, _, _, _, rfl⟩

theorem trans {m₁ m₂ m₃ : Machine} (h₁ : m₁.Touches m₂) (h₂ : m₂.Touches m₃) : m₁.Touches m₃ := by
  obtain ⟨s, h, k, l, rfl⟩ := h₁
  obtain ⟨s', h', k', l', rfl⟩ := h₂
  exact ⟨s', h', k', l', rfl⟩

theorem fp {m m' : Machine} (h : m.Touches m') : m'.fp = m.fp := by
  obtain ⟨s, h, k, l, rfl⟩ := h
  rfl

end Machine.Touches

namespace Exec

/-- From the machine `m`, the effect touches nothing but memory; where it succeeds, its result and the
size of the stack are as described by `Q`; where it faults, the fault is tame and the stack has
at least `floor` words. -/
def Sizes {α : Type} (x : Exec α) (m : Machine) (floor : Nat) (Q : α → Nat → Prop) : Prop :=
  match x m with
  | .ok a m' => m.Touches m' ∧ Q a m'.stack.size
  | .error f m' => m.Touches m' ∧ f.isTame = true ∧ floor ≤ m'.stack.size

variable {α β : Type} {m : Machine} {floor : Nat}

theorem sizes_of_ok {x : Exec α} {a : α} {m' : Machine} {Q : α → Nat → Prop} (hx : x m = .ok a m')
    (htouches : m.Touches m') (hQ : Q a m'.stack.size) : x.Sizes m floor Q := by
  rw [Sizes, hx]
  exact ⟨htouches, hQ⟩

theorem sizes_of_error {x : Exec α} {f : Fault} {m' : Machine} {Q : α → Nat → Prop}
    (hx : x m = .error f m') (htouches : m.Touches m') (hf : f.isTame = true)
    (hfloor : floor ≤ m'.stack.size) : x.Sizes m floor Q := by
  rw [Sizes, hx]
  exact ⟨htouches, hf, hfloor⟩

theorem Sizes.mono {x : Exec α} {Q Q' : α → Nat → Prop} (h : x.Sizes m floor Q)
    (hQ : ∀ a n, Q a n → Q' a n) : x.Sizes m floor Q' := by
  rw [Sizes] at h ⊢
  split at h
  · exact ⟨h.1, hQ _ _ h.2⟩
  · exact h

theorem sizes_pure {a : α} {Q : α → Nat → Prop} (h : Q a m.stack.size) :
    (pure a : Exec α).Sizes m floor Q :=
  ⟨.refl m, h⟩

theorem sizes_throw {f : Fault} {Q : α → Nat → Prop} (hf : f.isTame = true)
    (h : floor ≤ m.stack.size) : (throw f : Exec α).Sizes m floor Q :=
  ⟨.refl m, hf, h⟩

theorem Sizes.bind {x : Exec α} {f : α → Exec β} {Q : α → Nat → Prop} {Q' : β → Nat → Prop}
    (hx : x.Sizes m floor Q)
    (hf : ∀ a m', m.Touches m' → Q a m'.stack.size → (f a).Sizes m' floor Q') :
    (x >>= f).Sizes m floor Q' := by
  rw [Sizes] at hx ⊢
  show match EStateM.bind x f m with
    | .ok a m' => m.Touches m' ∧ Q' a m'.stack.size
    | .error f m' => m.Touches m' ∧ f.isTame = true ∧ floor ≤ m'.stack.size
  rw [EStateM.bind]
  cases hxm : x m with
  | ok a m₁ =>
    rw [hxm] at hx
    have h₁ := hf a m₁ hx.1 hx.2
    rw [Sizes] at h₁
    cases hfm : f a m₁ with
    | ok b m₂ =>
      rw [hfm] at h₁
      simpa [hfm] using ⟨hx.1.trans h₁.1, h₁.2⟩
    | error e m₂ =>
      rw [hfm] at h₁
      simpa [hfm] using ⟨hx.1.trans h₁.1, h₁.2⟩
  | error e m₁ =>
    rw [hxm] at hx
    exact hx

theorem sizes_get {f : Machine → Exec β} {Q : β → Nat → Prop} (h : (f m).Sizes m floor Q) :
    (get >>= f).Sizes m floor Q :=
  h

/-- An effect that keeps the size of the stack. -/
def Steady (x : Exec α) : Prop :=
  ∀ (m : Machine) (floor : Nat), floor ≤ m.stack.size →
    x.Sizes m floor fun _ n => n = m.stack.size

theorem Steady.pure (a : α) : Steady (pure a : Exec α) :=
  fun _ _ _ => sizes_pure rfl

theorem Steady.throw {f : Fault} (hf : f.isTame = true) : Steady (throw f : Exec α) :=
  fun _ _ hfloor => sizes_throw hf hfloor

theorem Steady.bind {x : Exec α} {f : α → Exec β} (hx : Steady x) (hf : ∀ a, Steady (f a)) :
    Steady (x >>= f) := by
  intro m floor hfloor
  refine (hx m floor hfloor).bind fun a m' _ hn => ?_
  refine (hf a m' floor (by omega)).mono fun b n hb => ?_
  rw [hb, hn]

theorem Steady.ite {c : Prop} [Decidable c] {x y : Exec α} (hx : Steady x) (hy : Steady y) :
    Steady (if c then x else y) := by
  split
  · exact hx
  · exact hy

/-! ### Memory -/

theorem steady_lift {r : Except Fault α} (h : ∀ f, r = .error f → f.isTame = true) :
    Steady (lift r) := by
  intro m floor hfloor
  cases r with
  | ok a => exact ⟨.refl m, rfl⟩
  | error f => exact ⟨.refl m, h f rfl, hfloor⟩

theorem isTame_heapIndex {address : Word} {f : Fault} (h : Address.heapIndex address = .error f) :
    f.isTame = true := by
  rw [Address.heapIndex] at h
  split at h
  · cases h
  · cases h
    rfl

theorem isTame_offset {address by_ : Word} {f : Fault} (h : Address.offset address by_ = .error f) :
    f.isTame = true := by
  rw [Address.offset] at h
  split at h
  · cases h
    rfl
  · split at h
    · cases h
      rfl
    · cases h

theorem isTame_checkIndex {index length : Word} {f : Fault}
    (h : Address.checkIndex index length = .error f) : f.isTame = true := by
  rw [Address.checkIndex] at h
  split at h
  · cases h
    rfl
  · cases h

theorem isTame_listWords {capacity elementWords : Word} {f : Fault}
    (h : ListBlock.words capacity elementWords = .error f) : f.isTame = true := by
  rw [ListBlock.words] at h
  split at h
  · cases h
  · cases h
    rfl

theorem isTame_computed {n : Nat} {f : Fault} (h : ListBlock.computed n = .error f) :
    f.isTame = true := by
  rw [ListBlock.computed] at h
  split at h
  · cases h
  · cases h
    rfl

theorem steady_heapIndex (address : Word) : Steady (lift (Address.heapIndex address)) :=
  steady_lift fun _ => isTame_heapIndex

theorem steady_offset (address by_ : Word) : Steady (lift (Address.offset address by_)) :=
  steady_lift fun _ => isTame_offset

theorem steady_checkIndex (index length : Word) : Steady (lift (Address.checkIndex index length)) :=
  steady_lift fun _ => isTame_checkIndex

theorem steady_listWords (capacity elementWords : Word) :
    Steady (lift (ListBlock.words capacity elementWords)) :=
  steady_lift fun _ => isTame_listWords

theorem steady_computed (n : Nat) : Steady (lift (ListBlock.computed n)) :=
  steady_lift fun _ => isTame_computed

theorem steady_allocate (length : Nat) : Steady (allocate length) := by
  intro m floor hfloor
  cases h : m.heap.placement (Heap.blockLength length) with
  | ok p =>
    have hx : allocate length m =
        .ok p.index { m with heap := m.heap.place (Heap.blockLength length) p } := by
      simp only [allocate, h]
    exact sizes_of_ok hx ⟨_, _, _, _, rfl⟩ rfl
  | error e => exact sizes_of_error (by simp only [allocate, h]; rfl) (.refl m) rfl hfloor

theorem steady_deallocate (index length : Nat) : Steady (deallocate index length) := by
  intro m floor hfloor
  cases h : m.heap.deallocate index length with
  | ok heap =>
    have hx : deallocate index length m = .ok () { m with heap } := by
      simp only [deallocate, h]
    exact sizes_of_ok hx ⟨_, _, _, _, rfl⟩ rfl
  | error e => exact sizes_of_error (by simp only [deallocate, h]; rfl) (.refl m) rfl hfloor

theorem steady_heapRead (index : Nat) : Steady (heapRead index) := by
  intro m floor hfloor
  cases h : m.heap.read index with
  | ok w => exact sizes_of_ok (by simp only [heapRead, h]; rfl) (.refl m) rfl
  | error e => exact sizes_of_error (by simp only [heapRead, h]; rfl) (.refl m) rfl hfloor

theorem steady_heapSlice (index length : Nat) : Steady (heapSlice index length) := by
  intro m floor hfloor
  cases h : m.heap.slice index length with
  | ok ws => exact sizes_of_ok (by simp only [heapSlice, h]; rfl) (.refl m) rfl
  | error e => exact sizes_of_error (by simp only [heapSlice, h]; rfl) (.refl m) rfl hfloor

theorem steady_heapStore (index : Nat) (ws : List Word) : Steady (heapStore index ws) := by
  intro m floor hfloor
  by_cases h : m.heap.inBounds index ws.length = true
  · exact sizes_of_ok (if_pos h) ⟨_, _, _, _, rfl⟩ rfl
  · exact sizes_of_error (if_neg h) (.refl m) rfl hfloor

theorem steady_heapWrite (index : Nat) (w : Word) : Steady (heapWrite index w) :=
  steady_heapStore index [w]

theorem steady_allocateBlock (ws : Array Word) : Steady (allocateBlock ws) :=
  (steady_allocate _).bind fun _ => (steady_heapStore _ _).bind fun _ => .pure _

theorem steady_load (address : Word) : Steady (load address) := by
  intro m floor hfloor
  by_cases h : Address.isHeap address = true
  · have := steady_heapRead (address - Address.heapBit).toNat m floor hfloor
    rwa [Sizes, ← (if_pos h : load address m = _)] at this
  · cases hw : m.stack[address.toNat]? with
    | some w => exact sizes_of_ok (by simp only [load, h, hw]; rfl) (.refl m) rfl
    | none => exact sizes_of_error (by simp only [load, h, hw]; rfl) (.refl m) rfl hfloor

theorem steady_store (address value : Word) : Steady (store address value) := by
  intro m floor hfloor
  by_cases h : Address.isHeap address = true
  · have := steady_heapWrite (address - Address.heapBit).toNat value m floor hfloor
    rwa [Sizes, ← (if_pos h : store address value m = _)] at this
  · by_cases hlt : address.toNat < m.stack.size
    · exact sizes_of_ok ((if_neg h).trans (if_pos hlt)) ⟨_, _, _, _, rfl⟩ Array.size_setIfInBounds
    · exact sizes_of_error ((if_neg h).trans (if_neg hlt)) (.refl m) rfl hfloor

theorem steady_readString (address : Word) : Steady (readString address) :=
  (steady_heapIndex address).bind fun _ => (steady_heapRead _).bind fun _ =>
    (steady_heapSlice _ _).bind fun _ => .pure _

theorem steady_allocString (text : String) : Steady (allocString text) :=
  steady_allocateBlock _

theorem steady_print (line : String) : Steady (print line) :=
  fun _ _ _ => ⟨⟨_, _, _, _, rfl⟩, rfl⟩

theorem steady_stackRun (index count : Nat) : Steady (stackRun index count) :=
  fun m _ _ => ⟨.refl m, rfl⟩

theorem steady_get : Steady (get : Exec Machine) :=
  fun m _ _ => ⟨.refl m, rfl⟩

theorem steady_newList (elementWords capacity : Word) : Steady (newList elementWords capacity) :=
  (steady_listWords _ _).bind fun _ => (steady_allocate _).bind fun _ =>
    (steady_heapWrite _ _).bind fun _ => .pure _

theorem steady_growList (index : Nat) (length capacity elementWords : Word) :
    Steady (growList index length capacity elementWords) := by
  have hrest : Steady (do
      let newCapacity := max (capacity * 2) ListBlock.initialCapacity
      let grown ← allocate (← lift (ListBlock.words newCapacity elementWords)).toNat
      let used ← lift (ListBlock.wordsBefore length elementWords)
      let block ← heapSlice index used.toNat
      heapStore grown block.toList
      heapWrite (grown + 1) newCapacity
      deallocate index (← lift (ListBlock.words capacity elementWords)).toNat
      return grown) :=
    (steady_listWords _ _).bind fun _ => (steady_allocate _).bind fun _ =>
      (steady_computed _).bind fun _ => (steady_heapSlice _ _).bind fun _ =>
        (steady_heapStore _ _).bind fun _ => (steady_heapWrite _ _).bind fun _ =>
          (steady_listWords _ _).bind fun _ => (steady_deallocate _ _).bind fun _ => .pure _
  exact .ite ((Steady.throw rfl).bind fun _ => hrest) hrest

theorem steady_lengthList (list : Word) : Steady (lengthList list) :=
  .ite (.pure _) (steady_load _)

theorem steady_storeRun (address : Word) (at_ k count : Nat) :
    Steady (storeRun address at_ k count) := by
  induction count generalizing k with
  | zero => exact .pure _
  | succ count ih =>
    exact steady_get.bind fun _ => (steady_offset _ _).bind fun _ => (steady_store _ _).bind
      fun _ => ih (k + 1)

theorem steady_heapConstant (c : Chunk) (index : UInt16) {payload : Word}
    (hpayload : c.constants[index.toNat]? = some payload)
    (hsize : index.toNat + (1 + payload.toNat) ≤ c.constants.size) :
    Steady (heapConstant c index) := by
  refine steady_get.bind fun m => ?_
  split
  · exact .pure _
  · simp only [hpayload]
    rw [if_neg (by omega)]
    refine (steady_allocateBlock _).bind fun address => ?_
    refine Steady.bind (fun _ _ _ => ?_) fun _ => .pure _
    exact ⟨⟨_, _, _, _, rfl⟩, rfl⟩

/-! ### The stack -/

theorem sizes_pushWord (w : Word) : (pushWord w).Sizes m floor fun _ n => n = m.stack.size + 1 :=
  sizes_of_ok rfl ⟨_, _, _, _, rfl⟩ (Array.size_push w)

theorem sizes_pushWords (ws : Array Word) :
    (pushWords ws).Sizes m floor fun _ n => n = m.stack.size + ws.size :=
  sizes_of_ok rfl ⟨_, _, _, _, rfl⟩ Array.size_append

theorem sizes_popWord (h : 0 < m.stack.size) :
    popWord.Sizes m floor fun _ n => n + 1 = m.stack.size := by
  cases hback : m.stack.back? with
  | none =>
    rw [Array.back?_eq_none_iff] at hback
    rw [hback] at h
    exact absurd h (Nat.lt_irrefl 0)
  | some w =>
    have hx : popWord m = .ok w { m with stack := m.stack.pop } := by
      simp only [popWord, hback]
    refine sizes_of_ok hx ⟨_, _, _, _, rfl⟩ ?_
    rw [Array.size_pop]
    omega

theorem sizes_top {words : Nat} (h : words ≤ m.stack.size) :
    (top words).Sizes m floor fun at_ n => n = m.stack.size ∧ at_ + words = m.stack.size :=
  sizes_of_ok (if_pos h) (.refl m) ⟨rfl, Nat.sub_add_cancel h⟩

theorem sizes_below {at_ depth : Nat} (h : depth ≤ at_) :
    (below at_ depth).Sizes m floor fun base n => n = m.stack.size ∧ base + depth = at_ := by
  rw [below, if_pos h]
  exact sizes_pure ⟨rfl, Nat.sub_add_cancel h⟩

theorem sizes_truncate {size : Nat} (h : size ≤ m.stack.size) :
    (truncate size).Sizes m floor fun _ n => n = size := by
  refine sizes_of_ok rfl ⟨_, _, _, _, rfl⟩ ?_
  rw [Array.size_shrink]
  omega

theorem pushRun_eq {base words : Nat} (h : base + words ≤ m.stack.size) :
    pushRun base words m = .ok () { m with stack := m.stack ++ Words.run m.stack base words } :=
  if_pos h

theorem sizes_pushRun {base words : Nat} (h : base + words ≤ m.stack.size) :
    (pushRun base words).Sizes m floor fun _ n => n = m.stack.size + words := by
  refine sizes_of_ok (pushRun_eq h) ⟨_, _, _, _, rfl⟩ ?_
  rw [Array.size_append, Words.run, Array.size_extract]
  omega

theorem popInto_eq {base words : Nat} (h : base + words + words ≤ m.stack.size) :
    popInto base words m = .ok () { m with
      stack := (Words.write m.stack base
        (Words.run m.stack (m.stack.size - words) words).toList).shrink (m.stack.size - words) } := by
  have htop : top words m = .ok (m.stack.size - words) m := if_pos (by omega)
  show EStateM.bind (top words) _ m = _
  simp only [EStateM.bind, htop, if_neg (show ¬m.stack.size - words < base + words by omega)]
  rfl

theorem sizes_popInto {base words : Nat} (h : base + words + words ≤ m.stack.size) :
    (popInto base words).Sizes m floor fun _ n => n + words = m.stack.size := by
  refine sizes_of_ok (popInto_eq h) ⟨_, _, _, _, rfl⟩ ?_
  rw [Array.size_shrink, Words.size_write]
  omega

theorem sizes_moveDown {source target count : Nat} (h : target + count ≤ m.stack.size) :
    (modify fun m => { m with stack := Words.moveDown m.stack source target count } :
      Exec Unit).Sizes m floor fun _ n => n = target + count := by
  refine sizes_of_ok rfl ⟨_, _, _, _, rfl⟩ ?_
  show (Array.shrink (Words.write _ _ _) (target + count)).size = target + count
  rw [Array.size_shrink, Words.size_write]
  omega

theorem sizes_loadRun (address : Word) (k count : Nat) (hfloor : floor ≤ m.stack.size) :
    (loadRun address k count).Sizes m floor fun _ n => n = m.stack.size + count := by
  induction count generalizing m k with
  | zero => exact sizes_pure rfl
  | succ count ih =>
    refine (steady_offset _ _ m floor hfloor).bind fun place m₁ _ h₁ => ?_
    refine (steady_load place m₁ floor (by omega)).bind fun w m₂ _ h₂ => ?_
    refine (sizes_pushWord w).bind fun _ m₃ _ h₃ => ?_
    refine (ih (k + 1) (by omega)).mono fun _ n hn => ?_
    omega

/-! ### Operations -/

theorem sizes_select {total offset words : Nat} (h : offset + words ≤ total)
    (hstack : total ≤ m.stack.size) :
    (select total offset words).Sizes m floor fun _ n => n + total = m.stack.size + words := by
  rw [select, if_neg (by omega)]
  refine (sizes_top hstack).bind fun at_ m₁ _ h₁ => ?_
  refine (sizes_moveDown (by omega)).mono fun _ n hn => ?_
  omega

theorem sizes_storeTop {words depth : Nat} (h : words ≤ depth)
    (hstack : words + depth ≤ m.stack.size) :
    (storeTop words depth).Sizes m floor fun _ n => n + words = m.stack.size := by
  refine (sizes_top (by omega)).bind fun at_ m₁ _ h₁ => ?_
  refine (sizes_below (by omega)).bind fun base m₂ _ h₂ => ?_
  rw [if_neg (by omega)]
  refine (sizes_popInto (by omega)).mono fun _ n hn => ?_
  omega

theorem sizes_storeIndirect {words : Nat} (offset : Word) (hstack : words + 1 ≤ m.stack.size)
    (hfloor : floor ≤ m.stack.size) :
    (storeIndirect words offset).Sizes m floor fun _ n => n + (words + 1) = m.stack.size := by
  refine (sizes_top (by omega)).bind fun at_ m₁ _ h₁ => ?_
  refine (sizes_below (by omega)).bind fun slot m₂ _ h₂ => ?_
  refine (steady_get m₂ floor (by omega)).bind fun _ m₃ _ h₃ => ?_
  refine (steady_offset _ _ m₃ floor (by omega)).bind fun address m₄ _ h₄ => ?_
  refine (steady_storeRun _ _ _ _ m₄ floor (by omega)).bind fun _ m₅ _ h₅ => ?_
  refine (sizes_truncate (by omega)).mono fun _ n hn => ?_
  omega

theorem sizes_binary (f : Word → Word → Word) (hstack : 2 ≤ m.stack.size) :
    (binary f).Sizes m floor fun _ n => n + 1 = m.stack.size := by
  refine (sizes_popWord (by omega)).bind fun b m₁ _ h₁ => ?_
  refine (sizes_popWord (by omega)).bind fun a m₂ _ h₂ => ?_
  refine (sizes_pushWord _).mono fun _ n hn => ?_
  omega

theorem sizes_divide (f : Int32 → Int32 → Int32) (hstack : floor + 2 ≤ m.stack.size) :
    (divide f).Sizes m floor fun _ n => n + 1 = m.stack.size := by
  refine (sizes_popWord (by omega)).bind fun b m₁ _ h₁ => ?_
  refine (sizes_popWord (by omega)).bind fun a m₂ _ h₂ => ?_
  have hpush : (pushWord (f a.toInt32 b.toInt32).toUInt32).Sizes m₂ floor
      fun _ n => n + 1 = m.stack.size :=
    (sizes_pushWord _).mono fun _ n hn => by omega
  by_cases hb : b = 0
  · rw [if_pos hb]
    exact sizes_of_error rfl (.refl m₂) rfl (by omega)
  · rw [if_neg hb]
    exact hpush

theorem sizes_unary (f : Word → Word) (hstack : 0 < m.stack.size) :
    (unary f).Sizes m floor fun _ n => n = m.stack.size := by
  refine (sizes_popWord hstack).bind fun a m₁ _ h₁ => ?_
  refine (sizes_pushWord _).mono fun _ n hn => ?_
  omega

theorem sizes_equal {words : Nat} (expected : Bool) (hstack : words + words ≤ m.stack.size) :
    (equal words expected).Sizes m floor fun _ n => n + (words + words) = m.stack.size + 1 := by
  refine (sizes_top (by omega)).bind fun right m₁ _ h₁ => ?_
  refine (sizes_below (by omega)).bind fun left m₂ _ h₂ => ?_
  refine Sizes.bind (Q := fun _ n => n = m₂.stack.size)
    (sizes_of_ok rfl (.refl m₂) rfl) fun x m₃ _ h₃ => ?_
  refine Sizes.bind (Q := fun _ n => n = m₃.stack.size)
    (sizes_of_ok rfl (.refl m₃) rfl) fun y m₄ _ h₄ => ?_
  refine (sizes_truncate (by omega)).bind fun _ m₅ _ h₅ => ?_
  refine (sizes_pushWord _).mono fun _ n hn => ?_
  omega

theorem sizes_newBlock {words : Nat} (hstack : words ≤ m.stack.size)
    (hfloor : floor ≤ m.stack.size) :
    (newBlock words).Sizes m floor fun _ n => n + words = m.stack.size + 1 := by
  refine (sizes_top hstack).bind fun at_ m₁ _ h₁ => ?_
  refine (steady_allocate _ m₁ floor (by omega)).bind fun index m₂ _ h₂ => ?_
  refine (steady_stackRun _ _ m₂ floor (by omega)).bind fun value m₃ _ h₃ => ?_
  refine (steady_heapStore _ _ m₃ floor (by omega)).bind fun _ m₄ _ h₄ => ?_
  refine (sizes_truncate (by omega)).bind fun _ m₅ _ h₅ => ?_
  refine (sizes_pushWord _).mono fun _ n hn => ?_
  omega

theorem sizes_freeBlock (words : Nat) (hstack : floor + 1 ≤ m.stack.size) :
    (freeBlock words).Sizes m floor fun _ n => n + 1 = m.stack.size := by
  refine (sizes_popWord (by omega)).bind fun slot m₁ _ h₁ => ?_
  refine (steady_load slot m₁ floor (by omega)).bind fun pointer m₂ _ h₂ => ?_
  split
  · refine (steady_heapIndex _ m₂ floor (by omega)).bind fun index m₃ _ h₃ => ?_
    refine (steady_deallocate _ _ m₃ floor (by omega)).bind fun _ m₄ _ h₄ => ?_
    refine (steady_store _ _ m₄ floor (by omega)).mono fun _ n hn => ?_
    omega
  · exact sizes_pure (by omega)

theorem sizes_indexSpan (elementWords length : Word) (hstack : floor + 2 ≤ m.stack.size) :
    (indexSpan elementWords length).Sizes m floor fun _ n => n + 1 = m.stack.size := by
  refine (sizes_popWord (by omega)).bind fun index m₁ _ h₁ => ?_
  refine (sizes_popWord (by omega)).bind fun address m₂ _ h₂ => ?_
  refine (steady_checkIndex _ _ m₂ floor (by omega)).bind fun _ m₃ _ h₃ => ?_
  refine (steady_offset _ _ m₃ floor (by omega)).bind fun place m₄ _ h₄ => ?_
  refine (sizes_pushWord _).mono fun _ n hn => ?_
  omega

theorem sizes_indexList (elementWords : Word) (hstack : floor + 2 ≤ m.stack.size) :
    (indexList elementWords).Sizes m floor fun _ n => n + 1 = m.stack.size := by
  refine (sizes_popWord (by omega)).bind fun index m₁ _ h₁ => ?_
  refine (sizes_popWord (by omega)).bind fun list m₂ _ h₂ => ?_
  refine (steady_lengthList _ m₂ floor (by omega)).bind fun length m₃ _ h₃ => ?_
  refine (steady_checkIndex _ _ m₃ floor (by omega)).bind fun _ m₄ _ h₄ => ?_
  refine (steady_computed _ m₄ floor (by omega)).bind fun before m₅ _ h₅ => ?_
  refine (steady_offset _ _ m₅ floor (by omega)).bind fun place m₆ _ h₆ => ?_
  refine (sizes_pushWord _).mono fun _ n hn => ?_
  omega

theorem sizes_freeList (elementWords : Word) (hstack : floor + 1 ≤ m.stack.size) :
    (freeList elementWords).Sizes m floor fun _ n => n + 1 = m.stack.size := by
  refine (sizes_popWord (by omega)).bind fun slot m₁ _ h₁ => ?_
  refine (steady_load slot m₁ floor (by omega)).bind fun list m₂ _ h₂ => ?_
  split
  · have hfree : Steady (do
        let capacity ← load (← lift (Address.offset list 1))
        let words ← lift (ListBlock.words capacity elementWords)
        deallocate (← lift (Address.heapIndex list)) words.toNat
        store slot 0) :=
      (steady_offset _ _).bind fun _ => (steady_load _).bind fun _ => (steady_listWords _ _).bind
        fun _ => (steady_heapIndex _).bind fun _ => (steady_deallocate _ _).bind fun _ =>
          steady_store _ _
    refine (hfree m₂ floor (by omega)).mono fun _ n hn => ?_
    omega
  · exact sizes_pure (by omega)

/-- The end of a push: the element is written, the length raised, slot and element dropped. -/
theorem sizes_appendElement {at_ slotAt words place : Nat} {length : Word}
    (hslot : slotAt ≤ m.stack.size) (hfloor : floor ≤ m.stack.size) :
    Sizes (do
        let element ← lift (ListBlock.computed (place + 2 + length.toNat * words))
        let value ← stackRun at_ words
        heapStore element.toNat value.toList
        heapWrite place (← lift (ListBlock.computed (length.toNat + 1)))
        truncate slotAt) m floor fun _ n => n = slotAt := by
  refine (steady_computed _ m floor hfloor).bind fun element m₁ _ h₁ => ?_
  refine (steady_stackRun _ _ m₁ floor (by omega)).bind fun value m₂ _ h₂ => ?_
  refine (steady_heapStore _ _ m₂ floor (by omega)).bind fun _ m₃ _ h₃ => ?_
  refine (steady_computed _ m₃ floor (by omega)).bind fun longer m₄ _ h₄ => ?_
  refine (steady_heapWrite _ _ m₄ floor (by omega)).bind fun _ m₅ _ h₅ => ?_
  exact sizes_truncate (by omega)

theorem sizes_pushList (elementWords : Word) (hstack : elementWords.toNat + 1 ≤ m.stack.size)
    (hfloor : floor ≤ m.stack.size) :
    (pushList elementWords).Sizes m floor
      fun _ n => n + (elementWords.toNat + 1) = m.stack.size := by
  refine (sizes_top (by omega)).bind fun at_ m₁ _ h₁ => ?_
  refine (sizes_below (by omega)).bind fun slotAt m₂ _ h₂ => ?_
  refine (steady_get m₂ floor (by omega)).bind fun m₂' m₃ _ h₃ => ?_
  refine (steady_load _ m₃ floor (by omega)).bind fun list m₄ _ h₄ => ?_
  extract_lets withList
  -- the list that is there, or the one made for a slot without any
  have hlist : ∀ (list : Word) (m' : Machine), m'.stack.size = m.stack.size →
      (withList () list).Sizes m' floor fun _ n => n + (elementWords.toNat + 1) = m.stack.size := by
    intro list m' h'
    refine (steady_heapIndex list m' floor (by omega)).bind fun index m₅ _ h₅ => ?_
    refine (steady_heapRead _ m₅ floor (by omega)).bind fun length m₆ _ h₆ => ?_
    refine (steady_heapRead _ m₆ floor (by omega)).bind fun capacity m₇ _ h₇ => ?_
    dsimp only
    split
    · refine (steady_growList _ _ _ _ m₇ floor (by omega)).bind fun place m₈ _ h₈ => ?_
      refine (steady_store _ _ m₈ floor (by omega)).bind fun _ m₉ _ h₉ => ?_
      refine (sizes_appendElement (by omega) (by omega)).mono fun _ n hn => ?_
      omega
    · refine (sizes_appendElement (by omega) (by omega)).mono fun _ n hn => ?_
      omega
  split
  · refine (steady_newList _ _ m₄ floor (by omega)).bind fun new m₅ _ h₅ => ?_
    refine (steady_store _ _ m₅ floor (by omega)).bind fun _ m₆ _ h₆ => ?_
    exact hlist new m₆ (by omega)
  · exact hlist list m₄ (by omega)

end Exec

end WordScript
