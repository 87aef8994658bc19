/-
What instructions do to the machine.

The effects of the machine are put together from a few operations on its memory, and
what can be said of every one of them is said here once.  An effect works on the heap
by requests, returns and writes; it sees neither the time at which the machine is to go
on nor the lines that were written before; and as long as it is no jump, call or
return, it touches nothing but memory and blames no code that has been checked.

* `Heap.Reaches` — what requests, returns and writes lead to;
* `Fault.isOfCode` — the faults that blame the code;
* `Exec.Acts` — all of this, of one effect; `Exec.Acts.bind` puts effects together;
* `Exec.acts_perform` — every instruction but a wait.

Design notes: an effect either is confined to memory or also moves control, and the
judgement has a flag for it, so that one walk over the instructions serves both.  A
wait writes down the clock of the host.  It is the one instruction left out.
-/
import WordScript.Proofs.StackShape
import WordScript.Proofs.StackSizes

namespace WordScript

/-- What requests, returns and writes lead to. -/
inductive Heap.Reaches (h : Heap) : Heap → Prop
  | refl : Reaches h h
  | allocate {h₁ h₂ : Heap} {n index : Nat} :
    Reaches h h₁ → h₁.allocate n = .ok (index, h₂) → Reaches h h₂
  | deallocate {h₁ h₂ : Heap} {index n : Nat} :
    Reaches h h₁ → h₁.deallocate index n = .ok h₂ → Reaches h h₂
  | put {h₁ : Heap} (index : Nat) (ws : List Word) : Reaches h h₁ → Reaches h (h₁.put index ws)

theorem Heap.Reaches.trans {h₁ h₂ h₃ : Heap} (h₁₂ : h₁.Reaches h₂) (h₂₃ : h₂.Reaches h₃) :
    h₁.Reaches h₃ := by
  induction h₂₃ with
  | refl => exact h₁₂
  | allocate _ hok ih => exact ih.allocate hok
  | deallocate _ hok ih => exact ih.deallocate hok
  | put index ws _ ih => exact ih.put index ws

/-- Faults that blame the code of a program. -/
def Fault.isOfCode : Fault → Bool
  | .invalidOpcode _ | .invalidChunk _ => true
  | .invalidProgram (.ranPastEnd _) | .invalidProgram (.jumpOutside _) => true
  | .invalidProgram (.constantOutOfRange _) | .invalidProgram (.heapConstantOutOfRange _) => true
  | _ => false

theorem Fault.isOfCode_of_isTame {f : Fault} (h : f.isTame = true) : f.isOfCode = false := by
  cases f with
  | invalidProgram defect => cases defect <;> first | rfl | cases h
  | invalidOpcode => cases h
  | invalidChunk => cases h
  | _ => rfl

namespace Exec

variable {α β : Type} {confined : Bool}

/-- A result that does not blame the code. -/
def Blameless : Except Fault α → Prop
  | .ok _ => True
  | .error f => f.isOfCode = false

theorem blameless_of_isTame {r : Except Fault α} (h : ∀ f, r = .error f → f.isTame = true) :
    Blameless r := by
  cases r with
  | ok a => trivial
  | error f => exact Fault.isOfCode_of_isTame (h f rfl)

/-- From the machine `m`, the effect comes to the result `r`, leaves the machine `m'` and writes the
lines `printed`, whatever the time to go on and the lines before. -/
def Comes (x : Exec α) (m : Machine) (r : Except Fault α) (m' : Machine)
    (printed : Array String) : Prop :=
  ∀ time log, x { m with resumeAt := time, log } =
    lift r { m' with resumeAt := time, log := log ++ printed }

/-- The effect sees neither the time to go on nor the lines before, and it works on the heap by
requests, returns and writes.  If it is confined, it touches nothing but memory and output, and does
not blame the code. -/
def Acts (confined : Bool) (x : Exec α) : Prop :=
  ∀ m : Machine, ∃ r m' printed, x.Comes m r m' printed ∧ m.heap.Reaches m'.heap ∧
    (confined = true → m.Touches m' ∧ Blameless r)

namespace Acts

/-- Where the effect leads, as far as the flag is concerned. -/
theorem ends {x : Exec α} (h : Acts true x) (m : Machine) :
    match x m with
    | .ok _ m' => m.Touches m'
    | .error f m' => m.Touches m' ∧ f.isOfCode = false := by
  obtain ⟨r, m', printed, hx, -, hconfined⟩ := h m
  obtain ⟨htouches, hr⟩ := hconfined rfl
  obtain ⟨stack, heap, heapConstants, log, rfl⟩ := htouches
  rw [show x m = _ from hx m.resumeAt m.log]
  cases r with
  | ok a => exact ⟨_, _, _, _, rfl⟩
  | error f => exact ⟨⟨_, _, _, _, rfl⟩, hr⟩

/-- An effect that writes no lines. -/
theorem silent {x : Exec α}
    (h : ∀ m : Machine, ∃ r m', (∀ time log, x { m with resumeAt := time, log } =
      lift r { m' with resumeAt := time, log }) ∧ m.heap.Reaches m'.heap ∧
        (confined = true → m.Touches m' ∧ Blameless r)) : Acts confined x := by
  intro m
  obtain ⟨r, m', hx, hrest⟩ := h m
  exact ⟨r, m', #[], fun time log => by rw [hx, Array.append_empty], hrest⟩

/-- An effect on stack and heap. -/
theorem memory {x : Exec α}
    (h : ∀ m : Machine, ∃ r stack heap, (∀ time log, x { m with resumeAt := time, log } =
      lift r { m with stack, heap, resumeAt := time, log }) ∧ m.heap.Reaches heap ∧
        Blameless r) : Acts confined x := by
  refine silent fun m => ?_
  obtain ⟨r, stack, heap, hx, hheap, hr⟩ := h m
  exact ⟨r, { m with stack, heap }, hx, hheap, fun _ => ⟨⟨_, _, _, _, rfl⟩, hr⟩⟩

/-- An effect that only looks at the memory. -/
theorem query {x : Exec α}
    (h : ∀ m : Machine, ∃ r, (∀ time log, x { m with resumeAt := time, log } =
      lift r { m with resumeAt := time, log }) ∧ Blameless r) : Acts confined x := by
  refine memory fun m => ?_
  obtain ⟨r, hx, hr⟩ := h m
  exact ⟨r, m.stack, m.heap, hx, .refl, hr⟩

protected theorem lift {r : Except Fault α} (hr : confined = true → Blameless r) :
    Acts confined (lift r) :=
  silent fun m => ⟨r, m, fun _ _ => rfl, .refl, fun h => ⟨.refl m, hr h⟩⟩

protected theorem pure (a : α) : Acts confined (pure a : Exec α) :=
  .lift (r := .ok a) fun _ => trivial

protected theorem throw {f : Fault} (hf : confined = true → f.isOfCode = false) :
    Acts confined (throw f : Exec α) :=
  .lift (r := .error f) hf

protected theorem bind {x : Exec α} {f : α → Exec β} (hx : Acts confined x)
    (hf : ∀ a, Acts confined (f a)) : Acts confined (x >>= f) := by
  intro m
  obtain ⟨r, m₁, printed₁, hx, hheap, hconfined⟩ := hx m
  cases r with
  | ok a =>
    obtain ⟨r₂, m₂, printed₂, hf, hheap₂, hconfined₂⟩ := hf a m₁
    refine ⟨r₂, m₂, printed₁ ++ printed₂, fun time log => ?_, hheap.trans hheap₂, fun h =>
      ⟨(hconfined h).1.trans (hconfined₂ h).1, (hconfined₂ h).2⟩⟩
    show EStateM.bind x f _ = _
    rw [EStateM.bind, hx time log, ← Array.append_assoc]
    exact hf time (log ++ printed₁)
  | error e =>
    refine ⟨.error e, m₁, printed₁, fun time log => ?_, hheap, hconfined⟩
    show EStateM.bind x f _ = _
    rw [EStateM.bind, hx time log]
    rfl

/-- A failure that is observed is no fault any more. -/
protected theorem observe {x : Exec α} (h : Acts confined x) : Acts confined (observe x) := by
  intro m
  obtain ⟨r, m', printed, hx, hheap, hconfined⟩ := h m
  cases r with
  | ok a =>
    refine ⟨.ok (.ok a), m', printed, fun time log => ?_, hheap, fun h => ⟨(hconfined h).1, trivial⟩⟩
    rw [observe, hx time log]
    rfl
  | error f =>
    refine ⟨.ok (.error f.toHost), m', printed, fun time log => ?_, hheap,
      fun h => ⟨(hconfined h).1, trivial⟩⟩
    rw [observe, hx time log]
    rfl

protected theorem ite {c : Prop} [Decidable c] {x y : Exec α} (hx : Acts confined x)
    (hy : Acts confined y) : Acts confined (if c then x else y) := by
  split
  · exact hx
  · exact hy

/-- A check before the rest. -/
theorem checked {c : Prop} [Decidable c] {f : Fault} {x : Exec α}
    (hf : confined = true → f.isOfCode = false) (hx : Acts confined x) :
    Acts confined (if c then (throw f : Exec PUnit) >>= fun _ => x else x) :=
  .ite ((Acts.throw hf).bind fun _ => hx) hx

/-- A look at the machine, as long as the rest depends on neither the time to go on nor the log. -/
protected theorem get {f : Machine → Exec β} (hf : ∀ m, Acts confined (f m))
    (hblind : ∀ m time log, f { m with resumeAt := time, log } = f m) :
    Acts confined (get >>= f) := by
  intro m
  obtain ⟨r, m', printed, hx, hrest⟩ := hf m m
  refine ⟨r, m', printed, fun time log => ?_, hrest⟩
  show f { m with resumeAt := time, log } _ = _
  rw [hblind m time log]
  exact hx time log

/-- A change of the machine that has nothing to do with the time to go on and the log. -/
protected theorem modifyGet {f : Machine → α × Machine}
    (hf : ∀ m time log, f { m with resumeAt := time, log } =
      ((f m).1, { (f m).2 with resumeAt := time, log }))
    (hheap : ∀ m, (f m).2.heap = m.heap) (htouches : confined = true → ∀ m : Machine, m.Touches (f m).2) :
    Acts confined (modifyGet f : Exec α) := by
  refine silent fun m => ⟨.ok (f m).1, (f m).2, fun time log => ?_, ?_, fun h => ⟨htouches h m, trivial⟩⟩
  · show EStateM.Result.ok (f _).1 (f _).2 = _
    rw [hf m time log]
    rfl
  · rw [hheap m]
    exact .refl

protected theorem modify {f : Machine → Machine}
    (hf : ∀ m time log, f { m with resumeAt := time, log } = { f m with resumeAt := time, log })
    (hheap : ∀ m, (f m).heap = m.heap) (htouches : confined = true → ∀ m : Machine, m.Touches (f m)) :
    Acts confined (modify f : Exec Unit) :=
  .modifyGet (fun m time log => by rw [hf]) hheap htouches

/-- A change of the stack. -/
theorem modifyStack {f : Machine → Array Word}
    (hf : ∀ m time log, f { m with resumeAt := time, log } = f m) :
    Acts confined (modify fun m => { m with stack := f m } : Exec Unit) :=
  .modify (fun m time log => by rw [hf]) (fun _ => rfl) fun _ _ => ⟨_, _, _, _, rfl⟩

end Acts

/-! ### Memory -/

theorem acts_heapIndex (address : Word) : Acts confined (lift (Address.heapIndex address)) :=
  .lift fun _ => blameless_of_isTame fun _ => isTame_heapIndex

theorem acts_offset (address by_ : Word) : Acts confined (lift (Address.offset address by_)) :=
  .lift fun _ => blameless_of_isTame fun _ => isTame_offset

theorem acts_checkIndex (index length : Word) :
    Acts confined (lift (Address.checkIndex index length)) :=
  .lift fun _ => blameless_of_isTame fun _ => isTame_checkIndex

theorem acts_listWords (capacity elementWords : Word) :
    Acts confined (lift (ListBlock.words capacity elementWords)) :=
  .lift fun _ => blameless_of_isTame fun _ => isTame_listWords

theorem acts_computed (n : Nat) : Acts confined (lift (ListBlock.computed n)) :=
  .lift fun _ => blameless_of_isTame fun _ => isTame_computed

theorem acts_allocate (length : Nat) : Acts confined (allocate length) := by
  refine .memory fun m => ?_
  cases hp : m.heap.placement (Heap.blockLength length) with
  | ok p =>
    have hok : m.heap.allocate length =
        .ok (p.index, m.heap.place (Heap.blockLength length) p) := by
      rw [Heap.allocate, hp]
    exact ⟨.ok p.index, m.stack, m.heap.place (Heap.blockLength length) p,
      fun _ _ => by simp only [allocate, hp, lift], Heap.Reaches.refl.allocate hok, trivial⟩
  | error e =>
    exact ⟨.error (.heap e), m.stack, m.heap, fun _ _ => by simp only [allocate, hp, lift], .refl, rfl⟩

theorem acts_deallocate (index length : Nat) : Acts confined (deallocate index length) := by
  refine .memory fun m => ?_
  cases hfree : m.heap.deallocate index length with
  | ok heap =>
    exact ⟨.ok (), m.stack, heap, fun _ _ => by simp only [deallocate, hfree, lift],
      Heap.Reaches.refl.deallocate hfree, trivial⟩
  | error e =>
    exact ⟨.error (.heap e), m.stack, m.heap, fun _ _ => by simp only [deallocate, hfree, lift], .refl,
      rfl⟩

theorem acts_heapRead (index : Nat) : Acts confined (heapRead index) := by
  refine .query fun m => ?_
  cases hread : m.heap.read index with
  | ok w => exact ⟨.ok w, fun _ _ => by simp only [heapRead, hread, lift], trivial⟩
  | error e => exact ⟨.error (.heap e), fun _ _ => by simp only [heapRead, hread, lift], rfl⟩

theorem acts_heapSlice (index length : Nat) : Acts confined (heapSlice index length) := by
  refine .query fun m => ?_
  cases hslice : m.heap.slice index length with
  | ok ws => exact ⟨.ok ws, fun _ _ => by simp only [heapSlice, hslice, lift], trivial⟩
  | error e => exact ⟨.error (.heap e), fun _ _ => by simp only [heapSlice, hslice, lift], rfl⟩

theorem acts_heapStore (index : Nat) (ws : List Word) : Acts confined (heapStore index ws) := by
  refine .memory fun m => ?_
  by_cases h : m.heap.inBounds index ws.length = true
  · exact ⟨.ok (), m.stack, m.heap.put index ws, fun _ _ => if_pos h,
      Heap.Reaches.refl.put index ws, trivial⟩
  · exact ⟨.error (.heap (.outOfBounds index ws.length)), m.stack, m.heap, fun _ _ => if_neg h, .refl,
      rfl⟩

theorem acts_heapWrite (index : Nat) (w : Word) : Acts confined (heapWrite index w) :=
  acts_heapStore index [w]

theorem acts_allocateBlock (ws : Array Word) : Acts confined (allocateBlock ws) :=
  (acts_allocate _).bind fun _ => (acts_heapStore _ _).bind fun _ => .pure _

theorem acts_pushWord (w : Word) : Acts confined (pushWord w) :=
  .memory fun m => ⟨.ok (), m.stack.push w, m.heap, fun _ _ => rfl, .refl, trivial⟩

theorem acts_pushWords (ws : Array Word) : Acts confined (pushWords ws) :=
  .memory fun m => ⟨.ok (), m.stack ++ ws, m.heap, fun _ _ => rfl, .refl, trivial⟩

theorem acts_popWord : Acts confined popWord := by
  refine .memory fun m => ?_
  cases hback : m.stack.back? with
  | some w =>
    exact ⟨.ok w, m.stack.pop, m.heap, fun _ _ => by simp only [popWord, hback, lift], .refl, trivial⟩
  | none =>
    exact ⟨.error .stackUnderflow, m.stack, m.heap, fun _ _ => by simp only [popWord, hback, lift],
      .refl, rfl⟩

theorem acts_top (words : Nat) : Acts confined (top words) := by
  refine .query fun m => ?_
  by_cases h : words ≤ m.stack.size
  · exact ⟨.ok (m.stack.size - words), fun _ _ => if_pos h, trivial⟩
  · exact ⟨.error .stackUnderflow, fun _ _ => if_neg h, rfl⟩

theorem acts_below (at_ depth : Nat) : Acts confined (below at_ depth) :=
  .ite (.pure _) (.throw fun _ => rfl)

theorem acts_truncate (size : Nat) : Acts confined (truncate size) :=
  .memory fun m => ⟨.ok (), m.stack.shrink size, m.heap, fun _ _ => rfl, .refl, trivial⟩

theorem acts_stackRun (index count : Nat) : Acts confined (stackRun index count) :=
  .query fun m => ⟨.ok (Words.run m.stack index count), fun _ _ => rfl, trivial⟩

theorem acts_pushRun (base words : Nat) : Acts confined (pushRun base words) := by
  refine .memory fun m => ?_
  by_cases h : base + words ≤ m.stack.size
  · exact ⟨.ok (), m.stack ++ Words.run m.stack base words, m.heap, fun _ _ => if_pos h, .refl, trivial⟩
  · exact ⟨.error (.addressOutOfBounds (UInt32.ofNat base)), m.stack, m.heap, fun _ _ => if_neg h,
      .refl, rfl⟩

theorem acts_popInto (base words : Nat) : Acts confined (popInto base words) :=
  (acts_top _).bind fun _ => .checked (fun _ => rfl)
    ((acts_stackRun _ _).bind fun _ => .modifyStack fun _ _ _ => rfl)

theorem acts_load (address : Word) : Acts confined (load address) := by
  by_cases h : Address.isHeap address = true
  · have hx : load address = heapRead (address - Address.heapBit).toNat := by
      funext m
      exact if_pos h
    rw [hx]
    exact acts_heapRead _
  · refine .query fun m => ?_
    cases hw : m.stack[address.toNat]? with
    | some w => exact ⟨.ok w, fun _ _ => by simp only [load, h, hw, lift]; rfl, trivial⟩
    | none =>
      exact ⟨.error (.addressOutOfBounds address), fun _ _ => by simp only [load, h, hw, lift]; rfl, rfl⟩

theorem acts_store (address value : Word) : Acts confined (store address value) := by
  by_cases h : Address.isHeap address = true
  · have hx : store address value = heapWrite (address - Address.heapBit).toNat value := by
      funext m
      exact if_pos h
    rw [hx]
    exact acts_heapWrite _ _
  · refine .memory fun m => ?_
    by_cases hlt : address.toNat < m.stack.size
    · exact ⟨.ok (), m.stack.setIfInBounds address.toNat value, m.heap,
        fun _ _ => (if_neg h).trans (if_pos hlt), .refl, trivial⟩
    · exact ⟨.error (.addressOutOfBounds address), m.stack, m.heap,
        fun _ _ => (if_neg h).trans (if_neg hlt), .refl, rfl⟩

theorem acts_readString (address : Word) : Acts confined (readString address) :=
  (acts_heapIndex _).bind fun _ => (acts_heapRead _).bind fun _ => (acts_heapSlice _ _).bind
    fun _ => .pure _

theorem acts_allocString (text : String) : Acts confined (allocString text) :=
  acts_allocateBlock _

/-- The one effect that writes a line. -/
theorem acts_print (line : String) : Acts confined (print line) :=
  fun m => ⟨.ok (), m, #[line], fun _ _ => by rw [print, Array.push_eq_append]; rfl, .refl,
    fun _ => ⟨.refl m, trivial⟩⟩

/-! ### Lists -/

theorem acts_newList (elementWords capacity : Word) : Acts confined (newList elementWords capacity) :=
  (acts_listWords _ _).bind fun _ => (acts_allocate _).bind fun _ => (acts_heapWrite _ _).bind
    fun _ => .pure _

theorem acts_growList (index : Nat) (length capacity elementWords : Word) :
    Acts confined (growList index length capacity elementWords) :=
  .checked (fun _ => rfl) ((acts_listWords _ _).bind fun _ => (acts_allocate _).bind fun _ =>
    (acts_computed _).bind fun _ => (acts_heapSlice _ _).bind fun _ =>
      (acts_heapStore _ _).bind fun _ => (acts_heapWrite _ _).bind fun _ =>
        (acts_listWords _ _).bind fun _ => (acts_deallocate _ _).bind fun _ => .pure _)

theorem acts_pushList (elementWords : Word) : Acts confined (pushList elementWords) := by
  refine (acts_top _).bind fun at_ => (acts_below _ _).bind fun slotAt =>
    .get (fun m => ?_) fun _ _ _ => rfl
  refine (acts_load _).bind fun list => ?_
  -- the list is there, or it is made first; either way the element is appended to it
  extract_lets withList
  have happend : ∀ (length : Word) (place : Nat), Acts confined (do
      let element ← lift (ListBlock.computed (place + 2 + length.toNat * elementWords.toNat))
      let value ← stackRun at_ elementWords.toNat
      heapStore element.toNat value.toList
      heapWrite place (← lift (ListBlock.computed (length.toNat + 1)))
      truncate slotAt) := fun _ _ =>
    (acts_computed _).bind fun _ => (acts_stackRun _ _).bind fun _ =>
      (acts_heapStore _ _).bind fun _ => (acts_computed _).bind fun _ =>
        (acts_heapWrite _ _).bind fun _ => acts_truncate _
  have hlist : ∀ list, Acts confined (withList () list) := fun list =>
    (acts_heapIndex _).bind fun _ => (acts_heapRead _).bind fun _ => (acts_heapRead _).bind fun _ =>
      .ite ((acts_growList _ _ _ _).bind fun _ => (acts_store _ _).bind fun _ => happend _ _)
        (happend _ _)
  exact .ite ((acts_newList _ _).bind fun new => (acts_store _ _).bind fun _ => hlist new)
    (hlist list)

theorem acts_lengthList (list : Word) : Acts confined (lengthList list) :=
  .ite (.pure _) (acts_load _)

theorem acts_indexList (elementWords : Word) : Acts confined (indexList elementWords) :=
  acts_popWord.bind fun _ => acts_popWord.bind fun _ => (acts_lengthList _).bind fun _ =>
    (acts_checkIndex _ _).bind fun _ => (acts_computed _).bind fun _ => (acts_offset _ _).bind
      fun _ => acts_pushWord _

theorem acts_freeList (elementWords : Word) : Acts confined (freeList elementWords) :=
  acts_popWord.bind fun _ => (acts_load _).bind fun _ =>
    .ite ((acts_offset _ _).bind fun _ => (acts_load _).bind fun _ => (acts_listWords _ _).bind
      fun _ => (acts_heapIndex _).bind fun _ => (acts_deallocate _ _).bind fun _ =>
        acts_store _ _) (.pure _)

/-! ### Host functions -/

theorem acts_helper : ∀ helper : Helper, Acts confined helper.run
  | .push w => acts_pushWord w
  | .pop => acts_popWord
  | .readWord address => acts_load address
  | .writeWord address value => acts_store address value
  | .readString address => acts_readString address
  | .allocString text => acts_allocString text
  | .print line => acts_print line

/-- Host functions see the machine through its helpers only. -/
theorem acts_native (f : Native) : Acts confined f.run := by
  induction f with
  | done => exact .pure _
  | raise fault => exact .throw fun _ => by cases fault <;> rfl
  | call helper next ih => exact (acts_helper helper).observe.bind fun answer => ih answer

theorem acts_callExternal (p : Program) (i : Instruction) : Acts confined (callExternal p i) := by
  refine .get (fun m => ?_) fun _ _ _ => rfl
  cases m.externals[i.short.toNat]? with
  | some f => exact acts_native f
  | none => exact .throw fun _ => rfl

/-! ### Instructions -/

theorem acts_loadRun (address : Word) (k count : Nat) : Acts confined (loadRun address k count) := by
  induction count generalizing k with
  | zero => exact .pure _
  | succ count ih =>
    exact (acts_offset _ _).bind fun _ => (acts_load _).bind fun _ => (acts_pushWord _).bind
      fun _ => ih (k + 1)

theorem acts_storeRun (address : Word) (at_ k count : Nat) :
    Acts confined (storeRun address at_ k count) := by
  induction count generalizing k with
  | zero => exact .pure _
  | succ count ih =>
    refine .get (fun m => ?_) fun _ _ _ => rfl
    exact (acts_offset _ _).bind fun _ => (acts_store _ _).bind fun _ => ih (k + 1)

theorem acts_select (total offset words : Nat) : Acts confined (select total offset words) :=
  .checked (fun _ => rfl) ((acts_top _).bind fun _ => .modifyStack fun _ _ _ => rfl)

theorem acts_storeTop (words depth : Nat) : Acts confined (storeTop words depth) :=
  (acts_top _).bind fun _ => (acts_below _ _).bind fun _ =>
    .checked (fun _ => rfl) (acts_popInto _ _)

theorem acts_storeIndirect (words : Nat) (offset : Word) :
    Acts confined (storeIndirect words offset) := by
  refine (acts_top _).bind fun at_ => (acts_below _ _).bind fun slot =>
    .get (fun m => ?_) fun _ _ _ => rfl
  exact (acts_offset _ _).bind fun _ => (acts_storeRun _ _ _ _).bind fun _ => acts_truncate _

theorem acts_binary (f : Word → Word → Word) : Acts confined (binary f) :=
  acts_popWord.bind fun _ => acts_popWord.bind fun _ => acts_pushWord _

theorem acts_divide (f : Int32 → Int32 → Int32) : Acts confined (divide f) :=
  acts_popWord.bind fun _ => acts_popWord.bind fun _ => .checked (fun _ => rfl) (acts_pushWord _)

theorem acts_unary (f : Word → Word) : Acts confined (unary f) :=
  acts_popWord.bind fun _ => acts_pushWord _

theorem acts_equal (words : Nat) (expected : Bool) : Acts confined (equal words expected) :=
  (acts_top _).bind fun _ => (acts_below _ _).bind fun _ => (acts_stackRun _ _).bind fun _ =>
    (acts_stackRun _ _).bind fun _ => (acts_truncate _).bind fun _ => acts_pushWord _

theorem acts_newBlock (words : Nat) : Acts confined (newBlock words) :=
  (acts_top _).bind fun _ => (acts_allocate _).bind fun _ => (acts_stackRun _ _).bind fun _ =>
    (acts_heapStore _ _).bind fun _ => (acts_truncate _).bind fun _ => acts_pushWord _

theorem acts_freeBlock (words : Nat) : Acts confined (freeBlock words) :=
  acts_popWord.bind fun _ => (acts_load _).bind fun _ =>
    .ite ((acts_heapIndex _).bind fun _ => (acts_deallocate _ _).bind fun _ => acts_store _ _)
      (.pure _)

theorem acts_indexSpan (elementWords length : Word) : Acts confined (indexSpan elementWords length) :=
  acts_popWord.bind fun _ => acts_popWord.bind fun _ => (acts_checkIndex _ _).bind fun _ =>
    (acts_offset _ _).bind fun _ => acts_pushWord _

variable {p : Program} {c : Chunk} {i : Instruction} {op : Opcode}

/-- A constant that has been checked is there. -/
theorem getElem?_of_checkConstants {k ip index words : Nat}
    (h : Program.checkConstants c k ip index (words + 1) = .ok ()) :
    index + words < c.constants.size := by
  rw [Program.checkConstants] at h
  split at h
  · cases h
  · omega

/-- The verifier has seen the instruction somewhere in the chunk. -/
def Checked (p : Program) (c : Chunk) (i : Instruction) (op : Opcode) : Prop :=
  i.opcode? = some op ∧ ∃ k ip, p.checkInstruction k c ip i = .ok ()

theorem acts_loadConstant (hchecked : confined = true → Checked p c i .loadConstant) :
    Acts confined (match c.constants[i.short.toNat]? with
      | some w => pushWord w
      | none => throw (.invalidProgram (.constantOutOfRange i.short.toNat))) := by
  cases hw : c.constants[i.short.toNat]? with
  | some w => exact acts_pushWord w
  | none =>
    refine .throw fun h => ?_
    obtain ⟨hop, k, ip, hcheck⟩ := hchecked h
    rw [Program.checkInstruction, hop] at hcheck
    have hlt : i.short.toNat < c.constants.size := getElem?_of_checkConstants hcheck
    rw [Array.getElem?_eq_getElem hlt] at hw
    cases hw

theorem acts_heapConstant (hchecked : confined = true → Checked p c i .loadHeapConstant) :
    Acts confined (heapConstant c i.short) := by
  -- neither fault comes from a constant that has been checked
  have hpresent : confined = true → ∃ payload, c.constants[i.short.toNat]? = some payload ∧
      i.short.toNat + payload.toNat < c.constants.size := by
    intro h
    obtain ⟨hop, k, ip, hcheck⟩ := hchecked h
    rw [Program.checkInstruction, hop] at hcheck
    have hlt := getElem?_of_checkConstants hcheck
    have hpayload : c.constants[i.short.toNat]? = some c.constants[i.short.toNat] :=
      Array.getElem?_eq_getElem (by omega)
    rw [hpayload, Option.getD_some] at hlt
    exact ⟨_, hpayload, hlt⟩
  refine .get (fun m => ?_) fun _ _ _ => rfl
  split
  · exact .pure _
  · cases hpayload : c.constants[i.short.toNat]? with
    | none =>
      simp only [hpayload]
      refine .throw fun h => ?_
      obtain ⟨payload, hsome, -⟩ := hpresent h
      rw [hpayload] at hsome
      cases hsome
    | some payload =>
      simp only [hpayload]
      have hcopy : Acts confined (do
          let address ← allocateBlock (Words.run c.constants i.short.toNat (1 + payload.toNat))
          modify fun m => { m with
            heapConstants := ((m.chunk, i.short), address) :: m.heapConstants }
          return address : Exec Word) := by
        refine (acts_allocateBlock _).bind fun address => Acts.bind ?_ fun _ => .pure _
        exact .modify (fun _ _ _ => rfl) (fun _ => rfl) fun _ _ => ⟨_, _, _, _, rfl⟩
      by_cases hsize : c.constants.size < i.short.toNat + (1 + payload.toNat)
      · rw [if_pos hsize]
        refine (Acts.throw fun h => ?_).bind fun _ => hcopy
        obtain ⟨payload', hsome, hlt⟩ := hpresent h
        obtain rfl : payload = payload' := Option.some_inj.mp (hpayload.symm.trans hsome)
        omega
      · rw [if_neg hsize]
        exact hcopy

theorem acts_jump (length : Nat) : Acts false (jump i length) := by
  refine .silent fun m => ?_
  by_cases h : (m.ip : Int) + i.signedShort < 0 ∨ (length : Int) < m.ip + i.signedShort
  · exact ⟨.error (.invalidProgram (.jumpOutside (m.ip + i.signedShort))), m, fun _ _ => if_pos h,
      .refl, fun h => by cases h⟩
  · exact ⟨.ok (), { m with ip := (m.ip + i.signedShort : Int).toNat }, fun _ _ => if_neg h, .refl,
      fun h => by cases h⟩

theorem acts_call : Acts false (call p i) := by
  refine .checked (fun h => by cases h) (.get (fun m => ?_) fun _ _ _ => rfl)
  exact .checked (fun _ => rfl) ((acts_top _).bind fun _ =>
    .modify (fun _ _ _ => rfl) (fun _ => rfl) fun h => by cases h)

theorem acts_return_ : Acts false (return_ i) := by
  refine (acts_top _).bind fun at_ => .get (fun m => ?_) fun _ _ _ => rfl
  refine .checked (fun _ => rfl) (Acts.bind (.modifyStack fun _ _ _ => rfl) fun _ =>
    .modifyGet (fun m time log => ?_) (fun m => ?_) fun h => by cases h)
  · dsimp only
    cases m.frames.back? <;> rfl
  · cases m.frames.back? <;> rfl

theorem Acts.continuing {x : Exec Unit} (h : Acts confined x) : Acts confined (continuing x) :=
  h.bind fun _ => .pure _

/-- Every instruction but a wait.  What works on memory only is confined once it has been checked. -/
theorem acts_perform (time : Float) (hyield : op ≠ .yield)
    (hchecked : confined = true → op.isPlain = true ∧ Checked p c i op) :
    Acts confined (perform p c time i op) := by
  -- the flag is off where control is moved
  have hcontrol : op.isPlain = false → confined = false := by
    intro hplain
    rw [Bool.eq_false_iff]
    intro h
    rw [(hchecked h).1] at hplain
    cases hplain
  cases op
  case halt =>
    rw [hcontrol rfl]
    refine Acts.bind (.modify (fun _ _ _ => rfl) (fun _ => rfl) fun h => ?_) fun _ => .pure _
    cases h
  case yield => exact absurd rfl hyield
  case return_ =>
    rw [hcontrol rfl]
    exact acts_return_
  all_goals refine Acts.continuing ?_
  case jump =>
    rw [hcontrol rfl]
    exact acts_jump _
  case jumpIfFalse =>
    rw [hcontrol rfl]
    exact acts_popWord.bind fun _ => .ite (acts_jump _) (.pure _)
  case call =>
    rw [hcontrol rfl]
    exact acts_call
  case callExternal => exact acts_callExternal p i
  case pushImmediate => exact acts_pushWord _
  case loadConstant => exact acts_loadConstant fun h => (hchecked h).2
  case loadHeapConstant =>
    exact (acts_heapConstant fun h => (hchecked h).2).bind fun _ => acts_pushWord _
  case pushZero => exact acts_pushWords _
  case pop => exact (acts_top _).bind fun _ => acts_truncate _
  case duplicate => exact (acts_top _).bind fun _ => acts_pushRun _ _
  case loadVariable =>
    refine .get (fun m => ?_) fun _ _ _ => rfl
    exact acts_pushRun _ _
  case storeVariable =>
    refine .get (fun m => ?_) fun _ _ _ => rfl
    exact acts_popInto _ _
  case loadGlobal => exact acts_pushRun _ _
  case storeGlobal => exact acts_popInto _ _
  case select => exact acts_select _ _ _
  case storeTop => exact acts_storeTop _ _
  case addressOf =>
    refine .get (fun m => ?_) fun _ _ _ => rfl
    exact acts_pushWord _
  case loadIndirect =>
    exact acts_popWord.bind fun _ => (acts_offset _ _).bind fun _ => acts_loadRun _ _ _
  case storeIndirect => exact acts_storeIndirect _ _
  case offsetAddress =>
    exact acts_popWord.bind fun _ => (acts_offset _ _).bind fun _ => acts_pushWord _
  case indexAddress => exact acts_indexSpan _ _
  case divideInt | moduloInt => exact acts_divide _
  case negateInt | negateFloat | not | intToFloat | floatToInt => exact acts_unary _
  case equal | notEqual => exact acts_equal _ _
  case new => exact acts_newBlock _
  case freeHeap => exact acts_freeBlock _
  case listNew => exact (acts_newList _ _).bind fun _ => acts_pushWord _
  case listPush => exact acts_pushList _
  case listLength =>
    exact acts_popWord.bind fun _ => (acts_lengthList _).bind fun _ => acts_pushWord _
  case listIndex => exact acts_indexList _
  case listFree => exact acts_freeList _
  -- what is left are the operators on two words
  all_goals exact acts_binary _

theorem acts_fetch : Acts false (fetch p) := by
  refine .silent fun m => ?_
  cases hc : p.chunks[m.chunk]? with
  | none =>
    exact ⟨.error (.invalidChunk m.chunk), m, fun _ _ => by simp only [fetch, hc, lift], .refl,
      fun h => by cases h⟩
  | some c =>
    cases hi : c.code[m.ip]? with
    | none =>
      exact ⟨.error (.invalidProgram (.ranPastEnd c.name)), m,
        fun _ _ => by simp only [fetch, hc, hi, lift], .refl, fun h => by cases h⟩
    | some i =>
      exact ⟨.ok (c, i), { m with ip := m.ip + 1 }, fun _ _ => by simp only [fetch, hc, hi, lift],
        .refl, fun h => by cases h⟩

end Exec

end WordScript
