/-
Lists behave as sequences.

A number of slots on the stack hold lists, each with elements of its own width.  The
machine makes, extends, reads, changes and frees these lists in any order, and other
code may run in between as long as it leaves the heap and the slots alone.  Whatever
the order, the results are those of one sequence of tuples per slot: lists that grow
move to other blocks and take over each other's freed ones, but no slot ever sees
another slot's words.

* `ListOp`, `Exec.listOp` — the operations, and the instructions that they are;
* `Answers` — what an operation gives and does, in terms of sequences;
* `ListRun` — the machine takes one operation after another;
* `Refines.attempt` — what one operation preserves;
* `follows_of_listRun` — what a whole run gives.

Design notes: the arena is finite, so a list that needs a block may be refused it.
The sequences do not know the arena; what they need of it is the number of words by
which it can still grow, and a request that fits into these is never refused.  No
other refusal is possible: in an arena that addresses can reach, a block is never too
large to be asked for.
-/
import Mathlib.Control.Monad.Basic
import WordScript.Proofs.ListEffects

namespace WordScript

/-- What can be done to a list whose elements have `w` words. -/
inductive ListOp (w : Nat) where
  | new (capacity : UInt16)
  | push (value : Vector Word w)
  | length
  | get (index : Word)
  | set (index : Word) (value : Vector Word w)
  | free
deriving DecidableEq

namespace Exec

/-- Performs an instruction with the width of a slot and a short as its operands. -/
def instruct (p : Program) (c : Chunk) (time : Float) (op : Opcode) (s : ListSlot)
    (short : UInt16) : Exec Unit := do
  let _ ← perform p c time (.ofByteShort op s.width short) op

/-- Puts the address of an element of the list of a slot on the stack. -/
def element (p : Program) (c : Chunk) (time : Float) (s : ListSlot) (index : Word) : Exec Unit := do
  pushRun s.place 1
  pushWord index
  instruct p c time .listIndex s 0

/-- Performs an operation on the list of a slot: the operands are put on the stack, and the results
are left there.  A list that has been freed leaves the word of its slot. -/
def listOp (p : Program) (c : Chunk) (time : Float) (s : ListSlot) : ListOp s.words → Exec Unit
  | .new capacity => do
    instruct p c time .listNew s capacity
    popInto s.place 1
  | .push value => do
    pushWord s.address
    pushWords value.toArray
    instruct p c time .listPush s 0
  | .length => do
    pushRun s.place 1
    instruct p c time .listLength s 0
  | .get index => do
    element p c time s index
    instruct p c time .loadIndirect s 0
  | .set index value => do
    element p c time s index
    pushWords value.toArray
    instruct p c time .storeIndirect s 0
  | .free => do
    pushWord s.address
    instruct p c time .listFree s 0
    pushRun s.place 1

/-- Runs an effect.  What it leaves above the stack that it found is its result, and is dropped; so
is what a fault leaves there. -/
def attempt (x : Exec Unit) (m : Machine) : Except Fault (List Word) × Machine :=
  match x m with
  | .ok _ m' =>
    (.ok (m'.stack.toList.drop m.stack.size), { m' with stack := m'.stack.shrink m.stack.size })
  | .error f m' => (.error f, { m' with stack := m'.stack.shrink m.stack.size })

end Exec

/-- What an operation on the list of a slot gives, and the sequences after it.  A block that is
refused would have been longer than the `room` by which the arena can still grow, and then nothing
changes. -/
inductive Answers (limit room : Nat) (s : ListSlot) (σ : Sequences) :
    ListOp s.words → Except Fault (List Word) → Sequences → Prop
  | new (capacity : UInt16) :
    Answers limit room s σ (.new capacity) (.ok []) (Function.update σ s [])
  | newRefused (capacity : UInt16) (hroom : room < capacity.toNat * s.words + 2) :
    Answers limit room s σ (.new capacity)
      (.error (.heap (.exhausted (capacity.toNat * s.words + 2) limit))) σ
  | push (value : Vector Word s.words) :
    Answers limit room s σ (.push value) (.ok []) (Function.update σ s (σ s ++ [value]))
  | pushRefused (value : Vector Word s.words)
    (hroom : room < max (2 * (σ s).length) 4 * s.words + 2) :
    Answers limit room s σ (.push value)
      (.error (.heap (.exhausted (max (2 * (σ s).length) 4 * s.words + 2) limit))) σ
  | length {n : Word} (hn : n.toNat = (σ s).length) :
    Answers limit room s σ .length (.ok [n]) σ
  | get {index : Word} {k : Nat} {v : Vector Word s.words} (hk : index.toInt = k)
    (hv : (σ s)[k]? = some v) :
    Answers limit room s σ (.get index) (.ok v.toList) σ
  | getOutside {index : Word} (h : ¬(0 ≤ index.toInt ∧ index.toInt < (σ s).length)) :
    Answers limit room s σ (.get index)
      (.error (.indexOutOfBounds index.toInt (σ s).length)) σ
  | set {index : Word} {k : Nat} (value : Vector Word s.words) (hk : index.toInt = k)
    (hlt : k < (σ s).length) :
    Answers limit room s σ (.set index value) (.ok []) (Function.update σ s ((σ s).set k value))
  | setOutside {index : Word} (value : Vector Word s.words)
    (h : ¬(0 ≤ index.toInt ∧ index.toInt < (σ s).length)) :
    Answers limit room s σ (.set index value)
      (.error (.indexOutOfBounds index.toInt (σ s).length)) σ
  | free : Answers limit room s σ .free (.ok [0]) (Function.update σ s [])

/-- An operation, how far the arena could grow before it, and what it gave. -/
structure ListEvent where
  slot : ListSlot
  op : ListOp slot.words
  room : Nat
  result : Except Fault (List Word)

/-- The events are those of sequences. -/
inductive Follows (limit : Nat) : Sequences → List ListEvent → Sequences → Prop
  | done (σ : Sequences) : Follows limit σ [] σ
  | next {σ σ' σ'' : Sequences} {e : ListEvent} {es : List ListEvent}
    (he : Answers limit e.room e.slot σ e.op e.result σ') (hes : Follows limit σ' es σ'') :
    Follows limit σ (e :: es) σ''

/-- The machine takes one operation after another.  Elsewhere, anything may happen in between that
touches neither the heap nor the slots. -/
inductive ListRun (slots : List ListSlot) : Machine → List ListEvent → Machine → Prop
  | done (m : Machine) : ListRun slots m [] m
  | act {m m' : Machine} {s : ListSlot} {es : List ListEvent} (hs : s ∈ slots)
    (op : ListOp s.words) (p : Program) (c : Chunk) (time : Float)
    (hrun : ListRun slots ((Exec.listOp p c time s op).attempt m).2 es m') :
    ListRun slots m (⟨s, op, m.heap.maxWords - m.heap.size,
      ((Exec.listOp p c time s op).attempt m).1⟩ :: es) m'
  | elsewhere {m m₁ m' : Machine} {es : List ListEvent} (hheap : m₁.heap = m.heap)
    (hslots : ∀ s ∈ slots, m₁.stack[s.place]? = m.stack[s.place]?)
    (hrun : ListRun slots m₁ es m') : ListRun slots m es m'

/-- Takes some operations one after the other. -/
def Exec.listOps (p : Program) (c : Chunk) (time : Float) :
    List ((s : ListSlot) × ListOp s.words) → Machine → List ListEvent × Machine
  | [], m => ([], m)
  | ⟨s, op⟩ :: ops, m =>
    let r := (listOp p c time s op).attempt m
    let rest := listOps p c time ops r.2
    (⟨s, op, m.heap.maxWords - m.heap.size, r.1⟩ :: rest.1, rest.2)

/-- Whatever operations there are, there is a run of them. -/
theorem listRun_listOps {slots : List ListSlot} (p : Program) (c : Chunk) (time : Float)
    {ops : List ((s : ListSlot) × ListOp s.words)} (hops : ∀ o ∈ ops, o.1 ∈ slots) (m : Machine) :
    ListRun slots m (Exec.listOps p c time ops m).1 (Exec.listOps p c time ops m).2 := by
  induction ops generalizing m with
  | nil => exact .done m
  | cons o ops ih =>
    obtain ⟨s, op⟩ := o
    exact .act (hops _ List.mem_cons_self) op p c time
      (ih (fun o ho => hops o (List.mem_cons_of_mem _ ho)) _)

/-- The machine holds the sequences. -/
def Refines (limit : Nat) (slots : List ListSlot) (σ : Sequences) (m : Machine) : Prop :=
  ∃ live block, Stocked limit slots σ live block m.heap ∧ Filled slots block m.stack

namespace Exec

variable {limit : Nat} {slots : List ListSlot} {σ : Sequences} {live : List HeapBlock}
  {block : ListSlot → Option HeapBlock} {m : Machine} {S : Array Word} {H : Heap} {s : ListSlot}
  {b : HeapBlock} {p : Program} {c : Chunk} {time : Float} {op : Opcode} {short : UInt16}

/-! ### Instructions -/

theorem instruct_of_ok {x : Exec Unit} {m' : Machine}
    (hperform : perform p c time (.ofByteShort op s.width short) op = continuing x)
    (hx : x m = .ok () m') : instruct p c time op s short m = .ok () m' := by
  rw [instruct, hperform, bind_of_ok (continuing_eq_ok hx)]
  rfl

theorem instruct_of_error {x : Exec Unit} {f : Fault} {m' : Machine}
    (hperform : perform p c time (.ofByteShort op s.width short) op = continuing x)
    (hx : x m = .error f m') : instruct p c time op s short m = .error f m' := by
  have hcontinuing : continuing x m = .error f m' := bind_of_error hx
  rw [instruct, hperform, bind_of_error hcontinuing]

theorem perform_listNew : perform p c time (.ofByteShort .listNew s.width short) .listNew =
    continuing (do pushWord (← newList s.operand (UInt32.ofNat short.toNat))) := by
  have hshort : short.toUInt32 = UInt32.ofNat short.toNat := by
    apply UInt32.toNat_inj.mp
    rw [UInt16.toNat_toUInt32, Word.toNat_ofNat (Nat.lt_trans short.toNat_lt (by decide))]
  show continuing (do
    pushWord (← newList s.operand
      (Instruction.ofByteShort .listNew s.width short).short.toUInt32)) = _
  rw [Instruction.short_ofByteShort, hshort]

theorem perform_loadIndirect :
    perform p c time (.ofByteShort .loadIndirect s.width 0) .loadIndirect = continuing (do
      let address ← popWord
      let address ← lift (Address.offset address 0)
      loadRun address 0 s.words) := by
  show continuing (do
    let address ← popWord
    let address ← lift (Address.offset address
      (Instruction.ofByteShort .loadIndirect s.width 0).short.toUInt32)
    loadRun address 0 s.words) = _
  rw [Instruction.short_ofByteShort]
  rfl

theorem perform_storeIndirect :
    perform p c time (.ofByteShort .storeIndirect s.width 0) .storeIndirect =
      continuing (storeIndirect s.words 0) := by
  show continuing (storeIndirect s.words
    (Instruction.ofByteShort .storeIndirect s.width 0).short.toUInt32) = _
  rw [Instruction.short_ofByteShort]
  rfl

/-- The address of an element, or a fault if there is none. -/
theorem element_stocked (h : Stocked limit slots σ live block H) (hS : Filled slots block S)
    (hs : s ∈ slots) (index : Word) (m : Machine) :
    (∃ b k v, block s = some b ∧ index.toInt = (k : Nat) ∧ (σ s)[k]? = some v ∧
      element p c time s index (m.holding S H) =
        .ok () (m.holding (S.push (Address.ofHeap (b.index + 2 + k * s.words))) H)) ∨
    (¬(0 ≤ index.toInt ∧ index.toInt < (σ s).length) ∧
      element p c time s index (m.holding S H) =
        .error (.indexOutOfBounds index.toInt (σ s).length) (m.holding S H)) := by
  rw [element, bind_of_ok (pushRun_holding (hS s hs)), bind_of_ok (pushWord_holding ..)]
  rcases indexList_stocked h hs index m S with ⟨b, k, v, hb, hk, hv, hindex⟩ | ⟨hinside, herror⟩
  · exact .inl ⟨b, k, v, hb, hk, hv, instruct_of_ok rfl hindex⟩
  · exact .inr ⟨hinside, instruct_of_error rfl herror⟩

/-- The words of an element come onto the stack. -/
theorem loadIndirect_holding {i : Nat} (hsize : i + s.words ≤ H.size)
    (hroom : H.size ≤ Address.heapRoom) :
    instruct p c time .loadIndirect s 0 (m.holding (S.push (Address.ofHeap i)) H) =
      .ok () (m.holding (S ++ Words.run H.words i s.words) H) := by
  have hwidth := s.words_pos
  have hoffset : Address.offset (Address.ofHeap i) 0 = .ok (Address.ofHeap i) :=
    Address.offset_ofHeap (by show i < _; omega)
  refine instruct_of_ok perform_loadIndirect ?_
  rw [bind_of_ok (popWord_holding ..), bind_of_ok (lift_ok hoffset _)]
  exact loadRun_ofHeap hsize hroom

/-- The words of an element go from the stack to the heap. -/
theorem storeIndirect_holding {i : Nat} (hsize : i + s.words ≤ H.size)
    (hroom : H.size ≤ Address.heapRoom) (v : Vector Word s.words) :
    instruct p c time .storeIndirect s 0
        (m.holding (S.push (Address.ofHeap i) ++ v.toArray) H) =
      .ok () (m.holding S (H.put i v.toList)) := by
  have hwidth := s.words_pos
  have hoffset : Address.offset (Address.ofHeap i) 0 = .ok (Address.ofHeap i) :=
    Address.offset_ofHeap (by show i < _; omega)
  have htop := top_above m S v.toArray H (Address.ofHeap i)
  rw [Vector.size_toArray] at htop
  have hstore : storeRun (Address.ofHeap i) (S.size + 1) 0 s.words
      (m.holding (S ++ (#[Address.ofHeap i] ++ v.toArray)) H) =
        .ok () (m.holding (S ++ (#[Address.ofHeap i] ++ v.toArray)) (H.put i v.toList)) := by
    have hstore := storeRun_ofHeap (m := m) (S := S.push (Address.ofHeap i)) (t := v.toArray)
      (k := 0) (i := i) (n := s.words) (by rw [Vector.size_toArray]; omega) hsize hroom
    rwa [Array.size_push, push_append] at hstore
  refine instruct_of_ok perform_storeIndirect ?_
  rw [push_append, storeIndirect, bind_of_ok htop, bind_of_ok (below_succ ..), bind_get,
    Machine.holding_stack, getElem?_below, Option.getD_some, bind_of_ok (lift_ok hoffset _),
    bind_of_ok hstore]
  exact truncate_holding ..

end Exec

/-! ### Operations -/

/-- What an operation gave is what it gives on sequences, the machine holds the sequences after it,
and the stack has changed at most at the slot. -/
def Explains (limit : Nat) (slots : List ListSlot) (σ : Sequences) (s : ListSlot)
    (op : ListOp s.words) (m : Machine) (r : Except Fault (List Word) × Machine) : Prop :=
  ∃ σ', Answers limit (limit - m.heap.size) s σ op r.1 σ' ∧ Refines limit slots σ' r.2 ∧
    s.Confines m.stack r.2.stack

namespace Explains

variable {limit : Nat} {slots : List ListSlot} {σ σ' : Sequences} {live : List HeapBlock}
  {block : ListSlot → Option HeapBlock} {m : Machine} {S S' : Array Word} {H H' : Heap}
  {s : ListSlot} {op : ListOp s.words} {x : Exec Unit}

/-- The effect has left its result `t` above the slots. -/
theorem of_ok {t : Array Word}
    (hx : x (m.holding S H) = .ok () (m.holding (S' ++ t) H')) (hout : s.Confines S S')
    (h : Stocked limit slots σ' live block H') (hS : Filled slots block S')
    (hanswers : Answers limit (limit - H.size) s σ op (.ok t.toList) σ') :
    Explains limit slots σ s op (m.holding S H) (x.attempt (m.holding S H)) := by
  have hattempt : x.attempt (m.holding S H) = (.ok t.toList, m.holding S' H') := by
    rw [Exec.attempt, hx]
    show (Except.ok ((S' ++ t).toList.drop S.size), m.holding ((S' ++ t).shrink S.size) H') = _
    rw [← hout.1, Words.shrink_append, Array.toList_append, ← Array.length_toList, List.drop_left]
  rw [hattempt]
  exact ⟨σ', hanswers, ⟨live, block, h, hS⟩, hout⟩

/-- The effect has faulted without a change of memory, and has left `t` on the stack. -/
theorem of_error {f : Fault} {t : Array Word}
    (hx : x (m.holding S H) = .error f (m.holding (S ++ t) H))
    (h : Stocked limit slots σ live block H) (hS : Filled slots block S)
    (hanswers : Answers limit (limit - H.size) s σ op (.error f) σ) :
    Explains limit slots σ s op (m.holding S H) (x.attempt (m.holding S H)) := by
  have hattempt : x.attempt (m.holding S H) = (.error f, m.holding S H) := by
    rw [Exec.attempt, hx]
    show (Except.error f, m.holding ((S ++ t).shrink S.size) H) = _
    rw [Words.shrink_append]
  rw [hattempt]
  exact ⟨σ, hanswers, ⟨live, block, h, hS⟩, .refl s S⟩

end Explains

section Operations

variable {limit : Nat} {slots : List ListSlot} {σ : Sequences} {live : List HeapBlock}
  {block : ListSlot → Option HeapBlock} {S : Array Word} {H : Heap} {s : ListSlot}

variable (hdistinct : Distinct slots) (h : Stocked limit slots σ live block H)
  (hS : Filled slots block S) (hs : s ∈ slots) (p : Program) (c : Chunk) (time : Float)
  (m : Machine)

open Exec

include hdistinct h hS hs

theorem explains_new (capacity : UInt16) :
    Explains limit slots σ s (.new capacity) (m.holding S H)
      ((listOp p c time s (.new capacity)).attempt (m.holding S H)) := by
  have hfits : capacity.toNat * s.words + 2 < 4294967296 := by
    have hcapacity : capacity.toNat < 65536 := capacity.toNat_lt
    have hle := Nat.mul_le_mul (Nat.le_of_lt hcapacity) (Nat.le_of_lt s.words_lt)
    omega
  rcases newList_stocked h s hfits m S with ⟨live', b, H', hnew, h', -⟩ | ⟨herror, hno⟩
  · refine .of_ok (t := #[]) ?_ (s.confines_set S (Address.ofHeap b.index)) h'
      (hS.set hdistinct hs (some b)) (.new capacity)
    rw [listOp, bind_of_ok (instruct_of_ok perform_listNew (bind_of_ok hnew)), Array.append_empty]
    exact popInto_holding (hS.lt_size hs)
  · refine .of_error (t := #[]) ?_ h hS (.newRefused capacity (by omega))
    rw [listOp, bind_of_error (instruct_of_error perform_listNew (bind_of_error herror)),
      Array.append_empty]

theorem explains_push (v : Vector Word s.words) :
    Explains limit slots σ s (.push v) (m.holding S H)
      ((listOp p c time s (.push v)).attempt (m.holding S H)) := by
  rcases pushList_stocked hdistinct h hS hs v m with
    ⟨live', block', S', H', hpush, h', hS', hout⟩ | ⟨herror, hno⟩
  · refine .of_ok (t := #[]) ?_ hout h' hS' (.push v)
    rw [listOp, bind_of_ok (pushWord_holding ..), bind_of_ok (pushWords_holding ..), push_append,
      Array.append_empty]
    exact instruct_of_ok rfl hpush
  · refine .of_error (t := #[s.address] ++ v.toArray) ?_ h hS (.pushRefused v (by omega))
    rw [listOp, bind_of_ok (pushWord_holding ..), bind_of_ok (pushWords_holding ..), push_append]
    exact instruct_of_error rfl herror

omit hdistinct

theorem explains_length :
    Explains limit slots σ s .length (m.holding S H)
      ((listOp p c time s .length).attempt (m.holding S H)) := by
  have hlength := h.length_lt hs
  rw [Address.heapRoom] at hlength
  refine .of_ok (t := #[UInt32.ofNat (σ s).length]) ?_ (.refl s S) h hS
    (.length (Word.toNat_ofNat (by omega)))
  rw [listOp, bind_of_ok (pushRun_holding (hS s hs))]
  refine instruct_of_ok rfl ?_
  rw [bind_of_ok (popWord_holding ..), bind_of_ok (lengthList_stocked h hs m S),
    Array.append_singleton]
  rfl

theorem explains_get (index : Word) :
    Explains limit slots σ s (.get index) (m.holding S H)
      ((listOp p c time s (.get index)).attempt (m.holding S H)) := by
  rcases element_stocked h hS hs index m with ⟨b, k, v, hb, hk, hv, helement⟩ | ⟨hinside, herror⟩
  · obtain ⟨capacity, hlist, hle, hroom⟩ := h.exists_listAt hs hb
    have hlt : k < (σ s).length := (List.getElem?_eq_some_iff.mp hv).1
    have hend := ListAt.element_le (w := s.words) (Nat.lt_of_lt_of_le hlt hlist.length_le)
    refine .of_ok (t := v.toArray) ?_ (.refl s S) h hS (.get hk hv)
    rw [listOp, bind_of_ok helement, loadIndirect_holding (by omega) hroom, hlist.element k v hv]
  · refine .of_error (t := #[]) ?_ h hS (.getOutside hinside)
    rw [listOp, bind_of_error herror, Array.append_empty]

theorem explains_set (index : Word) (v : Vector Word s.words) :
    Explains limit slots σ s (.set index v) (m.holding S H)
      ((listOp p c time s (.set index v)).attempt (m.holding S H)) := by
  rcases element_stocked h hS hs index m with ⟨b, k, u, hb, hk, hu, helement⟩ | ⟨hinside, herror⟩
  · obtain ⟨capacity, hlist, hle, hroom⟩ := h.exists_listAt hs hb
    have hlt : k < (σ s).length := (List.getElem?_eq_some_iff.mp hu).1
    have hend := ListAt.element_le (w := s.words) (Nat.lt_of_lt_of_le hlt hlist.length_le)
    have hv : v.toList.length = s.words := v.length_toList
    have hconfines : b.Confines H.words
        (Words.write H.words (b.index + 2 + k * s.words) v.toList) :=
      HeapBlock.confines_write _ (by omega) (by rw [hlist.requested, hv]; omega)
    have hfill := h.fill (h.owned s hs b hb)
      (fun t ht hts c hc => h.apart s hs t ht hts.symm b c hb hc) hconfines
      (hlist.set hlt (by rw [hlist.requested]; exact hle) v)
    rw [← hb, Function.update_eq_self] at hfill
    refine .of_ok (t := #[]) ?_ (.refl s S) hfill hS (.set v hk hlt)
    rw [listOp, bind_of_ok helement, bind_of_ok (pushWords_holding ..),
      storeIndirect_holding (by omega) hroom, Array.append_empty]
    rfl
  · refine .of_error (t := #[]) ?_ h hS (.setOutside v hinside)
    rw [listOp, bind_of_error herror, Array.append_empty]

include hdistinct

theorem explains_free :
    Explains limit slots σ s .free (m.holding S H)
      ((listOp p c time s .free).attempt (m.holding S H)) := by
  obtain ⟨live', S', H', hfree, h', hS', hout⟩ := freeList_stocked hdistinct h hS hs m
  have hzero : S'[s.place]? = some 0 := by
    have hword := hS' s hs
    rwa [Function.update_self] at hword
  refine .of_ok (t := #[0]) ?_ hout h' hS' .free
  rw [listOp, bind_of_ok (pushWord_holding ..), bind_of_ok (instruct_of_ok rfl hfree),
    pushRun_holding hzero, Array.append_singleton]

end Operations

namespace Refines

variable {limit : Nat} {slots : List ListSlot} {σ : Sequences} {m m' : Machine} {s : ListSlot}

/-- A machine whose heap has no words and whose slots hold zeros has the empty sequences. -/
theorem start {scanLimit : Nat} (hlimit : limit ≤ Address.heapRoom)
    (hheap : m.heap = Heap.empty limit scanLimit)
    (hslots : ∀ s ∈ slots, m.stack[s.place]? = some 0) : Refines limit slots .none m :=
  ⟨[], fun _ => none, hheap ▸ Stocked.start hlimit scanLimit slots, hslots⟩

/-- One operation, whichever it is. -/
theorem attempt (h : Refines limit slots σ m) (hdistinct : Distinct slots) (hs : s ∈ slots)
    (p : Program) (c : Chunk) (time : Float) (op : ListOp s.words) :
    Explains limit slots σ s op m ((Exec.listOp p c time s op).attempt m) := by
  obtain ⟨live, block, hheap, hstack⟩ := h
  cases op with
  | new capacity => exact explains_new hdistinct hheap hstack hs p c time m capacity
  | push v => exact explains_push hdistinct hheap hstack hs p c time m v
  | length => exact explains_length hheap hstack hs p c time m
  | get index => exact explains_get hheap hstack hs p c time m index
  | set index v => exact explains_set hheap hstack hs p c time m index v
  | free => exact explains_free hdistinct hheap hstack hs p c time m

/-- What touches neither heap nor slots keeps the sequences. -/
theorem elsewhere (h : Refines limit slots σ m) (hheap : m'.heap = m.heap)
    (hslots : ∀ s ∈ slots, m'.stack[s.place]? = m.stack[s.place]?) : Refines limit slots σ m' := by
  obtain ⟨live, block, hstocked, hfilled⟩ := h
  exact ⟨live, block, hheap ▸ hstocked, fun s hs => (hslots s hs).trans (hfilled s hs)⟩

/-- A slot that holds zero has the empty sequence. -/
theorem eq_nil_of_zero (h : Refines limit slots σ m) (hs : s ∈ slots)
    (hzero : m.stack[s.place]? = some 0) : σ s = [] := by
  obtain ⟨live, block, hstocked, hfilled⟩ := h
  cases hb : block s with
  | none => exact hstocked.empty s hs hb
  | some b =>
    obtain ⟨capacity, -, hle, hroom⟩ := hstocked.exists_listAt hs hb
    have hword := (hfilled s hs).symm.trans hzero
    rw [hb, Option.some_inj] at hword
    exact absurd hword (Address.ofHeap_ne_zero (by omega))

/-- A run of operations, from a machine that holds sequences. -/
theorem run (h : Refines limit slots σ m) (hdistinct : Distinct slots) {es : List ListEvent}
    (hrun : ListRun slots m es m') :
    ∃ σ', Follows limit σ es σ' ∧ Refines limit slots σ' m' := by
  -- the induction is on the run; the sequences that the machine holds go along
  induction hrun generalizing σ with
  | done m => exact ⟨σ, .done σ, h⟩
  | @act m m' s es hs op p c time hrun ih =>
    obtain ⟨σ₁, hanswers, h₁, -⟩ := h.attempt hdistinct hs p c time op
    obtain ⟨σ', hfollows, h'⟩ := ih h₁
    obtain ⟨live, block, hstocked, -⟩ := h
    refine ⟨σ', .next ?_ hfollows, h'⟩
    rw [hstocked.maxWords_eq]
    exact hanswers
  | elsewhere hheap hslots hrun ih => exact ih (h.elsewhere hheap hslots)

end Refines

/-- Lists behave as sequences.  From a heap without words and slots that hold zeros, every run of
operations on the slots gives what the same operations give on one sequence of tuples per slot.  At
its end a slot that holds zero has the empty sequence, and an operation that follows changes nothing
on the stack but its own slot. -/
theorem follows_of_listRun {limit scanLimit : Nat} {slots : List ListSlot} {m m' : Machine}
    {es : List ListEvent} (hlimit : limit ≤ 2147483648) (hdistinct : Distinct slots)
    (hheap : m.heap = Heap.empty limit scanLimit)
    (hslots : ∀ s ∈ slots, m.stack[s.place]? = some 0) (hrun : ListRun slots m es m') :
    ∃ σ, Follows limit .none es σ ∧
      ∀ s ∈ slots, (m'.stack[s.place]? = some 0 → σ s = []) ∧
        ∀ (p : Program) (c : Chunk) (time : Float) (op : ListOp s.words),
          s.Confines m'.stack ((Exec.listOp p c time s op).attempt m').2.stack := by
  obtain ⟨σ, hfollows, h⟩ := (Refines.start hlimit hheap hslots).run hdistinct hrun
  refine ⟨σ, hfollows, fun s hs => ⟨h.eq_nil_of_zero hs, fun p c time op => ?_⟩⟩
  obtain ⟨-, -, -, hout⟩ := h.attempt hdistinct hs p c time op
  exact hout

/-- A slot for a list of single words. -/
def singles : ListSlot := ⟨0, 1, by decide, by decide⟩

/-- A slot for a list of pairs. -/
def pairs : ListSlot := ⟨1, 2, by decide, by decide⟩

/-- A machine with an arena of at most 30 words and two empty slots. -/
def twoLists : Machine :=
  { config := {}, heap := Heap.empty 30 1, stack := #[0, 0] }

/-- The list of singles grows and moves.  The list of pairs is freed, made again in the words that
it has left, and then refused a larger block. -/
def twoListsOps : List ((s : ListSlot) × ListOp s.words) :=
  [⟨singles, .push #v[1]⟩, ⟨pairs, .push #v[2, 3]⟩, ⟨singles, .push #v[4]⟩, ⟨singles, .push #v[5]⟩,
    ⟨singles, .push #v[6]⟩, ⟨singles, .push #v[7]⟩, ⟨singles, .get 4⟩, ⟨pairs, .get 0⟩,
    ⟨singles, .get 5⟩, ⟨singles, .get 0xFFFFFFFF⟩, ⟨pairs, .free⟩, ⟨pairs, .new 1⟩,
    ⟨pairs, .push #v[8, 9]⟩, ⟨pairs, .push #v[10, 11]⟩, ⟨pairs, .set 0 #v[12, 13]⟩,
    ⟨pairs, .get 0⟩, ⟨singles, .length⟩, ⟨pairs, .length⟩]

theorem follows_of_twoLists :
    let r := Exec.listOps default default 0 twoListsOps twoLists
    Distinct [singles, pairs] ∧ twoLists.heap = Heap.empty 30 1 ∧
    ListRun [singles, pairs] twoLists r.1 r.2 ∧
    r.1.map ListEvent.result =
      [.ok [], .ok [], .ok [], .ok [], .ok [], .ok [], .ok [7], .ok [2, 3],
        .error (.indexOutOfBounds 5 5), .error (.indexOutOfBounds (-1) 5), .ok [0], .ok [], .ok [],
        .error (.heap (.exhausted 10 30)), .ok [], .ok [12, 13], .ok [5], .ok [1]] ∧
    ∃ σ, Follows 30 .none r.1 σ ∧
      ∀ s ∈ [singles, pairs], (r.2.stack[s.place]? = some 0 → σ s = []) ∧
        ∀ (p : Program) (c : Chunk) (time : Float) (op : ListOp s.words),
          s.Confines r.2.stack ((Exec.listOp p c time s op).attempt r.2).2.stack := by
  have hdistinct : Distinct [singles, pairs] := by decide
  have hheap : twoLists.heap = Heap.empty 30 1 := rfl
  have hrun : ListRun [singles, pairs] twoLists
      (Exec.listOps default default 0 twoListsOps twoLists).1
      (Exec.listOps default default 0 twoListsOps twoLists).2 :=
    listRun_listOps default default 0 (by decide) twoLists
  exact ⟨hdistinct, hheap, hrun, by decide +kernel,
    follows_of_listRun (by decide) hdistinct hheap (by decide) hrun⟩

end WordScript
