/-
Words behind operands.

An operand stands for words that lie somewhere in the machine: on top of the stack if it
is a value, at a known place of the stack if it is a variable or a part of one, and behind
an address that has been computed otherwise.  The stack and the heap have less than `2 ^ 31`
words each, so an address and an offset behind it never leave the part of memory that the
address points into.

* `Machine.Lies` — words behind an address and an offset;
* `Machine.Shows` — the words that an operand stands for, and those that it has on the stack;
* `Machine.Shows.part` — part of an operand that is a place;
* `Machine.Denotes` — an operand through which a value is reached, maybe a pointer to it;
* `Exec.leads_loadPlace`, `leads_select`, `leads_addressOf`, `leads_indexAddress` — the
  instructions of accesses.
-/
import WordScript.Proofs.Components
import WordScript.Proofs.ListEffects
import WordScript.Proofs.StructureValues

namespace WordScript

/-- Words of the value on top are moved down to where it begins. -/
theorem Words.moveDown_append (S V : Array Word) {k n : Nat} (hin : k + n ≤ V.size) :
    moveDown (S ++ V) (S.size + k) S.size n = S ++ run V k n := by
  have hrun : run (S ++ V) (S.size + k) n = run V k n := by
    refine run_eq_run fun j _ => ?_
    rw [Nat.add_assoc, Array.getElem?_append_right (Nat.le_add_right _ _), Nat.add_sub_cancel_left]
  have hsize : (run V k n).size = n := size_run hin
  have hlength : (run V k n).toList.length = n := by rw [Array.length_toList, hsize]
  have hwrite : write (S ++ V) S.size (run V k n).toList = S ++ write V 0 (run V k n).toList :=
    write_append_right S V 0 _
  have htake : ∀ (ws : Array Word) (n : Nat), ws.shrink n = run ws 0 n := by
    intro ws n
    rw [Array.shrink_eq_take, run, Nat.zero_add, Array.take_eq_extract]
  rw [moveDown, hrun, hwrite, htake]
  refine Array.ext_getElem? fun j => ?_
  rw [getElem?_run, Nat.zero_add]
  by_cases hj : j < S.size + n
  · rw [if_pos hj]
    by_cases hlow : j < S.size
    · rw [Array.getElem?_append_left hlow, Array.getElem?_append_left hlow]
    · have hle : S.size ≤ j := Nat.le_of_not_lt hlow
      have hword : (write V 0 (run V k n).toList)[0 + (j - S.size)]? = _ :=
        getElem?_write (by omega) (by omega)
      rw [Nat.zero_add] at hword
      rw [Array.getElem?_append_right hle, Array.getElem?_append_right hle, hword, Array.getElem?_toList]
  · rw [if_neg hj, Array.getElem?_eq_none (by rw [Array.size_append]; omega)]

/-! ### Addresses -/

namespace Address

variable {a : Word} {k : Nat}

theorem toNat_add (h : a.toNat % heapRoom + k < heapRoom) :
    (a + UInt32.ofNat k).toNat = a.toNat + k := by
  rw [heapRoom] at h
  have hlt := a.toNat_lt
  rw [UInt32.toNat_add, UInt32.toNat_ofNat']
  omega

/-- An offset that stays below the end of a part of memory. -/
theorem offset_of_room (h : a.toNat % heapRoom + k < heapRoom) :
    offset a (UInt32.ofNat k) = .ok (a + UInt32.ofNat k) := by
  have hadd := toNat_add h
  rw [heapRoom] at h
  have hlt := a.toNat_lt
  have hk : (UInt32.ofNat k).toNat = k := Word.toNat_ofNat (by omega)
  have hpart : isHeap (a + UInt32.ofNat k) = isHeap a := by
    rw [Bool.eq_iff_iff, isHeap_iff, isHeap_iff, hadd, heapRoom]
    omega
  simp only [offset, hk, hpart, bne_self_eq_false, Bool.false_eq_true, if_false]
  exact if_neg (by omega)

theorem add_ofNat (a : Word) (k j : Nat) :
    a + UInt32.ofNat k + UInt32.ofNat j = a + UInt32.ofNat (k + j) := by
  rw [UInt32.add_assoc, ← UInt32.ofNat_add]

end Address

/-! ### Words behind an address -/

namespace Machine

variable {m : Machine} {a : Word} {k n offset : Nat} {V : Array Word}

/-- The words lie behind an address and an offset, in one part of memory. -/
structure Lies (m : Machine) (a : Word) (offset : Nat) (V : Array Word) : Prop where
  room : a.toNat % Address.heapRoom + offset + V.size < Address.heapRoom
  words : ∀ j < V.size, m.wordAt? (a + UInt32.ofNat (offset + j)) = V[j]?

namespace Lies

/-- A part of the words lies further on. -/
theorem run (h : m.Lies a offset V) (hin : k + n ≤ V.size) :
    m.Lies a (offset + k) (Words.run V k n) := by
  have hsize := Words.size_run hin
  have hroom := h.room
  refine ⟨by omega, fun j hj => ?_⟩
  rw [hsize] at hj
  rw [Nat.add_assoc, h.words (k + j) (by omega), Words.getElem?_run, if_pos hj]

/-- The offset can be added to the address. -/
theorem add (h : m.Lies a (k + offset) V) : m.Lies (a + UInt32.ofNat k) offset V := by
  have hroom := h.room
  have hadd : (a + UInt32.ofNat k).toNat = a.toNat + k := Address.toNat_add (by omega)
  refine ⟨?_, fun j hj => ?_⟩
  · rw [hadd]
    rw [Address.heapRoom] at hroom ⊢
    omega
  · rw [Address.add_ofNat, ← Nat.add_assoc, h.words j hj]

/-- An address of the stack. -/
theorem of_stack (hsize : m.stack.size < Address.heapRoom) (hin : k + V.size ≤ m.stack.size)
    (hwords : Words.run m.stack k V.size = V) : m.Lies (UInt32.ofNat k) 0 V := by
  have hk : (UInt32.ofNat k).toNat = k := Address.toNat_ofStack (by omega)
  have hroom : k % Address.heapRoom = k := Nat.mod_eq_of_lt (by omega)
  refine ⟨by rw [hk]; omega, fun j hj => ?_⟩
  have hplace : UInt32.ofNat k + UInt32.ofNat (0 + j) = UInt32.ofNat (k + j) := by
    rw [Nat.zero_add, ← UInt32.ofNat_add]
  have hlow : k + j < Address.heapRoom := by omega
  rw [hplace, wordAt?, Address.isHeap_ofStack hlow, if_neg Bool.false_ne_true,
    Address.toNat_ofStack hlow]
  have hword := congrArg (·[j]?) hwords
  rwa [Words.getElem?_run, if_pos hj] at hword

/-- An address of the heap. -/
theorem of_heap (hsize : m.heap.size < Address.heapRoom) (hin : k + V.size ≤ m.heap.size)
    (hwords : Words.run m.heap.words k V.size = V) : m.Lies (Address.ofHeap k) 0 V := by
  have hlow : k < Address.heapRoom := by omega
  refine ⟨?_, fun j hj => ?_⟩
  · rw [Address.toNat_ofHeap hlow, Nat.add_mod_left, Nat.mod_eq_of_lt hlow]
    omega
  have hj' : k + j < Address.heapRoom := by omega
  have hplace : Address.ofHeap k + UInt32.ofNat (0 + j) = Address.ofHeap (k + j) := by
    rw [Nat.zero_add]
    refine UInt32.toNat_inj.mp ?_
    rw [Address.toNat_add, Address.toNat_ofHeap hlow, Address.toNat_ofHeap hj', Nat.add_assoc]
    rw [Address.toNat_ofHeap hlow, Nat.add_mod_left, Nat.mod_eq_of_lt hlow]
    exact hj'
  rw [hplace, wordAt?, if_pos (Address.isHeap_ofHeap hj'), Address.toNat_ofHeap_sub hj']
  have hword := congrArg (·[j]?) hwords
  rwa [Words.getElem?_run, if_pos hj] at hword

/-- The words can be read one after the other. -/
theorem wordsAt?_eq {l : List Word}
    (hroom : a.toNat % Address.heapRoom + offset + k + l.length < Address.heapRoom)
    (hwords : ∀ j < l.length, m.wordAt? (a + UInt32.ofNat (offset + k + j)) = l[j]?) :
    m.wordsAt? (a + UInt32.ofNat offset) k l.length = some l := by
  induction l generalizing k with
  | nil => rfl
  | cons w l ih =>
    rw [List.length_cons] at hroom hwords
    have hbase : (a + UInt32.ofNat offset).toNat = a.toNat + offset := Address.toNat_add (by omega)
    have hoffset := Address.offset_of_room (a := a + UInt32.ofNat offset) (k := k) (by
      rw [hbase]
      rw [Address.heapRoom] at hroom ⊢
      omega)
    have hfirst := hwords 0 (Nat.succ_pos _)
    have hrest := ih (k := k + 1) (by omega) fun j hj => by
      have := hwords (j + 1) (Nat.succ_lt_succ hj)
      rwa [List.getElem?_cons_succ, show offset + k + (j + 1) = offset + (k + 1) + j by omega] at this
    rw [List.length_cons, wordsAt?, hoffset]
    dsimp only
    rw [Address.add_ofNat, show m.wordAt? (a + UInt32.ofNat (offset + k)) = some w from hfirst,
      Option.bind_some, hrest]
    rfl

theorem wordsAt? (h : m.Lies a offset V) :
    m.wordsAt? (a + UInt32.ofNat offset) 0 V.size = some V.toList := by
  have hroom := h.room
  rw [← Array.length_toList]
  refine wordsAt?_eq (by rw [Array.length_toList]; omega) fun j hj => ?_
  rw [Array.length_toList] at hj
  rw [Nat.add_zero, h.words j hj, Array.getElem?_toList]

end Lies

/-! ### Operands -/

/-- Where the places of a kind begin on the stack. -/
def base (m : Machine) : Storage → Nat
  | .global => 0
  | _ => m.fp

/-- The words that an operand stands for, where its code has put the words `ws` on the stack of the
machine. -/
inductive Shows (m : Machine) : Operand → Array Word → Array Word → Prop
  /-- a value is on top of the stack -/
  | value (ty : Ty) (V : Array Word) : Shows m (.value ty) V V
  /-- a place whose offset is known lies on the stack -/
  | fixed {ty : Ty} {storage : Storage} {offset : Nat} {V : Array Word} (hstorage : storage ≠ .dynamic)
      (hin : m.base storage + offset + V.size ≤ m.stack.size)
      (hwords : Words.run m.stack (m.base storage + offset) V.size = V) :
      Shows m (.place ⟨ty, storage, offset⟩) #[] V
  /-- any other place lies behind the address on top of the stack -/
  | address {ty : Ty} {a : Word} {offset : Nat} {V : Array Word} (h : m.Lies a offset V) :
      Shows m (.place ⟨ty, .dynamic, offset⟩) #[a] V

/-- A part of a place shows a part of the words. -/
theorem Shows.part {ty inner : Ty} {storage : Storage} {ws : Array Word}
    (h : m.Shows (.place ⟨ty, storage, offset⟩) ws V) (hin : k + n ≤ V.size) :
    m.Shows (.place ⟨inner, storage, offset + k⟩) ws (Words.run V k n) := by
  cases h with
  | fixed hstorage hinside hwords =>
    have hsize := Words.size_run hin
    refine .fixed hstorage (by omega) ?_
    rw [hsize, ← Nat.add_assoc, ← Words.run_run m.stack hin, hwords]
  | address h => exact .address (h.run hin)

/-- The words of a variable. -/
theorem Keeps.shows {v : Variable} (h : m.Keeps v V) :
    m.Shows (.place (.ofVariable v)) #[] V := by
  have hslot : m.base (Place.ofVariable v).storage + v.offset = m.slot v := by
    rw [slot, Place.ofVariable]
    split
    · exact Nat.zero_add _
    · rfl
  have hstorage : (Place.ofVariable v).storage ≠ .dynamic := by
    rw [Place.ofVariable]
    split <;> exact Storage.noConfusion
  have hin : m.base (Place.ofVariable v).storage + v.offset + V.size ≤ m.stack.size := by
    rw [hslot]
    exact h.inside
  have hwords : Words.run m.stack (m.base (Place.ofVariable v).storage + v.offset) V.size = V := by
    rw [hslot]
    exact h.words
  exact .fixed hstorage hin hwords

/-- An operand through which a value of the type `ty` with the words `V` is reached: it stands for the
value itself, or for a pointer to it. -/
inductive Denotes (m : Machine) (o : Operand) (ws : Array Word) (ty : Ty) (V : Array Word) : Prop
  | itself (hty : o.ty = ty) (h : m.Shows o ws V)
  | pointer {a : Word} (hty : o.ty = .pointer ty) (h : m.Shows o ws #[a]) (hlies : m.Lies a 0 V)

end Machine

/-! ### Instructions -/

namespace Exec

open Machine

variable {p : Program} {P : Chunk} {time : Float} {m : Machine} {ip offset : Nat} {S V ws : Array Word}
  {a w : Word}

/-- The value of a place takes the place of its address, if it has one. -/
theorem leads_loadPlace {q : Place} {words : UInt8} {by_ : UInt16} (h : m.Shows (.place q) ws V)
    (hP : p.chunks[m.chunk]? = some P)
    (hi : P.code[ip]? = some (.ofByteShort q.storage.loadOp words by_))
    (hwords : words.toNat = V.size) (hby : by_.toNat = q.offset) :
    Leads p time 1 (m.at_ ip (m.stack ++ ws)) (m.at_ (ip + 1) (m.stack ++ V)) := by
  cases h with
  | @fixed ty storage offset _ hstorage hin hrun =>
    -- both kinds of fixed place push the words where the base of their storage says
    have hpush : ∀ {x : Exec Unit}, x (m.at_ (ip + 1) m.stack) =
        pushRun (m.base storage + offset) V.size (m.at_ (ip + 1) m.stack) →
        x (m.at_ (ip + 1) m.stack) = .ok () (m.at_ (ip + 1) (m.stack ++ V)) := by
      intro x hx
      rw [hx, pushRun_eq (m := m.at_ (ip + 1) m.stack) hin]
      show EStateM.Result.ok () (m.at_ (ip + 1) (m.stack ++ Words.run m.stack _ _)) = _
      rw [hrun]
    rw [Array.append_empty]
    cases storage with
    | frame =>
      refine leads_of_perform hP hi (Instruction.opcode?_ofByteShort _ _ _) rfl (hpush ?_)
      rw [Instruction.short_ofByteShort, Instruction.a_ofByteShort, hwords, hby]
      rfl
    | global =>
      refine leads_of_perform hP hi (Instruction.opcode?_ofByteShort _ _ _) rfl (hpush ?_)
      rw [Instruction.short_ofByteShort, Instruction.a_ofByteShort, hwords, hby,
        show m.base .global = 0 from rfl, Nat.zero_add]
    | dynamic => exact absurd rfl hstorage
  | @address ty a offset _ h =>
    have hroom := h.room
    rw [Array.append_singleton]
    refine leads_of_perform hP hi (Instruction.opcode?_ofByteShort _ _ _) rfl ?_
    have hby : by_.toUInt32 = UInt32.ofNat offset := by
      rw [← show by_.toNat = offset from hby]
      exact UInt32.toNat_inj.mp (by simp)
    have hload : loadRun _ 0 V.size (m.at_ (ip + 1) m.stack) = _ :=
      loadRun_of_wordsAt? h.wordsAt? rfl Array.append_empty.symm
    rw [Instruction.short_ofByteShort, Instruction.a_ofByteShort, hwords, hby,
      bind_of_ok (popWord_push m _ _ a), bind_of_ok (lift_ok (Address.offset_of_room (by omega)) _), hload]
    rfl

/-- A part of the value on top of the stack takes its place. -/
theorem leads_select {total from_ words : UInt8} (hP : p.chunks[m.chunk]? = some P)
    (hi : P.code[ip]? = some (.ofBytes .select total from_ words)) (htotal : total.toNat = V.size)
    (hin : from_.toNat + words.toNat ≤ V.size) :
    Leads p time 1 (m.at_ ip (S ++ V))
      (m.at_ (ip + 1) (S ++ Words.run V from_.toNat words.toNat)) := by
  refine leads_of_perform hP hi (Instruction.opcode?_ofBytes _ _ _ _) rfl ?_
  rw [Instruction.a_ofBytes, Instruction.b_ofBytes, Instruction.c_ofBytes, htotal, select,
    if_neg (Nat.not_lt.mpr hin)]
  refine (bind_of_ok (top_at m (ip + 1) S V)).trans ?_
  show EStateM.Result.ok () (m.at_ (ip + 1) (Words.moveDown (S ++ V) _ _ _)) = _
  rw [Words.moveDown_append S V hin]

/-- The address of a place on the stack. -/
theorem leads_addressOf {ty : Ty} {storage : Storage} {flag : UInt8} {by_ : UInt16}
    (h : m.Shows (.place ⟨ty, storage, offset⟩) ws V) (hstorage : storage ≠ .dynamic)
    (hsize : m.stack.size < Address.heapRoom) (hflag : flag = 0 ↔ storage = .frame)
    (hby : by_.toNat = offset) :
    ∃ a, m.Lies a 0 V ∧ ∀ {P : Chunk} {ip : Nat}, p.chunks[m.chunk]? = some P →
      P.code[ip]? = some (.ofByteShort .addressOf flag by_) →
      Leads p time 1 (m.at_ ip (m.stack ++ ws)) (m.at_ (ip + 1) (m.stack.push a)) := by
  cases h with
  | address h => exact absurd rfl hstorage
  | fixed _ hin hrun =>
    refine ⟨_, .of_stack hsize hin hrun, fun hP hi =>
      leads_of_perform hP hi (Instruction.opcode?_ofByteShort _ _ _) rfl ?_⟩
    -- the flag tells the two kinds of fixed place apart
    have hbase : (if flag = 0 then m.fp else 0) = m.base storage := by
      split
      · rename_i hzero
        rw [hflag.mp hzero]
        rfl
      · rename_i hnonzero
        cases storage with
        | frame => exact absurd (hflag.mpr rfl) hnonzero
        | global => rfl
        | dynamic => exact absurd rfl hstorage
    rw [Instruction.short_ofByteShort, Instruction.a_ofByteShort, hby, Array.append_empty, bind_get]
    show EStateM.Result.ok () (m.at_ (_ + 1) (m.stack.push
      (UInt32.ofNat ((if flag = 0 then m.fp else 0) + offset)))) = _
    rw [hbase]

/-- The address of an element takes the place of the address of the span and the index. -/
theorem leads_indexAddress {words : UInt8} {length : UInt16} (hP : p.chunks[m.chunk]? = some P)
    (hi : P.code[ip]? = some (.ofByteShort .indexAddress words length))
    (hw : w.toNat < length.toNat)
    (hroom : a.toNat % Address.heapRoom + w.toNat * words.toNat < Address.heapRoom) :
    Leads p time 1 (m.at_ ip ((S.push a).push w))
      (m.at_ (ip + 1) (S.push (a + UInt32.ofNat (w.toNat * words.toNat)))) := by
  refine leads_of_perform hP hi (Instruction.opcode?_ofByteShort _ _ _) rfl ?_
  have hlength := length.toNat_lt
  have hword : length.toUInt32 = UInt32.ofNat length.toNat := UInt32.toNat_inj.mp (by simp)
  have hcheck : Address.checkIndex w length.toUInt32 = .ok () := by
    rw [hword, checkIndex_ofNat w (by omega), if_pos]
    rw [Word.toInt, if_pos (by omega)]
    omega
  have hproduct : w * words.toUInt32 = UInt32.ofNat (w.toNat * words.toNat) := by
    rw [UInt32.ofNat_mul, UInt32.ofNat_toNat]
    congr 1
    exact UInt32.toNat_inj.mp (by simp)
  rw [Instruction.short_ofByteShort, Instruction.a_ofByteShort, indexSpan,
    bind_of_ok (popWord_push ..), bind_of_ok (popWord_push ..), bind_of_ok (lift_ok hcheck _), hproduct,
    bind_of_ok (lift_ok (Address.offset_of_room hroom) _)]
  rfl

/-- An index outside the span faults. -/
theorem step_indexAddress {words : UInt8} {length : UInt16} (hP : p.chunks[m.chunk]? = some P)
    (hi : P.code[ip]? = some (.ofByteShort .indexAddress words length))
    (hw : ¬(0 ≤ w.toInt ∧ w.toInt < length.toNat)) :
    step p time (m.at_ ip ((S.push a).push w)) =
      .error (.indexOutOfBounds w.toInt length.toNat) (m.at_ (ip + 1) S) := by
  have hlength := length.toNat_lt
  have hword : length.toUInt32 = UInt32.ofNat length.toNat := UInt32.toNat_inj.mp (by simp)
  have hcheck : Address.checkIndex w length.toUInt32 = .error (.indexOutOfBounds w.toInt length.toNat) := by
    rw [hword, checkIndex_ofNat w (by omega), if_neg hw]
  rw [step_at hP hi (Instruction.opcode?_ofByteShort _ _ _)]
  refine bind_of_error ?_
  rw [Instruction.short_ofByteShort, Instruction.a_ofByteShort, indexSpan,
    bind_of_ok (popWord_push ..), bind_of_ok (popWord_push ..), bind_of_error (lift_error hcheck _)]

/-- The value on top of the stack is moved to the heap, and its address takes its place. -/
theorem newBlock_eq_ok {m' : Machine} {H : Heap}
    (h : newBlock V.size (m.holding (S ++ V) H) = .ok () m') :
    ∃ i H', m' = m.holding (S.push (Address.ofHeap i)) H' ∧ i + V.size ≤ H'.size ∧
      Words.run H'.words i V.size = V := by
  rw [newBlock, bind_of_ok (top_holding m S V H)] at h
  cases hallocate : H.allocate V.size with
  | error e =>
    rw [bind_of_error (allocate_holding_error hallocate)] at h
    cases h
  | ok r =>
    obtain ⟨i, H'⟩ := r
    rw [bind_of_ok (allocate_holding hallocate), bind_of_ok (stackRun_holding m S V H')] at h
    by_cases hin : i + V.toList.length ≤ H'.size
    · rw [bind_of_ok (heapStore_holding hin), bind_of_ok (truncate_holding m S V _)] at h
      cases h
      refine ⟨i, H'.put i V.toList, rfl, ?_, ?_⟩
      · rwa [Heap.size_put, ← Array.length_toList]
      · rw [← Array.length_toList]
        exact Words.run_write hin
    · have hstore : heapStore i V.toList (m.holding (S ++ V) H') =
          .error (.heap (.outOfBounds i V.toList.length)) (m.holding (S ++ V) H') := by
        rw [heapStore, if_neg (by rw [Heap.inBounds, decide_eq_true_eq]; exact hin)]
      rw [bind_of_error hstore] at h
      cases h

/-- When the instruction of a `new` has been executed, the words of the value lie behind the pointer,
whatever is on the stack. -/
theorem lies_of_new {words : UInt16} {m' : Machine} (hP : p.chunks[m.chunk]? = some P)
    (hi : P.code[ip]? = some (.ofByteShort .new 0 words)) (hwords : words.toNat = V.size)
    (h : Leads p time 1 (m.at_ ip (S ++ V)) m') (hheap : m'.heap.size < Address.heapRoom) :
    ∃ a H, m' = { m.at_ (ip + 1) (S.push a) with heap := H } ∧
      ∀ ip stack, (m'.at_ ip stack).Lies a 0 V := by
  obtain ⟨m₁, hstep, hlast⟩ := h
  obtain rfl : m₁ = m' := hlast
  rw [step_at hP hi (Instruction.opcode?_ofByteShort _ _ _)] at hstep
  obtain ⟨_, m₂, hnew, hflow⟩ := bind_eq_ok hstep
  cases hflow
  rw [Instruction.short_ofByteShort, hwords] at hnew
  have hnew : newBlock V.size ((m.at_ (ip + 1) (S ++ V)).holding (S ++ V) m.heap) = _ := hnew
  obtain ⟨i, H, rfl, hin, hrun⟩ := newBlock_eq_ok hnew
  exact ⟨_, H, rfl, fun ip stack => .of_heap hheap hin hrun⟩

end Exec

end WordScript
