/-
Access through addresses.

The address of a place that is known when the program runs is a word.  If it is the
address of a heap word, what is read there is read from the heap, and what is written
goes to the heap and nowhere else.  If it is not, it is an index into the value stack.

* `Machine.wordAt?` — the word at an address;
* `Exec.loadRun_of_isHeap`, `Exec.storeRun_of_isHeap` — runs of heap words;
* `Exec.loadRun_of_stack`, `Exec.storeRun_inside`, `Exec.storeRun_outside` — runs of words
  on the stack;
* `Following`, `Pushing` — the code of a pointer, and that of a literal or a variable;
* `Exec.reads_of_execute`, `Exec.writes_of_execute` — what an access through a pointer does.

Design notes: nothing is assumed of the machine that comes to an access, so the word of
the pointer and those on the stack may be any.  It is only assumed that no fault ends the
run on the way, and the lemmas take a run apart from its first instruction on.
-/
import WordScript.Build
import WordScript.Proofs.HeapWords
import WordScript.Proofs.StackFloor

namespace WordScript

/-! ### Addresses -/

namespace Address

theorem toNat_sub_heapBit {a : Word} (h : isHeap a = true) :
    (a - heapBit).toNat = a.toNat - heapRoom := by
  have hle : heapBit ≤ a := by simpa [isHeap] using h
  rw [UInt32.toNat_sub_of_le _ _ hle]
  rfl

/-- An offset stays in the part of memory that the address points into. -/
theorem offset_eq_ok {a b r : Word} (h : offset a b = .ok r) :
    r.toNat = a.toNat + b.toNat ∧ isHeap r = isHeap a := by
  simp only [offset] at h
  split at h
  · cases h
  split at h
  · cases h
  · rename_i hsum hpart
    cases h
    refine ⟨?_, by simpa using hpart⟩
    rw [UInt32.toNat_add]
    omega

end Address

/-- A stack over which the words `ws` have been written from an index on.  What would come to lie
above its end is lost. -/
def Words.Overwritten (base : Array Word) (index : Nat) (ws stack : Array Word) : Prop :=
  stack.size = base.size ∧ ∀ i, i < base.size →
    stack[i]? = if index ≤ i ∧ i < index + ws.size then ws[i - index]? else base[i]?

/-- The word at an address. -/
def Machine.wordAt? (m : Machine) (address : Word) : Option Word :=
  if Address.isHeap address then m.heap.words[(address - Address.heapBit).toNat]?
  else m.stack[address.toNat]?

namespace Exec

variable {m m' : Machine} {address w : Word} {k n : Nat}

theorem lift_eq_ok {α : Type} {r : Except Fault α} {a : α} (h : lift r m = .ok a m') :
    r = .ok a ∧ m' = m := by
  cases r with
  | ok b =>
    cases h
    exact ⟨rfl, rfl⟩
  | error f => cases h

theorem load_eq_ok (h : load address m = .ok w m') : m.wordAt? address = some w ∧ m' = m := by
  rw [load] at h
  rw [Machine.wordAt?]
  split at h
  · rename_i hheap
    rw [if_pos hheap]
    simp only [heapRead, Heap.read] at h
    cases hword : m.heap.words[(address - Address.heapBit).toNat]? with
    | none =>
      rw [hword] at h
      cases h
    | some v =>
      rw [hword] at h
      cases h
      exact ⟨rfl, rfl⟩
  · rename_i hheap
    rw [if_neg hheap]
    cases hword : m.stack[address.toNat]? with
    | none =>
      rw [hword] at h
      cases h
    | some v =>
      rw [hword] at h
      cases h
      exact ⟨rfl, rfl⟩

theorem offset_zero (a : Word) : Address.offset a (0 : UInt16).toUInt32 = .ok a := by
  have hlt : a.toNat < 4294967296 := a.toNat_lt
  simpa [Address.offset] using hlt

/-- The first word of a run is read and pushed, then the others. -/
theorem loadRun_succ_eq_ok (h : loadRun address k (n + 1) m = .ok () m') :
    ∃ place v, Address.offset address (UInt32.ofNat k) = .ok place ∧ m.wordAt? place = some v ∧
      loadRun address (k + 1) n { m with stack := m.stack.push v } = .ok () m' := by
  obtain ⟨place, m₁, hplace, hload⟩ := bind_eq_ok h
  obtain ⟨v, m₂, hload, hpush⟩ := bind_eq_ok hload
  obtain ⟨_, m₃, hpush, hrest⟩ := bind_eq_ok hpush
  obtain ⟨hoffset, rfl⟩ := lift_eq_ok hplace
  obtain ⟨hword, rfl⟩ := load_eq_ok hload
  cases hpush
  exact ⟨place, v, hoffset, hword, hrest⟩

/-- The first word of a run is written, then the others. -/
theorem storeRun_succ_eq_ok {at_ : Nat} (h : storeRun address at_ k (n + 1) m = .ok () m') :
    ∃ place m₁, Address.offset address (UInt32.ofNat k) = .ok place ∧
      store place ((m.stack[at_ + k]?).getD 0) m = .ok () m₁ ∧
      storeRun address at_ (k + 1) n m₁ = .ok () m' := by
  rw [storeRun, bind_get] at h
  obtain ⟨place, m₁, hplace, hstore⟩ := bind_eq_ok h
  obtain ⟨_, m₂, hstore, hrest⟩ := bind_eq_ok hstore
  obtain ⟨hoffset, rfl⟩ := lift_eq_ok hplace
  exact ⟨place, m₂, hoffset, hstore, hrest⟩

/-- Reading leaves the heap alone. -/
theorem heap_of_loadRun (h : loadRun address k n m = .ok () m') : m'.heap = m.heap := by
  induction n generalizing m k with
  | zero =>
    cases h
    rfl
  | succ n ih =>
    obtain ⟨_, _, -, -, hrest⟩ := loadRun_succ_eq_ok h
    have hkept := ih hrest
    exact hkept

/-- Heap words behind a heap address have the numbers behind its number. -/
theorem toNat_offset_heap {place : Word} (hheap : Address.isHeap address = true)
    (hto : place.toNat = address.toNat + k)
    (hpart : Address.isHeap place = Address.isHeap address) :
    (place - Address.heapBit).toNat = (address - Address.heapBit).toNat + k := by
  have hroom := Address.isHeap_iff.mp hheap
  rw [Address.toNat_sub_heapBit (hpart.trans hheap), Address.toNat_sub_heapBit hheap, hto]
  omega

theorem offset_heap {place : Word} (hheap : Address.isHeap address = true) (hk : k < 4294967296)
    (h : Address.offset address (UInt32.ofNat k) = .ok place) :
    (place - Address.heapBit).toNat = (address - Address.heapBit).toNat + k ∧
      Address.isHeap place = true := by
  obtain ⟨hto, hpart⟩ := Address.offset_eq_ok h
  rw [Word.toNat_ofNat hk] at hto
  exact ⟨toNat_offset_heap hheap hto hpart, hpart.trans hheap⟩

/-- A heap address leads to the heap alone. -/
theorem store_of_isHeap (hheap : Address.isHeap address = true)
    (h : store address w m = .ok () m') :
    m' = { m with heap := m.heap.put (address - Address.heapBit).toNat [w] } := by
  rw [store, if_pos hheap, heapWrite, heapStore] at h
  split at h
  · cases h
    rfl
  · cases h

theorem store_of_stack (hstack : Address.isHeap address = false)
    (h : store address w m = .ok () m') :
    address.toNat < m.stack.size ∧
      m' = { m with stack := m.stack.setIfInBounds address.toNat w } := by
  rw [store, if_neg (by rw [hstack]; exact Bool.false_ne_true)] at h
  split at h
  · cases h
    exact ⟨‹_›, rfl⟩
  · cases h

/-- Reading at a heap address reads a run of heap words. -/
theorem loadRun_of_isHeap (hheap : Address.isHeap address = true) (hk : k + n < 4294967296)
    (h : loadRun address k n m = .ok () m') :
    m'.stack = m.stack ++ Words.run m.heap.words ((address - Address.heapBit).toNat + k) n := by
  induction n generalizing m k with
  | zero =>
    cases h
    rw [Words.run_zero, Array.append_empty]
  | succ n ih =>
    obtain ⟨place, v, hoffset, hword, hrest⟩ := loadRun_succ_eq_ok h
    obtain ⟨hindex, hplaceHeap⟩ := offset_heap hheap (by omega) hoffset
    rw [Machine.wordAt?, if_pos hplaceHeap, hindex] at hword
    rw [ih (by omega) hrest, Words.run_succ hword, ← Array.append_assoc]
    rfl

/-- Writing at a heap address writes a run of heap words and nothing else. -/
theorem storeRun_of_isHeap {S t : Array Word} (hheap : Address.isHeap address = true)
    (hstack : m.stack = S ++ t) (hn : k + n = t.size) (hsize : t.size < 4294967296)
    (h : storeRun address S.size k n m = .ok () m') :
    m' = { m with
      heap := m.heap.put ((address - Address.heapBit).toNat + k) (t.toList.drop k) } := by
  induction n generalizing m k with
  | zero =>
    have hdrop : t.toList.drop k = [] := List.drop_eq_nil_of_le (by simp; omega)
    cases h
    rw [hdrop]
    rfl
  | succ n ih =>
    obtain ⟨place, m₁, hoffset, hstore, hrest⟩ := storeRun_succ_eq_ok h
    obtain ⟨hindex, hplaceHeap⟩ := offset_heap hheap (by omega) hoffset
    -- the heap changes under the source, but the source is on the stack
    have hlt : k < t.toList.length := by
      rw [Array.length_toList]
      omega
    have hword : (m.stack[S.size + k]?).getD 0 = t.toList[k] := by
      rw [hstack, Array.getElem?_append_right (Nat.le_add_right ..), Nat.add_sub_cancel_left,
        ← Array.getElem?_toList, List.getElem?_eq_getElem hlt]
      rfl
    rw [hword] at hstore
    obtain rfl := store_of_isHeap hplaceHeap hstore
    refine (ih ?_ ?_ hrest).trans ?_
    · exact hstack
    · omega
    · rw [hindex, List.drop_eq_getElem_cons hlt]
      rfl

/-- An offset from an address of the stack. -/
theorem offset_stack {place : Word} (hstack : Address.isHeap address = false)
    (hk : k < 4294967296) (h : Address.offset address (UInt32.ofNat k) = .ok place) :
    place.toNat = address.toNat + k ∧ Address.isHeap place = false := by
  obtain ⟨hto, hpart⟩ := Address.offset_eq_ok h
  rw [Word.toNat_ofNat hk] at hto
  exact ⟨hto, hpart.trans hstack⟩

/-- Reading at an address of the stack reads words of the stack. -/
theorem loadRun_of_stack (hstack : Address.isHeap address = false) (hk : k + n < 4294967296)
    (h : loadRun address k n m = .ok () m') {j : Nat} (hj : j < n) :
    m'.stack[m.stack.size + j]? = m'.stack[address.toNat + k + j]? := by
  induction n generalizing m k j with
  | zero => exact absurd hj (Nat.not_lt_zero j)
  | succ n ih =>
    obtain ⟨place, v, hoffset, hword, hrest⟩ := loadRun_succ_eq_ok h
    obtain ⟨hindex, hplaceStack⟩ := offset_stack hstack (by omega) hoffset
    rw [Machine.wordAt?, if_neg (by rw [hplaceStack]; exact Bool.false_ne_true), hindex] at hword
    cases j with
    | zero =>
      -- the word that has just been read is not touched again
      have hbelow : Words.AgreeBelow (m.stack.push v).size (m.stack.push v) m'.stack :=
        (above_loadRun address (k + 1) n (Nat.le_refl _) () m' hrest).2.1
      have hlt := (Array.getElem?_eq_some_iff.mp hword).1
      rw [Array.size_push] at hbelow
      rw [Nat.add_zero, Nat.add_zero, hbelow _ (by omega), hbelow _ (by omega),
        Array.getElem?_push_size, Array.getElem?_push_lt hlt, ← Array.getElem?_eq_getElem hlt,
        hword]
    | succ j =>
      have hlater := ih (by omega) hrest (Nat.lt_of_succ_lt_succ hj)
      rw [Array.size_push] at hlater
      rw [Nat.add_comm j 1, ← Nat.add_assoc, ← Nat.add_assoc, hlater, ← Nat.add_assoc]

/-- Writing at an address of the stack leaves the heap alone. -/
theorem heap_of_storeRun {at_ : Nat} (hheap : Address.isHeap address = false)
    (h : storeRun address at_ k n m = .ok () m') : m'.heap = m.heap := by
  induction n generalizing m k with
  | zero =>
    cases h
    rfl
  | succ n ih =>
    obtain ⟨place, m₁, hoffset, hstore, hrest⟩ := storeRun_succ_eq_ok h
    obtain ⟨-, hpart⟩ := Address.offset_eq_ok hoffset
    rw [store, if_neg (by rw [hpart, hheap]; simp)] at hstore
    split at hstore
    · cases hstore
      have hkept := ih hrest
      exact hkept
    · cases hstore

/-- Nor does it change the stack around the run. -/
theorem storeRun_outside {at_ : Nat} (hstack : Address.isHeap address = false)
    (hk : k + n < 4294967296) (h : storeRun address at_ k n m = .ok () m') :
    m'.stack.size = m.stack.size ∧
      ∀ i, i < address.toNat + k ∨ address.toNat + k + n ≤ i → m'.stack[i]? = m.stack[i]? := by
  induction n generalizing m k with
  | zero =>
    cases h
    exact ⟨rfl, fun _ _ => rfl⟩
  | succ n ih =>
    obtain ⟨place, m₁, hoffset, hstore, hrest⟩ := storeRun_succ_eq_ok h
    obtain ⟨hindex, hplaceStack⟩ := offset_stack hstack (by omega) hoffset
    obtain ⟨-, rfl⟩ := store_of_stack hplaceStack hstore
    obtain ⟨hsize, houtside⟩ := ih (by omega) hrest
    refine ⟨hsize.trans Array.size_setIfInBounds, fun i hi => ?_⟩
    rw [houtside i (by omega)]
    exact Array.getElem?_setIfInBounds_ne (by omega)

/-- Words from above an address of the stack are written there. -/
theorem storeRun_inside {at_ j : Nat} (hstack : Address.isHeap address = false)
    (hk : k + n < 4294967296) (hat : address.toNat ≤ at_) (hroom : at_ + k + n ≤ m.stack.size)
    (h : storeRun address at_ k n m = .ok () m') (hle : k ≤ j) (hlt : j < k + n) :
    m'.stack[address.toNat + j]? = m.stack[at_ + j]? := by
  induction n generalizing m k with
  | zero => omega
  | succ n ih =>
    obtain ⟨place, m₁, hoffset, hstore, hrest⟩ := storeRun_succ_eq_ok h
    obtain ⟨hindex, hplaceStack⟩ := offset_stack hstack (by omega) hoffset
    obtain ⟨hroomPlace, rfl⟩ := store_of_stack hplaceStack hstore
    by_cases hj : j = k
    · subst hj
      rw [(storeRun_outside hstack (by omega) hrest).2 _ (.inl (by omega)), hindex,
        Array.getElem?_setIfInBounds_self_of_lt (by omega)]
      have hsource : at_ + j < m.stack.size := by omega
      rw [Array.getElem?_eq_getElem hsource, Option.getD_some]
    · -- what is still to be moved lies above what has been written, so it is read unchanged
      rw [ih (by omega) (by rw [Array.size_setIfInBounds]; omega) hrest (by omega) (by omega)]
      exact Array.getElem?_setIfInBounds_ne (by omega)

/-- Words above an address are written to the stack, and all from the address on is dropped. -/
theorem overwritten_of_storeRun {base ws : Array Word} (hstack : Address.isHeap address = false)
    (hm : m.stack = base.push w ++ ws) (hsize : ws.size < 4294967296)
    (h : storeRun address (base.size + 1) 0 ws.size m = .ok () m') :
    Words.Overwritten base address.toNat ws (m'.stack.shrink base.size) := by
  have hroom : m.stack.size = base.size + 1 + ws.size := by
    rw [hm, Array.size_append, Array.size_push]
  obtain ⟨hkept, houtside⟩ := storeRun_outside hstack (by omega) h
  have hshrink : (m'.stack.shrink base.size).size = base.size := by
    rw [Array.size_shrink]
    omega
  refine ⟨hshrink, fun i hi => ?_⟩
  rw [Words.AgreeBelow.shrink (Nat.le_refl _) i hi]
  -- the run may reach beyond the end of `base`; what it writes there is dropped
  split
  · rename_i hinside
    obtain ⟨j, rfl⟩ := Nat.exists_eq_add_of_le hinside.1
    rw [storeRun_inside hstack (by omega) (by omega) (by omega) h (Nat.zero_le j) (by omega), hm,
      Array.getElem?_append_right (by rw [Array.size_push]; omega), Array.size_push]
    congr 1
    omega
  · rw [houtside i (by omega), hm, Array.getElem?_append_left (by rw [Array.size_push]; omega),
      Array.getElem?_push_lt hi, ← Array.getElem?_eq_getElem hi]

/-! ### Instructions -/

variable {p : Program} {P : Chunk} {time : Float} {i : Instruction} {op : Opcode} {ended : Bool}

/-- An instruction after which control goes on, and the rest. -/
theorem execute_succ (hP : p.chunks[m.chunk]? = some P) (hi : P.code[m.ip]? = some i)
    (hop : i.opcode? = some op) {x : Exec Unit} (hperform : perform p P time i op = continuing x)
    (h : execute p time (n + 1) m = .ok ended m') :
    ∃ m₁, x { m with ip := m.ip + 1 } = .ok () m₁ ∧ Leads p time 1 m m₁ ∧
      execute p time n m₁ = .ok ended m' := by
  obtain ⟨flow, m₁, hstep, hrest⟩ := bind_eq_ok h
  have hperformed := hstep
  rw [Machine.step_eq hP hi hop, hperform] at hperformed
  obtain ⟨_, m₂, hx, hflow⟩ := bind_eq_ok hperformed
  cases hflow
  exact ⟨m₁, hx, .one hstep, hrest⟩

end Exec

/-- The operation that loads from a place. -/
def Storage.loadOp : Storage → Opcode
  | .frame => .loadVariable
  | .global => .loadGlobal
  | .dynamic => .loadIndirect

/-- The operation that stores to a place. -/
def Storage.storeOp : Storage → Opcode
  | .frame => .storeVariable
  | .global => .storeGlobal
  | .dynamic => .storeIndirect

/-- An operand of a pointer type holds the word `w`.  What is on the stack below the operand is
`base`. -/
def Machine.Follows (m : Machine) (pointer : Operand) (base : Array Word) (w : Word) : Prop :=
  match pointer with
  | .value _ => m.stack = base.push w
  | .place ⟨_, .frame, offset⟩ => m.stack = base ∧ m.stack[m.fp + offset]? = some w
  | .place ⟨_, .global, offset⟩ => m.stack = base ∧ m.stack[offset]? = some w
  | .place ⟨_, .dynamic, offset⟩ => ∃ address place : Word, m.stack = base.push address ∧
      place.toNat = address.toNat + offset ∧ { m with stack := base }.wordAt? place = some w

/-- The code that puts the word of a pointer on the stack. -/
inductive Following : Operand → List Instruction → Prop
  | value (ty : Ty) : Following (.value ty) []
  | place (p : Place) {offset : UInt16} (h : offset.toNat = p.offset) :
      Following (.place p) [.ofByteShort p.storage.loadOp 1 offset]

/-- The code that puts a literal or the value of a variable of so many words on the stack. -/
inductive Pushing : Nat → List Instruction → Prop
  | immediate (v : Int) : Pushing 1 [.ofImmediate .pushImmediate v]
  | constant (index : UInt16) : Pushing 1 [.ofByteShort .loadConstant 0 index]
  | string (index : UInt16) : Pushing 1 [.ofByteShort .loadHeapConstant 0 index]
  | frame (words : UInt8) (offset : UInt16) :
      Pushing words.toNat [.ofByteShort .loadVariable words offset]
  | global (words : UInt8) (offset : UInt16) :
      Pushing words.toNat [.ofByteShort .loadGlobal words offset]
  /-- a variable that is a reference -/
  | behind {code : List Instruction} (h : Pushing 1 code) (words : UInt8) (offset : UInt16) :
      Pushing words.toNat (code ++ [.ofByteShort .loadIndirect words offset])

/-- The instructions stand in the chunk from an index on. -/
def Chunk.HoldsAt (P : Chunk) (ip : Nat) (code : List Instruction) : Prop :=
  ∀ j, j < code.length → P.code[ip + j]? = code[j]?

namespace Chunk.HoldsAt

variable {P : Chunk} {ip : Nat} {i : Instruction} {xs ys : List Instruction}

theorem left (h : P.HoldsAt ip (xs ++ ys)) : P.HoldsAt ip xs := fun j hj => by
  rw [h j (by rw [List.length_append]; omega), List.getElem?_append_left hj]

theorem right (h : P.HoldsAt ip (xs ++ ys)) : P.HoldsAt (ip + xs.length) ys := fun j hj => by
  rw [Nat.add_assoc, h (xs.length + j) (by rw [List.length_append]; omega),
    List.getElem?_append_right (Nat.le_add_right ..), Nat.add_sub_cancel_left]

theorem head (h : P.HoldsAt ip (i :: xs)) : P.code[ip]? = some i :=
  h 0 (Nat.succ_pos _)

end Chunk.HoldsAt

namespace Exec

theorem pushRun_one (h : pushRun k 1 m = .ok () m') :
    ∃ w, m.stack[k]? = some w ∧ m' = { m with stack := m.stack.push w } := by
  rw [pushRun] at h
  split at h
  · rename_i hroom
    cases h
    have hword : m.stack[k]? = some m.stack[k] := Array.getElem?_eq_getElem hroom
    refine ⟨_, hword, ?_⟩
    rw [Words.run_one hword]
    rfl
  · cases h

theorem popWord_eq_ok (h : popWord m = .ok w m') :
    ∃ base, m.stack = base.push w ∧ m' = { m with stack := base } := by
  simp only [popWord] at h
  split at h
  · rename_i v hback
    cases h
    obtain ⟨base, hbase⟩ := Array.back?_eq_some_iff.mp hback
    refine ⟨base, hbase, ?_⟩
    rw [hbase, Array.pop_push]
  · cases h

/-- An address is taken off the stack, and words are read from there. -/
theorem execute_loadIndirect {words : UInt8} {offset : UInt16} (hP : p.chunks[m.chunk]? = some P)
    (hi : P.code[m.ip]? = some (.ofByteShort .loadIndirect words offset))
    (h : execute p time (n + 1) m = .ok ended m') :
    ∃ base address place m₁, m.stack = base.push address ∧
      place.toNat = address.toNat + offset.toNat ∧
      Address.isHeap place = Address.isHeap address ∧
      loadRun place 0 words.toNat (m.at_ (m.ip + 1) base) = .ok () m₁ ∧
      Leads p time 1 m m₁ ∧ execute p time n m₁ = .ok ended m' := by
  have hop := Instruction.opcode?_ofByteShort .loadIndirect words offset
  obtain ⟨m₁, hx, hleads, hrest⟩ := execute_succ hP hi hop rfl h
  obtain ⟨address, m₂, hpop, hx⟩ := bind_eq_ok hx
  obtain ⟨place, m₃, hlift, hload⟩ := bind_eq_ok hx
  obtain ⟨base, hbase, rfl⟩ := popWord_eq_ok hpop
  obtain ⟨hplace, rfl⟩ := lift_eq_ok hlift
  obtain ⟨hto, hpart⟩ := Address.offset_eq_ok hplace
  rw [Instruction.short_ofByteShort, UInt16.toNat_toUInt32] at hto
  exact ⟨base, address, place, m₁, hbase, hto, hpart, hload, hleads, hrest⟩

theorem loadRun_one (h : loadRun address 0 1 m = .ok () m') :
    ∃ w, m.wordAt? address = some w ∧ m' = { m with stack := m.stack.push w } := by
  obtain ⟨place, w, hoffset, hword, hnone⟩ := loadRun_succ_eq_ok h
  have hto := (Address.offset_eq_ok hoffset).1
  obtain rfl : place = address := UInt32.toNat_inj.mp hto
  cases hnone
  exact ⟨w, hword, rfl⟩

/-- The word of the pointer is put on the stack. -/
theorem follows_of_execute {pointer : Operand} {code : List Instruction}
    (hcode : Following pointer code) (hP : p.chunks[m.chunk]? = some P) (hi : P.HoldsAt m.ip code)
    (h : execute p time (n + code.length) m = .ok ended m') :
    ∃ S, (∀ base w, S = base.push w → m.Follows pointer base w) ∧
      Leads p time code.length m (m.at_ (m.ip + code.length) S) ∧
      execute p time n (m.at_ (m.ip + code.length) S) = .ok ended m' := by
  cases hcode with
  | value ty => exact ⟨m.stack, fun _ _ hS => hS, .refl p time m, h⟩
  | @place q offset hoffset =>
    have hi := hi.head
    have hop := Instruction.opcode?_ofByteShort q.storage.loadOp 1 offset
    obtain ⟨ty, storage, at_⟩ := q
    -- the word is all that is new on the stack
    have hpushed : ∀ {S base : Array Word} {v w : Word}, S.push v = base.push w →
        S = base ∧ v = w :=
      fun heq => (Array.push_eq_push.mp heq).symm
    cases storage with
    | frame =>
      obtain ⟨m₁, hx, hnext⟩ := execute_succ hP hi hop rfl h
      rw [bind_get, Instruction.short_ofByteShort, Instruction.a_ofByteShort, hoffset] at hx
      obtain ⟨v, hv, rfl⟩ := pushRun_one hx
      refine ⟨_, fun base w hS => ?_, hnext⟩
      obtain ⟨rfl, rfl⟩ := hpushed hS
      exact ⟨rfl, hv⟩
    | global =>
      obtain ⟨m₁, hx, hnext⟩ := execute_succ hP hi hop rfl h
      rw [Instruction.short_ofByteShort, Instruction.a_ofByteShort, hoffset] at hx
      obtain ⟨v, hv, rfl⟩ := pushRun_one hx
      refine ⟨_, fun base w hS => ?_, hnext⟩
      obtain ⟨rfl, rfl⟩ := hpushed hS
      exact ⟨rfl, hv⟩
    | dynamic =>
      obtain ⟨S, address, place, m₁, hstack, hto, -, hload, hnext⟩ := execute_loadIndirect hP hi h
      rw [hoffset] at hto
      obtain ⟨v, hword, rfl⟩ := loadRun_one hload
      refine ⟨_, fun base w hS => ?_, hnext⟩
      obtain ⟨rfl, rfl⟩ := hpushed hS
      exact ⟨address, place, hstack, hto, hword⟩

/-- What an effect leaves above a stack that it does not touch. -/
theorem append_of_above {S : Array Word} {x : Exec Unit} {words : Nat}
    (hS : Words.AgreeBelow S.size S m.stack)
    (hx : x.Above m S.size fun _ size => size = S.size + words) (h : x m = .ok () m') :
    m.Touches m' ∧ ∃ ws : Array Word, ws.size = words ∧ m'.stack = S ++ ws := by
  obtain ⟨htouches, hbelow, hsize⟩ := hx () m' h
  have hagree := hS.trans hbelow
  have hlower := hagree.extract_eq
  rw [Array.extract_size] at hlower
  refine ⟨htouches, m'.stack.extract S.size (S.size + words), ?_, ?_⟩
  · rw [Array.size_extract, hsize]
    omega
  · have hwhole : m'.stack.extract 0 (S.size + words) = m'.stack := by
      rw [← hsize, Array.extract_size]
    calc m'.stack
        = m'.stack.extract 0 S.size ++ m'.stack.extract S.size (S.size + words) := by
          rw [Array.extract_append_extract, Nat.min_eq_left (Nat.zero_le _),
            Nat.max_eq_right (Nat.le_add_right _ _), hwhole]
      _ = S ++ m'.stack.extract S.size (S.size + words) := by rw [hlower]

/-- Where an instruction has put words on top of a stack that it does not touch. -/
theorem pushes_of_execute {S : Array Word} {x : Exec Unit} {words : Nat}
    (hP : p.chunks[m.chunk]? = some P) (hi : P.code[m.ip]? = some i) (hop : i.opcode? = some op)
    (hperform : perform p P time i op = continuing x) (hS : Words.AgreeBelow S.size S m.stack)
    (hx : x.Above { m with ip := m.ip + 1 } S.size fun _ size => size = S.size + words)
    (h : execute p time (n + 1) m = .ok ended m') :
    ∃ m₁ ws, (ws.size = words ∧ m₁.stack = S ++ ws) ∧ (m₁.chunk = m.chunk ∧ m₁.ip = m.ip + 1) ∧
      Leads p time 1 m m₁ ∧ execute p time n m₁ = .ok ended m' := by
  obtain ⟨m₁, hxm, hnext⟩ := execute_succ hP hi hop hperform h
  obtain ⟨⟨_, _, _, _, rfl⟩, ws, hws⟩ := append_of_above (m := { m with ip := m.ip + 1 }) hS hx hxm
  exact ⟨_, ws, hws, ⟨rfl, rfl⟩, hnext⟩

/-- The words behind the address on top of the stack take its place. -/
theorem above_indirect {floor : Nat} (offset : Word) (words : Nat) (h : m.stack.size = floor + 1) :
    Above (do
      let address ← popWord
      let address ← lift (Address.offset address offset)
      loadRun address 0 words) m floor fun _ size => size = floor + words := by
  refine (above_popWord (by omega)).bind fun address m₁ h₁ => ?_
  refine ((still_lift _).above _ _).bind fun place m₂ h₂ => ?_
  refine (above_loadRun _ _ _ (by omega)).mono fun _ size hsize => ?_
  omega

/-- A literal or a variable is put on top of the stack, and nothing below it changes. -/
theorem pushing_of_execute {words : Nat} {code : List Instruction} (hcode : Pushing words code)
    (hP : p.chunks[m.chunk]? = some P) (hi : P.HoldsAt m.ip code)
    (h : execute p time (n + code.length) m = .ok ended m') :
    ∃ m₁ ws, (ws.size = words ∧ m₁.stack = m.stack ++ ws) ∧
      (m₁.chunk = m.chunk ∧ m₁.ip = m.ip + code.length) ∧
      Leads p time code.length m m₁ ∧ execute p time n m₁ = .ok ended m' := by
  have hself : Words.AgreeBelow m.stack.size m.stack m.stack := .refl _ _
  have hle := Nat.le_refl m.stack.size
  induction hcode generalizing n with
  | immediate v =>
    exact pushes_of_execute hP hi.head (Instruction.opcode?_ofImmediate _ _) rfl hself
      (above_pushWord _ hle) h
  | constant index =>
    refine pushes_of_execute hP hi.head (Instruction.opcode?_ofByteShort _ _ _) rfl hself ?_ h
    split
    · exact above_pushWord _ hle
    · exact above_throw
  | string index =>
    refine pushes_of_execute hP hi.head (Instruction.opcode?_ofByteShort _ _ _) rfl hself ?_ h
    refine ((still_heapConstant _ _).above _ _).bind fun address m₁ h₁ => ?_
    exact (above_pushWord _ (Nat.le_of_eq h₁.symm)).mono fun _ _ hsize => hsize.trans (by rw [h₁])
  | frame words offset =>
    refine pushes_of_execute hP hi.head (Instruction.opcode?_ofByteShort _ _ _) rfl hself ?_ h
    exact above_get (above_pushRun _ _ hle)
  | global words offset =>
    refine pushes_of_execute hP hi.head (Instruction.opcode?_ofByteShort _ _ _) rfl hself ?_ h
    exact above_pushRun _ _ hle
  | @behind code _ words offset ih =>
    -- The address comes first; the words behind it take its place.
    rw [List.length_append, List.length_singleton] at h ⊢
    have hlast := hi.right.head
    obtain ⟨m₁, a, ⟨ha, hstack⟩, ⟨hchunk, hip⟩, hleads, hrest⟩ := ih (n := n + 1) hi.left (by
      rwa [Nat.add_right_comm, Nat.add_assoc])
    have hsize : m₁.stack.size = m.stack.size + 1 := by rw [hstack, Array.size_append, ha]
    have hkept : Words.AgreeBelow m.stack.size m.stack m₁.stack := by
      rw [hstack]
      exact .append a hle
    rw [← hchunk] at hP
    rw [← hip] at hlast
    obtain ⟨m₂, ws, hws, ⟨hchunk₂, hip₂⟩, hleads₂, hrest₂⟩ :=
      pushes_of_execute hP hlast (Instruction.opcode?_ofByteShort _ _ _) rfl hkept
        (above_indirect _ words.toNat hsize) hrest
    exact ⟨m₂, ws, hws, ⟨hchunk₂.trans hchunk, by omega⟩, hleads.trans hleads₂, hrest₂⟩

/-- What the effect of a store through an address is made of. -/
theorem storeIndirect_eq_ok {words : Nat} {by_ : Word} {S ws : Array Word} (hstack : m.stack = S ++ ws)
    (hws : ws.size = words) (h : storeIndirect words by_ m = .ok () m') :
    ∃ (base : Array Word) (w address : Word) (m₁ : Machine), S = base.push w ∧
      Address.offset w by_ = .ok address ∧
      storeRun address (base.size + 1) 0 ws.size m = .ok () m₁ ∧
      m' = { m₁ with stack := m₁.stack.shrink base.size } := by
  -- without a word below the value, the instruction would have faulted
  obtain ⟨base, w, rfl⟩ : ∃ (base : Array Word) (w : Word), S = base.push w := by
    refine Array.exists_push_of_size_pos ?_
    obtain ⟨at_, m₂, htop, hbelow⟩ := bind_eq_ok h
    obtain ⟨slot, m₃, hslot, -⟩ := bind_eq_ok hbelow
    refine Nat.pos_of_ne_zero fun hempty => ?_
    have hat : at_ = 0 := by
      rw [top] at htop
      split at htop
      · cases htop
        rw [hstack, Array.size_append]
        omega
      · cases htop
    rw [hat, below, if_neg (Nat.not_succ_le_zero 0)] at hslot
    cases hslot
  have htop : top words m = .ok (base.size + 1) m := by
    have habove := top_above m base ws m.heap w
    rw [← push_append, ← hstack, hws] at habove
    exact habove
  have hslot : m.stack[base.size]? = some w := by
    rw [hstack, push_append]
    exact getElem?_below base ws w
  rw [storeIndirect, bind_of_ok htop, bind_of_ok (below_succ _ _), bind_get, hslot,
    Option.getD_some] at h
  obtain ⟨address, m₂, hlift, h⟩ := bind_eq_ok h
  obtain ⟨_, m₁, hstore, htruncate⟩ := bind_eq_ok h
  obtain ⟨hoffset, rfl⟩ := lift_eq_ok hlift
  cases htruncate
  exact ⟨base, w, address, m₁, rfl, hoffset, hws ▸ hstore, rfl⟩

/-- Words are written through the address below them.  A heap address leads to the heap alone, any
other one to the stack. -/
theorem execute_storeIndirect {words : UInt8} {offset : UInt16} {S ws : Array Word}
    (hP : p.chunks[m.chunk]? = some P)
    (hi : P.code[m.ip]? = some (.ofByteShort .storeIndirect words offset))
    (hstack : m.stack = S ++ ws) (hws : ws.size = words.toNat)
    (h : execute p time (n + 1) m = .ok ended m') :
    ∃ base w m₁, S = base.push w ∧
      (Address.isHeap w = true → m₁.stack = base ∧
        m₁.heap = m.heap.put ((w - Address.heapBit).toNat + offset.toNat) ws.toList) ∧
      (Address.isHeap w = false → m₁.heap = m.heap ∧
        Words.Overwritten base (w.toNat + offset.toNat) ws m₁.stack) ∧
      execute p time n m₁ = .ok ended m' := by
  have hop := Instruction.opcode?_ofByteShort .storeIndirect words offset
  obtain ⟨m₁, hx, -, hnext⟩ := execute_succ hP hi hop rfl h
  rw [Instruction.a_ofByteShort, Instruction.short_ofByteShort] at hx
  obtain ⟨base, w, address, m₃, rfl, hoffset, hstore, rfl⟩ :=
    storeIndirect_eq_ok (m := { m with ip := m.ip + 1 }) hstack hws hx
  obtain ⟨hto, hpart⟩ := Address.offset_eq_ok hoffset
  rw [UInt16.toNat_toUInt32] at hto
  have hfew : ws.size < 4294967296 := by
    rw [hws]
    exact Nat.lt_trans words.toNat_lt (by decide)
  -- the sum of address and offset stays in the part of memory of the address
  refine ⟨base, w, _, rfl, fun hheap => ?_, fun hheap => ?_, hnext⟩
  · have hindex := toNat_offset_heap hheap hto hpart
    rw [← Array.size_push] at hstore
    obtain rfl := storeRun_of_isHeap (m := { m with ip := m.ip + 1 }) (hpart.trans hheap) hstack
      (Nat.zero_add _) hfew hstore
    refine ⟨?_, ?_⟩
    · show m.stack.shrink base.size = base
      rw [hstack, push_append, Words.shrink_append]
    · rw [hindex]
      rfl
  · have hkept := heap_of_storeRun (hpart.trans hheap) hstore
    rw [← hto]
    exact ⟨hkept, overwritten_of_storeRun (m := { m with ip := m.ip + 1 }) (hpart.trans hheap)
      hstack hfew hstore⟩

/-! ### Accesses -/

variable {pointer : Operand} {code value : List Instruction} {words : UInt8} {offset : UInt16}

/-- What a pointer leads to is read. -/
theorem reads_of_execute (hcode : Following pointer code) (hP : p.chunks[m.chunk]? = some P)
    (hi : P.HoldsAt m.ip (code ++ [.ofByteShort .loadIndirect words offset]))
    (h : execute p time (code.length + 1) m = .ok ended m') :
    ∃ base w ws, m.Follows pointer base w ∧ ws.size = words.toNat ∧ m'.stack = base ++ ws ∧
      m'.heap = m.heap ∧ (Address.isHeap w = true →
        ws = Words.run m.heap.words ((w - Address.heapBit).toNat + offset.toNat) words.toNat) ∧
      (Address.isHeap w = false →
        ∀ j < ws.size, ws[j]? = m'.stack[w.toNat + offset.toNat + j]?) := by
  -- `S` is the stack with the word of the pointer on top, which the second instruction takes off
  rw [Nat.add_comm] at h
  obtain ⟨S, hfollows, -, hrest⟩ := follows_of_execute hcode hP hi.left h
  obtain ⟨base, w, place, m₁, rfl, hto, hpart, hload, -, hend⟩ :=
    execute_loadIndirect (m := m.at_ (m.ip + code.length) S) hP hi.right.head hrest
  cases hend
  obtain ⟨-, ws, hws, hstack⟩ := append_of_above (S := base) (.refl _ _)
    (above_loadRun place 0 words.toNat (Nat.le_refl _)) hload
  have hkept := heap_of_loadRun hload
  have hfew : 0 + words.toNat < 4294967296 := by
    have := words.toNat_lt
    omega
  refine ⟨base, w, ws, hfollows _ _ rfl, hws, hstack, hkept, fun hheap => ?_, fun hheap j hj => ?_⟩
  · have hindex := toNat_offset_heap hheap hto hpart
    have hrun := loadRun_of_isHeap (hpart.trans hheap) hfew hload
    rw [hstack, hindex] at hrun
    exact Array.append_right_inj _ |>.mp hrun
  · have hread : m'.stack[base.size + j]? = m'.stack[place.toNat + 0 + j]? :=
      loadRun_of_stack (hpart.trans hheap) hfew hload (hws ▸ hj)
    rw [← hto, Nat.add_zero] at *
    rw [← hread, hstack, Array.getElem?_append_right (Nat.le_add_right ..), Nat.add_sub_cancel_left]

/-- A literal or a variable is written to what a pointer leads to. -/
theorem writes_of_execute (hcode : Following pointer code) (hvalue : Pushing words.toNat value)
    (hP : p.chunks[m.chunk]? = some P)
    (hi : P.HoldsAt m.ip (code ++ value ++ [.ofByteShort .storeIndirect words offset]))
    (h : execute p time (code.length + value.length + 1) m = .ok ended m') :
    ∃ base w ws mᵥ, m.Follows pointer base w ∧ ws.size = words.toNat ∧
      Leads p time (code.length + value.length) m mᵥ ∧ mᵥ.stack = base.push w ++ ws ∧
      (Address.isHeap w = true → m'.stack = base ∧
        m'.heap = mᵥ.heap.put ((w - Address.heapBit).toNat + offset.toNat) ws.toList) ∧
      (Address.isHeap w = false → m'.heap = mᵥ.heap ∧
        Words.Overwritten base (w.toNat + offset.toNat) ws m'.stack) := by
  have hi₁ := hi.left
  rw [Nat.add_assoc, Nat.add_comm] at h
  obtain ⟨S, hfollows, hleads, hrest⟩ := follows_of_execute hcode hP hi₁.left h
  rw [Nat.add_comm] at hrest
  obtain ⟨mᵥ, ws, ⟨hws, hstack⟩, ⟨hchunk, hip⟩, hleads₂, hrest₂⟩ :=
    pushing_of_execute (m := m.at_ (m.ip + code.length) S) hvalue hP hi₁.right hrest
  have hlast : P.code[mᵥ.ip]? = some (.ofByteShort .storeIndirect words offset) := by
    rw [hip]
    have hhead := hi.right.head
    rwa [List.length_append, ← Nat.add_assoc] at hhead
  obtain ⟨base, w, m₁, rfl, hheap, hother, hend⟩ :=
    execute_storeIndirect (hchunk ▸ hP) hlast hstack hws hrest₂
  cases hend
  exact ⟨base, w, ws, mᵥ, hfollows _ _ rfl, hws, hleads.trans hleads₂, hstack, hheap, hother⟩

end Exec

end WordScript
