/-
The words of the heap under the effects of the machine.

A block lives at an index of the arena; the machine reaches it through addresses of
32 bits.  As long as the arena has at most `2 ^ 31` words nothing wraps, and every
effect on memory can be computed: each lemma here says what one of them does to a
machine whose stack and heap are given.

* `Words.getElem?_run`, `Words.getElem?_write` — runs and writes, word by word;
* `Heap.allocate_cases`, `Heap.allocate_eq_error` — the words after a request, and
  when it is refused;
* `Machine.holding` — a machine with its stack and heap spelled out;
* `Exec.load_ofHeap`, `Exec.loadRun_ofHeap` and others — the effects in bounds.
-/
import WordScript.Proofs.MachineRuns

namespace WordScript

namespace Words

variable {words : Array Word} {index i j count : Nat} {ws : List Word}

/-- The words of a run are those of the array, moved. -/
theorem getElem?_run (words : Array Word) (index count j : Nat) :
    (run words index count)[j]? = if j < count then words[index + j]? else none := by
  rw [run, Array.getElem?_extract]
  by_cases hsize : index + j < words.size
  · have hiff : j < min (index + count) words.size - index ↔ j < count := by omega
    simp only [hiff]
  · rw [if_neg (by omega), Array.getElem?_eq_none (by omega : words.size ≤ index + j)]
    split <;> rfl

/-- Two runs of arrays that agree are equal. -/
theorem run_eq_run {words words' : Array Word} {k : Nat}
    (h : ∀ j, j < count → words'[k + j]? = words[index + j]?) :
    run words' k count = run words index count := by
  refine Array.ext_getElem? fun j => ?_
  rw [getElem?_run, getElem?_run]
  by_cases hj : j < count
  · rw [if_pos hj, if_pos hj, h j hj]
  · rw [if_neg hj, if_neg hj]

theorem run_zero (words : Array Word) (index : Nat) : run words index 0 = #[] :=
  Array.extract_empty_of_stop_le_start (Nat.le_refl index)

theorem run_succ {w : Word} (h : words[index]? = some w) :
    run words index (count + 1) = #[w] ++ run words (index + 1) count := by
  refine Array.ext_getElem? fun j => ?_
  cases j with
  | zero =>
    rw [getElem?_run, if_pos (Nat.succ_pos count), Array.getElem?_append_left Nat.one_pos]
    exact h
  | succ j =>
    rw [Array.getElem?_append_right (Nat.succ_le_succ (Nat.zero_le j)), getElem?_run, getElem?_run,
      Nat.add_right_comm, Nat.add_assoc]
    exact ite_congr (propext Nat.succ_lt_succ_iff) (fun _ => rfl) fun _ => rfl

theorem size_run (h : index + count ≤ words.size) : (run words index count).size = count := by
  rw [run, Array.size_extract]
  omega

/-- Inside the written run stand the words that were written. -/
theorem getElem?_write (hj : j < ws.length) (hsize : index + ws.length ≤ words.size) :
    (write words index ws)[index + j]? = ws[j]? := by
  induction ws generalizing words index j with
  | nil => cases hj
  | cons w ws ih =>
    rw [List.length_cons] at hj hsize
    cases j with
    | zero =>
      rw [write, getElem?_write_of_lt (by omega), Nat.add_zero,
        Array.getElem?_setIfInBounds_self_of_lt (by omega)]
      rfl
    | succ j =>
      rw [write, ← Nat.add_assoc, Nat.add_right_comm, List.getElem?_cons_succ]
      exact ih (by omega) (by rw [Array.size_setIfInBounds]; omega)

/-- Words outside the written run keep their value. -/
theorem getElem?_write_of_outside (h : j < index ∨ index + ws.length ≤ j) :
    (write words index ws)[j]? = words[j]? := by
  induction ws generalizing words index with
  | nil => rfl
  | cons w ws ih =>
    rw [List.length_cons] at h
    rw [write, ih (by omega), Array.getElem?_setIfInBounds_ne (by omega)]

theorem getElem?_write_one {w : Word} (h : index < words.size) :
    (write words index [w])[index]? = some w :=
  Array.getElem?_setIfInBounds_self_of_lt h

theorem getElem?_write_one_of_ne {w : Word} (h : index ≠ j) :
    (write words index [w])[j]? = words[j]? :=
  Array.getElem?_setIfInBounds_ne h

theorem run_write (h : index + ws.length ≤ words.size) :
    run (write words index ws) index ws.length = ws.toArray := by
  refine Array.ext_getElem? fun j => ?_
  have hws : ws.toArray[j]? = ws[j]? := List.getElem?_toArray
  rw [getElem?_run, hws]
  by_cases hj : j < ws.length
  · rw [if_pos hj, getElem?_write hj h]
  · rw [if_neg hj, List.getElem?_eq_none (Nat.le_of_not_lt hj)]

/-- Clearing is writing zeros. -/
theorem clear_eq_write (words : Array Word) (index count : Nat) :
    clear words index count = write words index (List.replicate count 0) := by
  induction count generalizing words index with
  | zero => rfl
  | succ count ih => rw [clear, ih, List.replicate_succ, write]

end Words

theorem Word.toNat_ofNat {n : Nat} (h : n < 4294967296) : (UInt32.ofNat n).toNat = n :=
  UInt32.toNat_ofNat_of_lt' h

namespace Heap

/-- What a request that is granted does to the words: a chunk of the free list is cleared, or zeros
are added at the end of an arena that has room for them. -/
theorem allocate_cases {h h' : Heap} {n index : Nat} (hok : h.allocate n = .ok (index, h')) :
    (∃ free, h' =
      { h with words := Words.write h.words index (List.replicate (blockLength n) 0), free }) ∨
    (index = h.size ∧ h.size + blockLength n ≤ h.maxWords ∧
      h' = { h with words := h.words ++ Array.replicate (blockLength n) 0 }) := by
  rw [allocate, placement] at hok
  split at hok
  · cases hok
  · next p hp =>
    split at hp
    · next free _ =>
      cases hp
      cases hok
      refine .inl ⟨free, ?_⟩
      rw [← Words.clear_eq_write]
      rfl
    · split at hp
      · cases hp
      · next hroom =>
        cases hp
        cases hok
        exact .inr ⟨rfl, Nat.le_of_not_lt hroom, rfl⟩

/-- A request is refused only if the arena has no room for it. -/
theorem allocate_eq_error {h : Heap} {n : Nat} {e : HeapError} (herror : h.allocate n = .error e) :
    e = .exhausted (blockLength n) h.maxWords ∧ h.maxWords < h.size + blockLength n := by
  rw [allocate, placement] at herror
  split at herror
  · next e' hp =>
    cases herror
    split at hp
    · cases hp
    · split at hp
      · next hroom =>
        cases hp
        exact ⟨rfl, hroom⟩
      · cases hp
  · cases herror

/-- A request that is granted leaves the limit as it is and keeps the arena within it. -/
theorem size_le_of_allocate {h h' : Heap} {n index : Nat} (hok : h.allocate n = .ok (index, h'))
    (hsize : h.size ≤ h.maxWords) :
    h'.maxWords = h.maxWords ∧ h.size ≤ h'.size ∧ h'.size ≤ h'.maxWords := by
  rcases allocate_cases hok with ⟨free, rfl⟩ | ⟨rfl, hroom, rfl⟩
  · simpa [size] using hsize
  · simpa [size] using hroom

/-- A block that is handed out holds zeros. -/
theorem getElem?_of_allocate {h h' : Heap} {n index j : Nat}
    (hok : h.allocate n = .ok (index, h')) (hsize : index + blockLength n ≤ h'.size)
    (hj : j < blockLength n) : h'.words[index + j]? = some 0 := by
  rcases allocate_cases hok with ⟨free, rfl⟩ | ⟨rfl, hroom, rfl⟩
  · have hin : index + (List.replicate (blockLength n) (0 : Word)).length ≤ h.words.size := by
      simpa [size] using hsize
    rw [Words.getElem?_write (by rwa [List.length_replicate]) hin, List.getElem?_replicate_of_lt hj]
  · show (h.words ++ Array.replicate (blockLength n) (0 : Word))[h.words.size + j]? = some 0
    rw [Array.getElem?_append_right (Nat.le_add_right _ _), Nat.add_sub_cancel_left,
      Array.getElem?_replicate, if_pos hj]

/-- Outside the block that is handed out, the words of the arena stay. -/
theorem getElem?_of_allocate_of_outside {h h' : Heap} {n index j : Nat}
    (hok : h.allocate n = .ok (index, h')) (hj : j < h.size)
    (hout : j < index ∨ index + blockLength n ≤ j) : h'.words[j]? = h.words[j]? := by
  rcases allocate_cases hok with ⟨free, rfl⟩ | ⟨rfl, hroom, rfl⟩
  · exact Words.getElem?_write_of_outside (by rwa [List.length_replicate])
  · exact Array.getElem?_append_left hj

@[simp] theorem size_put (h : Heap) (index : Nat) (ws : List Word) :
    (h.put index ws).size = h.size :=
  Words.size_write ..

end Heap

namespace Address

/-- The greatest size of an arena whose indices all have addresses. -/
def heapRoom : Nat := 2147483648

variable {i : Nat}

theorem toNat_ofHeap (hi : i < heapRoom) : (ofHeap i).toNat = heapRoom + i := by
  have hw : (UInt32.ofNat i).toNat = i := Word.toNat_ofNat (Nat.lt_trans hi (by decide))
  have hlt : UInt32.ofNat i < heapBit := by
    rw [UInt32.lt_iff_toNat_lt, hw]
    exact hi
  simp only [ofHeap, if_pos hlt, UInt32.toNat_add, hw]
  show (i + 2147483648) % 2 ^ 32 = 2147483648 + i
  rw [heapRoom] at hi
  omega

theorem isHeap_iff {address : Word} : isHeap address = true ↔ heapRoom ≤ address.toNat := by
  rw [isHeap, decide_eq_true_eq, UInt32.le_iff_toNat_le]
  rfl

theorem isHeap_ofHeap (hi : i < heapRoom) : isHeap (ofHeap i) = true := by
  rw [isHeap_iff, toNat_ofHeap hi]
  omega

theorem ofHeap_ne_zero (hi : i < heapRoom) : ofHeap i ≠ 0 := by
  intro hzero
  have hnat := toNat_ofHeap hi
  rw [hzero, heapRoom, UInt32.toNat_zero] at hnat
  omega

/-- The index of an address is found again. -/
theorem toNat_ofHeap_sub (hi : i < heapRoom) : (ofHeap i - heapBit).toNat = i := by
  have hle : heapBit ≤ ofHeap i := of_decide_eq_true (isHeap_ofHeap hi)
  rw [UInt32.toNat_sub_of_le _ _ hle, toNat_ofHeap hi]
  exact Nat.add_sub_cancel_left ..

theorem heapIndex_ofHeap (hi : i < heapRoom) : heapIndex (ofHeap i) = .ok i := by
  rw [heapIndex, if_pos (isHeap_ofHeap hi), toNat_ofHeap_sub hi]

/-- An offset inside the arena. -/
theorem offset_ofHeap {by_ : Word} (h : i + by_.toNat < heapRoom) :
    offset (ofHeap i) by_ = .ok (ofHeap (i + by_.toNat)) := by
  have hi : i < heapRoom := Nat.lt_of_le_of_lt (Nat.le_add_right ..) h
  have hsum : ofHeap i + by_ = ofHeap (i + by_.toNat) := by
    apply UInt32.toNat_inj.mp
    rw [UInt32.toNat_add, toNat_ofHeap hi, toNat_ofHeap h]
    rw [heapRoom] at h ⊢
    omega
  have hfits : ¬(ofHeap i).toNat + by_.toNat ≥ 4294967296 := by
    rw [toNat_ofHeap hi]
    rw [heapRoom] at h ⊢
    omega
  simp [offset, hsum, if_neg hfits, isHeap_ofHeap hi, isHeap_ofHeap h]

/-- The address of a place on the stack. -/
theorem toNat_ofStack (hi : i < heapRoom) : (UInt32.ofNat i).toNat = i :=
  Word.toNat_ofNat (Nat.lt_trans hi (by decide))

theorem isHeap_ofStack (hi : i < heapRoom) : isHeap (UInt32.ofNat i) = false := by
  rw [Bool.eq_false_iff]
  intro hheap
  rw [isHeap_iff, toNat_ofStack hi] at hheap
  omega

end Address

/-- The machine with another stack and another heap. -/
def Machine.holding (m : Machine) (stack : Array Word) (heap : Heap) : Machine :=
  { m with stack, heap }

@[simp] theorem Machine.holding_stack (m : Machine) (S : Array Word) (H : Heap) :
    (m.holding S H).stack = S := rfl

@[simp] theorem Machine.holding_heap (m : Machine) (S : Array Word) (H : Heap) :
    (m.holding S H).heap = H := rfl

namespace Exec

variable {α β : Type} {m m' : Machine} {S : Array Word} {H H' : Heap} {i k n : Nat} {w : Word}

theorem bind_of_ok {x : Exec α} {f : α → Exec β} {a : α} (h : x m = .ok a m') :
    (x >>= f) m = f a m' := by
  show EStateM.bind x f m = _
  simp only [EStateM.bind, h]

theorem bind_of_error {x : Exec α} {f : α → Exec β} {e : Fault} (h : x m = .error e m') :
    (x >>= f) m = .error e m' := by
  show EStateM.bind x f m = _
  simp only [EStateM.bind, h]

theorem bind_get {f : Machine → Exec β} (m : Machine) : (get >>= f) m = f m m := rfl

theorem lift_ok {r : Except Fault α} {a : α} (h : r = .ok a) (m : Machine) :
    lift r m = .ok a m := by
  rw [h]
  rfl

theorem lift_error {r : Except Fault α} {e : Fault} (h : r = .error e) (m : Machine) :
    lift r m = .error e m := by
  rw [h]
  rfl

/-! ### The stack -/

theorem pushWord_holding (m : Machine) (S : Array Word) (H : Heap) (w : Word) :
    pushWord w (m.holding S H) = .ok () (m.holding (S.push w) H) := rfl

theorem pushWords_holding (m : Machine) (S t : Array Word) (H : Heap) :
    pushWords t (m.holding S H) = .ok () (m.holding (S ++ t) H) := rfl

theorem popWord_holding (m : Machine) (S : Array Word) (H : Heap) (w : Word) :
    popWord (m.holding (S.push w) H) = .ok w (m.holding S H) :=
  popWord_push { m with heap := H } m.ip S w

theorem pushRun_holding (hw : S[k]? = some w) :
    pushRun k 1 (m.holding S H) = .ok () (m.holding (S.push w) H) :=
  pushRun_at { m with heap := H } m.ip hw

theorem popInto_holding (hk : k < S.size) :
    popInto k 1 (m.holding (S.push w) H) = .ok () (m.holding (S.setIfInBounds k w) H) :=
  popInto_at { m with heap := H } m.ip hk

theorem top_holding (m : Machine) (S t : Array Word) (H : Heap) :
    top t.size (m.holding (S ++ t) H) = .ok S.size (m.holding (S ++ t) H) :=
  top_at { m with heap := H } m.ip S t

theorem below_succ (n : Nat) (m : Machine) : below (n + 1) 1 m = .ok n m := by
  rw [below, if_pos (Nat.le_add_left 1 n)]
  rfl

theorem stackRun_holding (m : Machine) (S t : Array Word) (H : Heap) :
    stackRun S.size t.size (m.holding (S ++ t) H) = .ok t (m.holding (S ++ t) H) := by
  have hrun : Words.run (S ++ t) S.size t.size = t := by
    rw [Words.run, Array.extract_append_right, Array.extract_size]
  show EStateM.Result.ok (Words.run (S ++ t) S.size t.size) _ = _
  rw [hrun]

/-- The words above an address on the stack. -/
theorem top_above (m : Machine) (S t : Array Word) (H : Heap) (a : Word) :
    top t.size (m.holding (S ++ (#[a] ++ t)) H) =
      .ok (S.size + 1) (m.holding (S ++ (#[a] ++ t)) H) := by
  have htop := top_holding m (S ++ #[a]) t H
  rwa [Array.append_assoc, Array.size_append] at htop

theorem stackRun_above (m : Machine) (S t : Array Word) (H : Heap) (a : Word) :
    stackRun (S.size + 1) t.size (m.holding (S ++ (#[a] ++ t)) H) =
      .ok t (m.holding (S ++ (#[a] ++ t)) H) := by
  have hrun := stackRun_holding m (S ++ #[a]) t H
  rwa [Array.append_assoc, Array.size_append] at hrun

/-- An address on the stack, below some words. -/
theorem getElem?_below (S t : Array Word) (a : Word) : (S ++ (#[a] ++ t))[S.size]? = some a := by
  rw [Array.getElem?_append_right (Nat.le_refl _), Nat.sub_self]
  exact Array.getElem?_append_left Nat.one_pos

theorem push_append (S t : Array Word) (a : Word) : S.push a ++ t = S ++ (#[a] ++ t) := by
  rw [← Array.append_assoc, Array.append_singleton]

theorem truncate_holding (m : Machine) (S t : Array Word) (H : Heap) :
    truncate S.size (m.holding (S ++ t) H) = .ok () (m.holding S H) := by
  show EStateM.Result.ok () (m.holding ((S ++ t).shrink S.size) H) = _
  rw [Words.shrink_append]

/-! ### Words at addresses -/

theorem load_ofStack (hw : S[k]? = some w) (hk : k < Address.heapRoom) :
    load (UInt32.ofNat k) (m.holding S H) = .ok w (m.holding S H) := by
  simp only [load, Address.isHeap_ofStack hk, Address.toNat_ofStack hk, Machine.holding_stack, hw]
  rfl

theorem store_ofStack (hlt : k < S.size) (hk : k < Address.heapRoom) (w : Word) :
    store (UInt32.ofNat k) w (m.holding S H) = .ok () (m.holding (S.setIfInBounds k w) H) := by
  simp only [store, Address.isHeap_ofStack hk, Address.toNat_ofStack hk, Machine.holding_stack,
    if_pos hlt]
  rfl

theorem heapRead_holding (hw : H.words[i]? = some w) :
    heapRead i (m.holding S H) = .ok w (m.holding S H) := by
  simp only [heapRead, Heap.read, Machine.holding_heap, hw]

theorem heapStore_holding {ws : List Word} (h : i + ws.length ≤ H.size) :
    heapStore i ws (m.holding S H) = .ok () (m.holding S (H.put i ws)) := by
  have hin : H.inBounds i ws.length = true := by
    rw [Heap.inBounds, decide_eq_true_eq]
    exact h
  simp only [heapStore, Machine.holding_heap, hin, if_true]
  rfl

theorem heapWrite_holding (h : i < H.size) (w : Word) :
    heapWrite i w (m.holding S H) = .ok () (m.holding S (H.put i [w])) :=
  heapStore_holding h

theorem heapSlice_holding (h : i + n ≤ H.size) :
    heapSlice i n (m.holding S H) = .ok (Words.run H.words i n) (m.holding S H) := by
  have hin : H.inBounds i n = true := by
    rw [Heap.inBounds, decide_eq_true_eq]
    exact h
  simp only [heapSlice, Heap.slice, Machine.holding_heap, hin, if_true]

theorem load_ofHeap (hw : H.words[i]? = some w) (hi : i < Address.heapRoom) :
    load (Address.ofHeap i) (m.holding S H) = .ok w (m.holding S H) := by
  simp only [load, Address.isHeap_ofHeap hi, Address.toNat_ofHeap_sub hi, if_true]
  exact heapRead_holding hw

theorem store_ofHeap (hlt : i < H.size) (hi : i < Address.heapRoom) (w : Word) :
    store (Address.ofHeap i) w (m.holding S H) = .ok () (m.holding S (H.put i [w])) := by
  simp only [store, Address.isHeap_ofHeap hi, Address.toNat_ofHeap_sub hi, if_true]
  exact heapWrite_holding hlt w

/-! ### Blocks -/

theorem allocate_holding (h : H.allocate n = .ok (i, H')) :
    allocate n (m.holding S H) = .ok i (m.holding S H') := by
  rw [Heap.allocate] at h
  split at h
  · cases h
  · next p hp =>
    cases h
    simp only [allocate, Machine.holding_heap, hp]
    rfl

theorem allocate_holding_error {e : HeapError} (h : H.allocate n = .error e) :
    allocate n (m.holding S H) = .error (.heap e) (m.holding S H) := by
  rw [Heap.allocate] at h
  split at h
  · next e' hp =>
    cases h
    simp only [allocate, Machine.holding_heap, hp]
  · cases h

theorem deallocate_holding (h : H.deallocate i n = .ok H') :
    deallocate i n (m.holding S H) = .ok () (m.holding S H') := by
  simp only [deallocate, Machine.holding_heap, h]
  rfl

/-! ### Runs of words at addresses -/

/-- Reading a run of the heap puts its words on the stack. -/
theorem loadRun_ofHeap (hsize : i + k + n ≤ H.size) (hroom : H.size ≤ Address.heapRoom) :
    loadRun (Address.ofHeap i) k n (m.holding S H) =
      .ok () (m.holding (S ++ Words.run H.words (i + k) n) H) := by
  induction n generalizing S k with
  | zero =>
    rw [Words.run_zero, Array.append_empty]
    rfl
  | succ n ih =>
    have hk : (UInt32.ofNat k).toNat = k := Address.toNat_ofStack (by omega)
    have hlt : i + k < H.words.size := by
      show i + k < H.size
      omega
    have hoffset : Address.offset (Address.ofHeap i) (UInt32.ofNat k) =
        .ok (Address.ofHeap (i + k)) := by
      rw [Address.offset_ofHeap (by omega), hk]
    have hword : H.words[i + k]? = some H.words[i + k] := Array.getElem?_eq_getElem hlt
    rw [loadRun, bind_of_ok (lift_ok hoffset _), bind_of_ok (load_ofHeap hword (by omega)),
      bind_of_ok (pushWord_holding ..), ih (by omega), Words.run_succ hword, ← Array.append_assoc]
    rfl

/-- Writing a run of the heap takes its words off the stack. -/
theorem storeRun_ofHeap {t : Array Word} (hn : k + n = t.size) (hsize : i + k + n ≤ H.size)
    (hroom : H.size ≤ Address.heapRoom) :
    storeRun (Address.ofHeap i) S.size k n (m.holding (S ++ t) H) =
      .ok () (m.holding (S ++ t) (H.put (i + k) (t.toList.drop k))) := by
  -- `k` words have been written and `n` are left; the heap changes under way, its size does not
  induction n generalizing H k with
  | zero =>
    have hdrop : t.toList.drop k = [] := List.drop_eq_nil_of_le (by simp; omega)
    rw [hdrop]
    rfl
  | succ n ih =>
    have hk : (UInt32.ofNat k).toNat = k := Address.toNat_ofStack (by omega)
    have hoffset : Address.offset (Address.ofHeap i) (UInt32.ofNat k) =
        .ok (Address.ofHeap (i + k)) := by
      rw [Address.offset_ofHeap (by omega), hk]
    have hlt : k < t.toList.length := by
      rw [Array.length_toList]
      omega
    have hword : ((S ++ t)[S.size + k]?).getD 0 = t.toList[k] := by
      rw [Array.getElem?_append_right (Nat.le_add_right ..), Nat.add_sub_cancel_left,
        ← Array.getElem?_toList, List.getElem?_eq_getElem hlt]
      rfl
    have hput : (H.put (i + k) [t.toList[k]]).put (i + (k + 1)) (t.toList.drop (k + 1)) =
        H.put (i + k) (t.toList.drop k) := by
      rw [List.drop_eq_getElem_cons hlt]
      rfl
    rw [storeRun]
    show ((lift (Address.offset (Address.ofHeap i) (UInt32.ofNat k))) >>= fun address =>
      store address (((S ++ t)[S.size + k]?).getD 0) >>= fun _ =>
        storeRun (Address.ofHeap i) S.size (k + 1) n) _ = _
    rw [bind_of_ok (lift_ok hoffset _), bind_of_ok (store_ofHeap (by omega) (by omega) _), hword,
      ih (by omega) (by rw [Heap.size_put]; omega) (by rwa [Heap.size_put]), hput]

end Exec

end WordScript
