/-
What the list effects do to a stocked heap.

Making, growing and extending a list each end in one of two ways: the heap holds the
new sequences, or the arena has no room for the block that is asked for and nothing
has changed.  Nothing else can happen in an arena of at most `2 ^ 31` words: sizes
and positions do not wrap, every access lies in a live block, and every block that
is given back is live.

* `Exec.newList_stocked` — an empty list, or a refusal;
* `Exec.growList_stocked` — a list moves and stays the same sequence, or a refusal;
* `Exec.appendElement_stocked` — the end of a push;
* `Exec.pushList_eq` — a push, in terms of these.
-/
import WordScript.Proofs.ListBlocks

namespace WordScript

variable {limit capacity : Nat} {slots : List ListSlot} {σ : Sequences} {live : List HeapBlock}
  {block : ListSlot → Option HeapBlock} {m : Machine} {S : Array Word} {H : Heap} {s : ListSlot}
  {b : HeapBlock}

/-- The size of a block whose elements fit. -/
theorem ListBlock.words_ofNat (s : ListSlot) (h : capacity * s.words + 2 < 4294967296) :
    ∃ n, ListBlock.words (UInt32.ofNat capacity) s.operand = .ok n ∧
      n.toNat = capacity * s.words + 2 := by
  have hle := s.le_mul_words capacity
  have hcapacity : (UInt32.ofNat capacity).toNat = capacity :=
    Word.toNat_ofNat (by omega)
  refine ⟨UInt32.ofNat capacity * s.operand + ListBlock.headerWords, ?_, ?_⟩
  · rw [ListBlock.words, hcapacity, s.toNat_operand, if_pos h]
  · rw [UInt32.toNat_add, UInt32.toNat_mul, hcapacity, s.toNat_operand]
    show (capacity * s.words % 4294967296 + 2) % 4294967296 = _
    omega

/-- A number that a word can hold is computed without an overflow. -/
theorem ListBlock.computed_of_lt {n : Nat} (h : n < 4294967296) :
    ListBlock.computed n = .ok (UInt32.ofNat n) :=
  if_pos h

namespace Exec

/-- A block for a list is handed out apart from all lists, with zeros in it, or the arena has no
room for it. -/
theorem allocate_stocked (h : Stocked limit slots σ live block H) (s : ListSlot)
    (hfits : capacity * s.words + 2 < 4294967296) (m : Machine) (S : Array Word) :
    ∃ n, ListBlock.words (UInt32.ofNat capacity) s.operand = .ok n ∧
      ((∃ index H', allocate n.toNat (m.holding S H) = .ok index (m.holding S H') ∧
          Stocked limit slots σ (⟨index, capacity * s.words + 2⟩ :: live) block H' ∧
          (∀ t ∈ slots, ∀ c, block t = some c →
            (HeapBlock.mk index (capacity * s.words + 2)).Apart c) ∧
          H'.words[index]? = some 0) ∨
        (allocate n.toNat (m.holding S H) =
            .error (.heap (.exhausted (capacity * s.words + 2) limit)) (m.holding S H) ∧
          limit < H.size + (capacity * s.words + 2))) := by
  obtain ⟨n, hn, hnat⟩ := ListBlock.words_ofNat s hfits
  have hblock : Heap.blockLength (capacity * s.words + 2) = capacity * s.words + 2 := by
    rw [Heap.blockLength]
    omega
  refine ⟨n, hn, ?_⟩
  -- the block has room for the header and the capacity
  rw [hnat]
  cases hok : H.allocate (capacity * s.words + 2) with
  | error e =>
    obtain ⟨rfl, hroom⟩ := Heap.allocate_eq_error hok
    rw [h.maxWords_eq, hblock] at hroom
    refine .inr ⟨?_, hroom⟩
    rw [allocate_holding_error hok, h.maxWords_eq, hblock]
  | ok r =>
    obtain ⟨index, H'⟩ := r
    have hzero := Heap.getElem?_of_allocate (j := 0) hok (h.partition.allocate_separate hok).1
      (Heap.blockLength_pos _)
    exact .inl ⟨index, H', allocate_holding hok, h.allocate hok,
      fun t ht c hc => h.apart_of_allocate hok ht hc, hzero⟩

/-- The block of a list that no slot owns any more is given back. -/
theorem deallocate_stocked (h : Stocked limit slots σ live block H) (hb : b ∈ live)
    (hrequested : b.requested = capacity * s.words + 2) (hfree : ∀ t ∈ slots, block t ≠ some b)
    (m : Machine) (S : Array Word) :
    ∃ n H', ListBlock.words (UInt32.ofNat capacity) s.operand = .ok n ∧
      deallocate b.index n.toNat (m.holding S H) = .ok () (m.holding S H') ∧
      Stocked limit slots σ (live.erase b) block H' ∧ H'.words = H.words := by
  obtain ⟨hle, hroom⟩ := h.live_le hb
  rw [Address.heapRoom] at hroom
  obtain ⟨n, hn, hnat⟩ := ListBlock.words_ofNat s (by omega : capacity * s.words + 2 < _)
  have hback := h.partition.deallocate_eq_ok hb
  rw [hrequested, ← hnat] at hback
  exact ⟨n, _, hn, deallocate_holding hback, h.deallocate hb hfree, rfl⟩

/-- An empty list is made for a slot, or the arena has no room for it and nothing changes. -/
theorem newList_stocked (h : Stocked limit slots σ live block H) (s : ListSlot)
    (hfits : capacity * s.words + 2 < 4294967296) (m : Machine) (S : Array Word) :
    (∃ live' b H', newList s.operand (UInt32.ofNat capacity) (m.holding S H) =
        .ok (Address.ofHeap b.index) (m.holding S H') ∧
      Stocked limit slots (Function.update σ s []) live' (Function.update block s (some b)) H' ∧
      ListAt H'.words b capacity ([] : List (Vector Word s.words))) ∨
    (newList s.operand (UInt32.ofNat capacity) (m.holding S H) =
        .error (.heap (.exhausted (capacity * s.words + 2) limit)) (m.holding S H) ∧
      limit < H.size + (capacity * s.words + 2)) := by
  obtain ⟨n, hn, ⟨index, H₁, hok, h₁, hapart, hzero⟩ | ⟨herror, hroom⟩⟩ :=
    allocate_stocked h s hfits m S
  · obtain ⟨hle, -⟩ := h₁.live_le List.mem_cons_self
    have hin : index + 1 < H₁.size := by
      simp only at hle
      omega
    -- zeros are an empty list but for the capacity
    have hlist : ListAt (Words.write H₁.words (index + 1) [UInt32.ofNat capacity])
        ⟨index, capacity * s.words + 2⟩ capacity ([] : List (Vector Word s.words)) :=
      ListAt.of_zeros hzero hin
    refine .inl ⟨⟨index, capacity * s.words + 2⟩ :: live, ⟨index, capacity * s.words + 2⟩,
      H₁.put (index + 1) [UInt32.ofNat capacity], ?_, ?_, hlist⟩
    · rw [newList, bind_of_ok (lift_ok hn _), bind_of_ok hok]
      exact bind_of_ok (heapWrite_holding hin _)
    · refine h₁.fill List.mem_cons_self (fun t ht _ c hc => hapart t ht c hc) ?_ hlist
      exact HeapBlock.confines_write _ (Nat.le_succ _) (by simp only [List.length_singleton]; omega)
  · refine .inr ⟨?_, hroom⟩
    rw [newList, bind_of_ok (lift_ok hn _), bind_of_error herror]

/-- The capacity of a list after it has moved. -/
theorem max_double (h : capacity * 2 < 4294967296) :
    max (UInt32.ofNat capacity * 2) ListBlock.initialCapacity =
      UInt32.ofNat (max (2 * capacity) 4) := by
  have hcapacity : (UInt32.ofNat capacity).toNat = capacity :=
    Word.toNat_ofNat (by omega)
  have hdouble : (UInt32.ofNat capacity * 2).toNat = 2 * capacity := by
    rw [UInt32.toNat_mul, hcapacity]
    show capacity * 2 % 4294967296 = _
    omega
  have hmax : (UInt32.ofNat (max (2 * capacity) 4)).toNat = max (2 * capacity) 4 :=
    Word.toNat_ofNat (by omega)
  apply UInt32.toNat_inj.mp
  show (if UInt32.ofNat capacity * 2 ≤ 4 then 4 else UInt32.ofNat capacity * 2).toNat = _
  have hle : UInt32.ofNat capacity * 2 ≤ 4 ↔ 2 * capacity ≤ 4 := by
    rw [UInt32.le_iff_toNat_le, hdouble]
    rfl
  by_cases hsmall : 2 * capacity ≤ 4
  · rw [if_pos (hle.mpr hsmall), hmax, Nat.max_eq_right hsmall]
    rfl
  · rw [if_neg (mt hle.mp hsmall), hmax, hdouble, Nat.max_eq_left (by omega)]

/-- The second half of growing: the used words are copied and the old block is given back. -/
def moveList (index grown : Nat) (length capacity grownCapacity elementWords : Word) :
    Exec Nat := do
  let used ← lift (ListBlock.wordsBefore length elementWords)
  let block ← heapSlice index used.toNat
  heapStore grown block.toList
  heapWrite (grown + 1) grownCapacity
  deallocate index (← lift (ListBlock.words capacity elementWords)).toNat
  return grown

/-- Growing a list whose capacity can be doubled. -/
theorem growList_eq {index n : Nat} {length elementWords : Word} (h : capacity * 2 < 4294967296)
    (hn : n = max (2 * capacity) 4) :
    growList index length (UInt32.ofNat capacity) elementWords = (do
      let words ← lift (ListBlock.words (UInt32.ofNat n) elementWords)
      let grown ← allocate words.toNat
      moveList index grown length (UInt32.ofNat capacity) (UInt32.ofNat n) elementWords) := by
  have hcapacity : (UInt32.ofNat capacity).toNat = capacity :=
    Word.toNat_ofNat (by omega)
  have hover : ¬4294967296 ≤ (UInt32.ofNat capacity).toNat * 2 := by
    rw [hcapacity]
    omega
  rewrite [growList, if_neg hover, max_double h, hn]
  rfl

/-- A list moves to a larger block that no slot owns and stays the same sequence. -/
theorem moveList_stocked (h : Stocked limit slots σ live block H) (hs : s ∈ slots)
    (hb : block s = some b) (hlist : ListAt H.words b capacity (σ s)) {index n : Nat}
    (hn : capacity ≤ n) (hnew : ⟨index, n * s.words + 2⟩ ∈ live)
    (hapart : ∀ t ∈ slots, ∀ c, block t = some c → (HeapBlock.mk index (n * s.words + 2)).Apart c)
    (m : Machine) (S : Array Word) :
    ∃ H', moveList b.index index (UInt32.ofNat (σ s).length) (UInt32.ofNat capacity)
        (UInt32.ofNat n) s.operand (m.holding S H) = .ok index (m.holding S H') ∧
      Stocked limit slots σ (live.erase b)
        (Function.update block s (some ⟨index, n * s.words + 2⟩)) H' ∧
      ListAt H'.words ⟨index, n * s.words + 2⟩ n (σ s) := by
  have hlive := h.owned s hs b hb
  obtain ⟨hold, hroom⟩ := h.live_le hlive
  obtain ⟨hgrown, -⟩ := h.live_le hnew
  have hlist' := hlist.moved hn hold hgrown
  rw [hlist.requested] at hold
  rw [Address.heapRoom] at hroom
  have hused : (σ s).length * s.words ≤ capacity * s.words :=
    Nat.mul_le_mul_right s.words hlist.length_le
  have hmore : capacity * s.words ≤ n * s.words := Nat.mul_le_mul_right s.words hn
  have hlength : (Words.run H.words b.index (2 + (σ s).length * s.words)).toList.length =
      2 + (σ s).length * s.words := by
    rw [Array.length_toList]
    exact Words.size_run (Nat.le_trans (by omega) hold)
  -- the copy and the new capacity lie in the new block, which then holds the sequence
  have hconfines : (HeapBlock.mk index (n * s.words + 2)).Confines H.words
      (Words.write (Words.write H.words index
        (Words.run H.words b.index (2 + (σ s).length * s.words)).toList) (index + 1)
        [UInt32.ofNat n]) :=
    (HeapBlock.confines_write _ (Nat.le_refl _) (by simp only; omega)).trans
      (HeapBlock.confines_write _ (Nat.le_succ _) (by simp only [List.length_singleton]; omega))
  have h' : Stocked limit slots σ live (Function.update block s (some ⟨index, n * s.words + 2⟩))
      ((H.put index (Words.run H.words b.index (2 + (σ s).length * s.words)).toList).put (index + 1)
        [UInt32.ofNat n]) := by
    have hfill := h.fill hnew (fun t ht _ c hc => hapart t ht c hc) hconfines hlist'
    rwa [Function.update_eq_self] at hfill
  have hfree := h.update_ne hs hb fun heq => (hapart s hs b hb).ne (Option.some.inj heq)
  obtain ⟨words, H', hwords, hback, h'', hkept⟩ :=
    deallocate_stocked h' hlive hlist.requested hfree m S
  refine ⟨H', ?_, h'', hkept ▸ hlist'⟩
  have hcount := s.le_mul_words (σ s).length
  have hcomputed : ListBlock.wordsBefore (UInt32.ofNat (σ s).length) s.operand =
      .ok (UInt32.ofNat (2 + (σ s).length * s.words)) := by
    rw [ListBlock.wordsBefore, Word.toNat_ofNat (by omega), s.toNat_operand,
      ListBlock.computed_of_lt (by omega)]
  rw [moveList, bind_of_ok (lift_ok hcomputed _), Word.toNat_ofNat (by omega),
    bind_of_ok (heapSlice_holding (Nat.le_trans (by omega) hold)),
    bind_of_ok (heapStore_holding (by rw [hlength]; simp only at hgrown; omega)),
    bind_of_ok (heapWrite_holding (by rw [Heap.size_put]; simp only at hgrown; omega) _),
    bind_of_ok (lift_ok hwords _), bind_of_ok hback]
  rfl

/-- A list moves to a larger block and stays the same sequence, or the arena has no room for the
larger block and nothing changes. -/
theorem growList_stocked (h : Stocked limit slots σ live block H) (hs : s ∈ slots)
    (hb : block s = some b) (hlist : ListAt H.words b capacity (σ s)) (m : Machine)
    (S : Array Word) :
    (∃ live' b' H', growList b.index (UInt32.ofNat (σ s).length) (UInt32.ofNat capacity) s.operand
        (m.holding S H) = .ok b'.index (m.holding S H') ∧
      Stocked limit slots σ live' (Function.update block s (some b')) H' ∧
      ListAt H'.words b' (max (2 * capacity) 4) (σ s)) ∨
    (growList b.index (UInt32.ofNat (σ s).length) (UInt32.ofNat capacity) s.operand
        (m.holding S H) =
          .error (.heap (.exhausted (max (2 * capacity) 4 * s.words + 2) limit)) (m.holding S H) ∧
      limit < H.size + (max (2 * capacity) 4 * s.words + 2)) := by
  obtain ⟨hle, hroom⟩ := h.live_le (h.owned s hs b hb)
  rw [hlist.requested] at hle
  rw [Address.heapRoom] at hroom
  have hcapacity := s.le_mul_words capacity
  obtain ⟨n, hn⟩ : ∃ n, n = max (2 * capacity) 4 := ⟨_, rfl⟩
  -- twice a block of the arena is still less than all that words can count
  have hfits : n * s.words + 2 < 4294967296 := by
    have hwidth := s.words_lt
    rcases Nat.le_total (2 * capacity) 4 with hsmall | hlarge
    · rw [hn, Nat.max_eq_right hsmall]
      omega
    · rw [hn, Nat.max_eq_left hlarge, Nat.mul_assoc]
      omega
  obtain ⟨words, hwords, hcases⟩ := allocate_stocked h s hfits m S
  rw [growList_eq (by omega) hn, bind_of_ok (lift_ok hwords _), ← hn]
  rcases hcases with ⟨index, H₁, hok, h₁, hapart, -⟩ | ⟨herror, hfull⟩
  · -- the request has not touched the list, whose capacity can be read off its block
    obtain ⟨c, hlist₁⟩ := h₁.list s hs b hb
    obtain rfl := hlist.capacity_unique s.words_pos hlist₁
    obtain ⟨H', hmoved, h', hlist'⟩ := moveList_stocked h₁ hs hb hlist₁ (by omega)
      List.mem_cons_self hapart m S
    exact .inl ⟨_, ⟨index, n * s.words + 2⟩, H', (bind_of_ok hok).trans hmoved, h', hlist'⟩
  · exact .inr ⟨bind_of_error herror, hfull⟩

/-- The end of a push: the element is written, the length raised, slot and element dropped. -/
def appendElement (elementWords : Word) (at_ slotAt place : Nat) (length : Word) : Exec Unit := do
  let element ← lift (ListBlock.computed (place + 2 + length.toNat * elementWords.toNat))
  let value ← stackRun at_ elementWords.toNat
  heapStore element.toNat value.toList
  heapWrite place (← lift (ListBlock.computed (length.toNat + 1)))
  truncate slotAt

/-- A push onto a list that has a block: if the list is full it moves first. -/
def pushOnto (elementWords : Word) (at_ slotAt : Nat) (slot list : Word) : Exec Unit := do
  let index ← lift (Address.heapIndex list)
  let length ← heapRead index
  let capacity ← heapRead (index + 1)
  if capacity ≤ length then
    let place ← growList index length capacity elementWords
    store slot (Address.ofHeap place)
    appendElement elementWords at_ slotAt place length
  else appendElement elementWords at_ slotAt index length

/-- A push makes the list if there is none, and pushes onto it. -/
theorem pushList_eq (elementWords : Word) :
    pushList elementWords = (do
      let at_ ← top elementWords.toNat
      let slotAt ← below at_ 1
      let slot := ((← get).stack[slotAt]?).getD 0
      let list ← load slot
      if list = 0 then
        let list ← newList elementWords ListBlock.initialCapacity
        store slot list
        pushOnto elementWords at_ slotAt slot list
      else pushOnto elementWords at_ slotAt slot list) :=
  rfl

/-- An element is appended to a list that has room for it. -/
theorem appendElement_stocked (h : Stocked limit slots σ live block H) (hs : s ∈ slots)
    (hb : block s = some b) (hlist : ListAt H.words b capacity (σ s))
    (hroom : (σ s).length < capacity) (v : Vector Word s.words) (a : Word) (m : Machine)
    (S : Array Word) :
    ∃ H', appendElement s.operand (S.size + 1) S.size b.index (UInt32.ofNat (σ s).length)
        (m.holding (S ++ (#[a] ++ v.toArray)) H) = .ok () (m.holding S H') ∧
      Stocked limit slots (Function.update σ s (σ s ++ [v])) live block H' := by
  have hlive := h.owned s hs b hb
  obtain ⟨hle, hsize⟩ := h.live_le hlive
  have hlist' := hlist.append hroom hle v
  have hend := ListAt.element_le (w := s.words) hroom
  have hv : v.toList.length = s.words := v.length_toList
  rw [hlist.requested] at hle
  rw [Address.heapRoom] at hsize
  have hvalue := stackRun_above m S v.toArray H a
  rw [Vector.size_toArray] at hvalue
  have hcount := s.le_mul_words (σ s).length
  have hlength : (UInt32.ofNat (σ s).length).toNat = (σ s).length := Word.toNat_ofNat (by omega)
  have helement := ListBlock.computed_of_lt (n := b.index + 2 + (σ s).length * s.words) (by omega)
  have hlonger := ListBlock.computed_of_lt (n := (σ s).length + 1) (by omega)
  -- the element is written before the length
  refine ⟨(H.put (b.index + 2 + (σ s).length * s.words) v.toList).put b.index
    [UInt32.ofNat ((σ s).length + 1)], ?_, ?_⟩
  · rw [appendElement, s.toNat_operand, hlength, bind_of_ok (lift_ok helement _), bind_of_ok hvalue,
      Word.toNat_ofNat (by omega),
      bind_of_ok (heapStore_holding (by show _ + v.toList.length ≤ _; omega)),
      bind_of_ok (lift_ok hlonger _),
      bind_of_ok (heapWrite_holding (by rw [Heap.size_put]; omega) _)]
    exact truncate_holding ..
  -- both writes stay inside the block of the list, which no other list shares
  · have hfill := h.fill hlive (fun t ht hts c hc => h.apart s hs t ht hts.symm b c hb hc)
      ((HeapBlock.confines_write _ (by omega) (by rw [hlist.requested]; omega)).trans
        (HeapBlock.confines_write _ (Nat.le_refl _) (by
          rw [hlist.requested, List.length_singleton]
          omega))) hlist'
    rwa [← hb, Function.update_eq_self] at hfill

end Exec

/-! ### Slots -/

/-- The address of a slot. -/
def ListSlot.address (s : ListSlot) : Word :=
  UInt32.ofNat s.place

/-- The word that stands for a list: the address of its block, or zero. -/
def listWord : Option HeapBlock → Word
  | none => 0
  | some b => Address.ofHeap b.index

/-- The slots hold the words of their lists. -/
def Filled (slots : List ListSlot) (block : ListSlot → Option HeapBlock) (S : Array Word) : Prop :=
  ∀ s ∈ slots, S[s.place]? = some (listWord (block s))

/-- The stack has changed at most at the slot. -/
def ListSlot.Confines (s : ListSlot) (S S' : Array Word) : Prop :=
  S'.size = S.size ∧ ∀ k, k ≠ s.place → S'[k]? = S[k]?

/-- No two slots are at one place. -/
def Distinct (slots : List ListSlot) : Prop :=
  ∀ s ∈ slots, ∀ t ∈ slots, s.place = t.place → s = t

instance (slots : List ListSlot) : Decidable (Distinct slots) :=
  inferInstanceAs (Decidable (∀ s ∈ slots, ∀ t ∈ slots, s.place = t.place → s = t))

theorem ListSlot.Confines.refl (s : ListSlot) (S : Array Word) : s.Confines S S :=
  ⟨rfl, fun _ _ => rfl⟩

theorem ListSlot.Confines.trans {S S' S'' : Array Word} (h : s.Confines S S')
    (h' : s.Confines S' S'') : s.Confines S S'' :=
  ⟨h'.1.trans h.1, fun k hk => (h'.2 k hk).trans (h.2 k hk)⟩

theorem ListSlot.confines_set (s : ListSlot) (S : Array Word) (w : Word) :
    s.Confines S (S.setIfInBounds s.place w) :=
  ⟨Array.size_setIfInBounds, fun _ hk => Array.getElem?_setIfInBounds_ne hk.symm⟩

namespace Filled

theorem lt_size (h : Filled slots block S) (hs : s ∈ slots) : s.place < S.size :=
  (Array.getElem?_eq_some_iff.mp (h s hs)).1

/-- A slot gets another list. -/
theorem set (h : Filled slots block S) (hdistinct : Distinct slots) (hs : s ∈ slots)
    (list : Option HeapBlock) :
    Filled slots (Function.update block s list) (S.setIfInBounds s.place (listWord list)) := by
  intro t ht
  by_cases hts : t = s
  · subst hts
    rw [Function.update_self, Array.getElem?_setIfInBounds_self_of_lt (h.lt_size hs)]
  · rw [Function.update_of_ne hts,
      Array.getElem?_setIfInBounds_ne fun hplace => hts (hdistinct t ht s hs hplace.symm)]
    exact h t ht

end Filled

namespace Exec

/-- Words that lie above a slot do not hinder a change of the slot. -/
theorem store_address (h : s.place < S.size) (t : Array Word) (w : Word) :
    store s.address w (m.holding (S ++ t) H) =
      .ok () (m.holding (S.setIfInBounds s.place w ++ t) H) := by
  rw [ListSlot.address, store_ofStack (by rw [Array.size_append]; omega) s.place_lt,
    Array.setIfInBounds_append_left h]

/-- A push onto a list with a block appends the element, or the list is full and the arena has no
room for a larger block. -/
theorem pushOnto_stocked (hdistinct : Distinct slots) (h : Stocked limit slots σ live block H)
    (hS : Filled slots block S) (hs : s ∈ slots) (hb : block s = some b)
    (hlist : ListAt H.words b capacity (σ s)) (v : Vector Word s.words) (m : Machine) :
    (∃ live' block' S' H', pushOnto s.operand (S.size + 1) S.size s.address (Address.ofHeap b.index)
        (m.holding (S ++ (#[s.address] ++ v.toArray)) H) = .ok () (m.holding S' H') ∧
      Stocked limit slots (Function.update σ s (σ s ++ [v])) live' block' H' ∧
      Filled slots block' S' ∧ s.Confines S S') ∨
    (pushOnto s.operand (S.size + 1) S.size s.address (Address.ofHeap b.index)
        (m.holding (S ++ (#[s.address] ++ v.toArray)) H) =
          .error (.heap (.exhausted (max (2 * (σ s).length) 4 * s.words + 2) limit))
            (m.holding (S ++ (#[s.address] ++ v.toArray)) H) ∧
      capacity = (σ s).length ∧ limit < H.size + (max (2 * (σ s).length) 4 * s.words + 2)) := by
  have hplace := hS.lt_size hs
  obtain ⟨hle, hroom⟩ := h.live_le (h.owned s hs b hb)
  rw [hlist.requested] at hle
  have hcapacity := s.le_mul_words capacity
  have hfull : UInt32.ofNat capacity ≤ UInt32.ofNat (σ s).length ↔ capacity ≤ (σ s).length := by
    have hlength := hlist.length_le
    rw [Address.heapRoom] at hroom
    rw [UInt32.le_iff_toNat_le, Word.toNat_ofNat (by omega), Word.toNat_ofNat (by omega)]
  rw [pushOnto, bind_of_ok (lift_ok (Address.heapIndex_ofHeap (by omega)) _),
    bind_of_ok (heapRead_holding hlist.length), bind_of_ok (heapRead_holding hlist.capacity)]
  -- a list has at most as many elements as its capacity: it is full, or it has room for one more
  by_cases hmove : capacity ≤ (σ s).length
  · obtain rfl : capacity = (σ s).length := Nat.le_antisymm hmove hlist.length_le
    rw [if_pos (hfull.mpr hmove)]
    rcases growList_stocked h hs hb hlist m (S ++ (#[s.address] ++ v.toArray)) with
      ⟨live', b', H', hgrown, h', hlist'⟩ | ⟨herror, hno⟩
    · obtain ⟨H'', happend, h''⟩ := appendElement_stocked h' hs (Function.update_self ..) hlist'
        (by omega) v s.address m (S.setIfInBounds s.place (Address.ofHeap b'.index))
      refine .inl ⟨_, _, _, H'', ?_, h'', hS.set hdistinct hs (some b'), s.confines_set ..⟩
      rw [bind_of_ok hgrown, bind_of_ok (store_address hplace ..)]
      rwa [Array.size_setIfInBounds] at happend
    · exact .inr ⟨bind_of_error herror, rfl, hno⟩
  · obtain ⟨H', happend, h'⟩ := appendElement_stocked h hs hb hlist (by omega) v s.address m S
    rw [if_neg (mt hfull.mp hmove)]
    exact .inl ⟨live, block, S, H', happend, h', hS, .refl s S⟩

/-- A push appends the element, or the arena has no room for the block that it needs and nothing
changes. -/
theorem pushList_stocked (hdistinct : Distinct slots) (h : Stocked limit slots σ live block H)
    (hS : Filled slots block S) (hs : s ∈ slots) (v : Vector Word s.words) (m : Machine) :
    (∃ live' block' S' H', pushList s.operand (m.holding (S ++ (#[s.address] ++ v.toArray)) H) =
        .ok () (m.holding S' H') ∧
      Stocked limit slots (Function.update σ s (σ s ++ [v])) live' block' H' ∧
      Filled slots block' S' ∧ s.Confines S S') ∨
    (pushList s.operand (m.holding (S ++ (#[s.address] ++ v.toArray)) H) =
        .error (.heap (.exhausted (max (2 * (σ s).length) 4 * s.words + 2) limit))
          (m.holding (S ++ (#[s.address] ++ v.toArray)) H) ∧
      limit < H.size + (max (2 * (σ s).length) 4 * s.words + 2)) := by
  have hplace := hS.lt_size hs
  have htop := top_above m S v.toArray H s.address
  rw [Vector.size_toArray] at htop
  have hload : load s.address (m.holding (S ++ (#[s.address] ++ v.toArray)) H) =
      .ok (listWord (block s)) (m.holding (S ++ (#[s.address] ++ v.toArray)) H) :=
    load_ofStack (by rw [Array.getElem?_append_left hplace]; exact hS s hs) s.place_lt
  rw [pushList_eq, s.toNat_operand, bind_of_ok htop, bind_of_ok (below_succ ..), bind_get,
    Machine.holding_stack, getElem?_below, Option.getD_some, bind_of_ok hload]
  cases hb : block s with
  | some b =>
    obtain ⟨capacity, hlist, hle, hroom⟩ := h.exists_listAt hs hb
    rw [listWord, if_neg (Address.ofHeap_ne_zero (by omega))]
    rcases pushOnto_stocked hdistinct h hS hs hb hlist v m with hpushed | ⟨herror, -, hno⟩
    · exact .inl hpushed
    · exact .inr ⟨herror, hno⟩
  | none =>
    have hempty : σ s = [] := h.empty s hs hb
    have hσ : Function.update σ s [] = σ := by
      have hself := Function.update_eq_self s σ
      rwa [hempty] at hself
    have hwidth := s.words_lt
    have hfits : 4 * s.words + 2 < 4294967296 := by omega
    rw [listWord, if_pos rfl, show ListBlock.initialCapacity = UInt32.ofNat 4 from rfl]
    rcases newList_stocked h s hfits m (S ++ (#[s.address] ++ v.toArray)) with
      ⟨live', b, H', hnew, h', hlist⟩ | ⟨herror, hno⟩
    · rw [hσ] at h'
      have hS' := hS.set hdistinct hs (some b)
      have hpush := pushOnto_stocked hdistinct h' hS' hs (Function.update_self ..)
        (hempty.symm ▸ hlist) v m
      rw [Array.size_setIfInBounds] at hpush
      rw [bind_of_ok hnew, bind_of_ok (store_address hplace ..)]
      rcases hpush with ⟨live'', block', S', H'', hpushed, h'', hS'', hout⟩ | ⟨-, hfull, -⟩
      · exact .inl ⟨live'', block', S', H'', hpushed, h'', hS'', (s.confines_set ..).trans hout⟩
      -- the new list has room, so it does not move
      · rw [hempty] at hfull
        cases hfull
    · rw [hempty]
      exact .inr ⟨bind_of_error herror, hno⟩

/-- The length of a list. -/
theorem lengthList_stocked (h : Stocked limit slots σ live block H) (hs : s ∈ slots) (m : Machine)
    (S : Array Word) :
    lengthList (listWord (block s)) (m.holding S H) =
      .ok (UInt32.ofNat (σ s).length) (m.holding S H) := by
  cases hb : block s with
  | none =>
    rw [h.empty s hs hb]
    rfl
  | some b =>
    obtain ⟨capacity, hlist, hle, hroom⟩ := h.exists_listAt hs hb
    rw [listWord, lengthList, if_neg (Address.ofHeap_ne_zero (by omega))]
    exact load_ofHeap hlist.length (by omega)

/-- The index of an element is not negative and less than the length. -/
theorem checkIndex_ofNat (index : Word) {n : Nat} (hn : n < 4294967296) :
    Address.checkIndex index (UInt32.ofNat n) =
      if 0 ≤ index.toInt ∧ index.toInt < n then .ok ()
      else .error (.indexOutOfBounds index.toInt n) := by
  have hiff : (index.toInt < 0 ∨ UInt32.ofNat n ≤ index) ↔
      ¬(0 ≤ index.toInt ∧ index.toInt < n) := by
    have hlt : index.toNat < 4294967296 := index.toNat_lt
    rw [UInt32.le_iff_toNat_le, Word.toNat_ofNat hn, Word.toInt]
    split <;> omega
  rw [Address.checkIndex, Word.toNat_ofNat hn]
  by_cases hinside : 0 ≤ index.toInt ∧ index.toInt < n
  · rw [if_neg (not_not_intro hinside ∘ hiff.mp), if_pos hinside]
  · rw [if_pos (hiff.mpr hinside), if_neg hinside]

/-- Indexing gives the address of the element, or faults if there is none. -/
theorem indexList_stocked (h : Stocked limit slots σ live block H) (hs : s ∈ slots) (index : Word)
    (m : Machine) (S : Array Word) :
    (∃ b k v, block s = some b ∧ index.toInt = (k : Nat) ∧ (σ s)[k]? = some v ∧
      indexList s.operand (m.holding ((S.push (listWord (block s))).push index) H) =
        .ok () (m.holding (S.push (Address.ofHeap (b.index + 2 + k * s.words))) H)) ∨
    (¬(0 ≤ index.toInt ∧ index.toInt < (σ s).length) ∧
      indexList s.operand (m.holding ((S.push (listWord (block s))).push index) H) =
        .error (.indexOutOfBounds index.toInt (σ s).length) (m.holding S H)) := by
  have hlength := h.length_lt hs
  rw [Address.heapRoom] at hlength
  rw [indexList, bind_of_ok (popWord_holding ..), bind_of_ok (popWord_holding ..),
    bind_of_ok (lengthList_stocked h hs m S)]
  have hcheck := checkIndex_ofNat index (n := (σ s).length) (by omega)
  by_cases hinside : 0 ≤ index.toInt ∧ index.toInt < (σ s).length
  · rw [if_pos hinside] at hcheck
    -- an index inside the list is the same number with and without a sign
    have hk : index.toInt = index.toNat := by
      have hlt : index.toNat < 4294967296 := index.toNat_lt
      have hnonneg := hinside.1
      rw [Word.toInt] at hnonneg ⊢
      split at hnonneg <;> omega
    have hlt : index.toNat < (σ s).length := by omega
    cases hb : block s with
    | none =>
      rw [h.empty s hs hb] at hlt
      cases hlt
    | some b =>
      obtain ⟨capacity, hlist, hle, hroom⟩ := h.exists_listAt hs hb
      have hend := ListAt.element_le (w := s.words) (Nat.lt_of_lt_of_le hlt hlist.length_le)
      have hwidth := s.words_pos
      have hbound : 2 + index.toNat * s.words < 4294967296 := by
        rw [Address.heapRoom] at hroom
        omega
      have hbefore : ListBlock.wordsBefore index s.operand =
          .ok (UInt32.ofNat (2 + index.toNat * s.words)) := by
        rw [ListBlock.wordsBefore, s.toNat_operand, ListBlock.computed_of_lt hbound]
      have hoffset : Address.offset (Address.ofHeap b.index)
          (UInt32.ofNat (2 + index.toNat * s.words)) =
            .ok (Address.ofHeap (b.index + 2 + index.toNat * s.words)) := by
        rw [Address.offset_ofHeap (by rw [Word.toNat_ofNat hbound]; omega),
          Word.toNat_ofNat hbound, Nat.add_assoc]
      refine .inl ⟨b, index.toNat, (σ s)[index.toNat], rfl, hk, List.getElem?_eq_getElem hlt, ?_⟩
      rw [bind_of_ok (lift_ok hcheck _), listWord, bind_of_ok (lift_ok hbefore _),
        bind_of_ok (lift_ok hoffset _)]
      rfl
  · rw [if_neg hinside] at hcheck
    exact .inr ⟨hinside, bind_of_error (lift_error hcheck _)⟩

/-- Freeing a list empties its slot; the block is given back. -/
theorem freeList_stocked (hdistinct : Distinct slots) (h : Stocked limit slots σ live block H)
    (hS : Filled slots block S) (hs : s ∈ slots) (m : Machine) :
    ∃ live' S' H', freeList s.operand (m.holding (S.push s.address) H) = .ok () (m.holding S' H') ∧
      Stocked limit slots (Function.update σ s []) live' (Function.update block s none) H' ∧
      Filled slots (Function.update block s none) S' ∧ s.Confines S S' := by
  have hload : load s.address (m.holding S H) = .ok (listWord (block s)) (m.holding S H) :=
    load_ofStack (hS s hs) s.place_lt
  rw [freeList, bind_of_ok (popWord_holding ..), bind_of_ok hload]
  cases hb : block s with
  | none =>
    -- a slot without a block is left as it is
    have hblock : Function.update block s none = block := by
      have hself := Function.update_eq_self s block
      rwa [hb] at hself
    refine ⟨live, S, H, rfl, h.unassign s, ?_, .refl s S⟩
    rw [hblock]
    exact hS
  | some b =>
    have hlive := h.owned s hs b hb
    obtain ⟨capacity, hlist, hle, hroom⟩ := h.exists_listAt hs hb
    have hoffset : Address.offset (Address.ofHeap b.index) 1 = .ok (Address.ofHeap (b.index + 1)) :=
      Address.offset_ofHeap (by show b.index + 1 < _; omega)
    have hfree := h.update_ne hs hb fun heq : none = some b => nomatch heq
    obtain ⟨words, H', hwords, hback, h', -⟩ :=
      deallocate_stocked (h.unassign s) hlive hlist.requested hfree m S
    refine ⟨_, S.setIfInBounds s.place 0, H', ?_, h', hS.set hdistinct hs none,
      s.confines_set ..⟩
    rw [listWord, if_pos (Address.ofHeap_ne_zero (by omega)), bind_of_ok (lift_ok hoffset _),
      bind_of_ok (load_ofHeap hlist.capacity (by omega)), bind_of_ok (lift_ok hwords _),
      bind_of_ok (lift_ok (Address.heapIndex_ofHeap (by omega)) _),
      bind_of_ok hback]
    exact store_ofStack (hS.lt_size hs) s.place_lt 0

end Exec

end WordScript
