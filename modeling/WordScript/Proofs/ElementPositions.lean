/-
Where the elements of a list are read and written.

An element lies behind the two words of the header and the elements before it.  The
length that an index is checked against, and that a push goes by, is a word of memory,
and a program may have put anything there; so the sum that makes up the position may be
more than a word can hold.  Then the machine panics: it neither goes on nor reports a
fault.

* `Exec.Reports` — effects that never overflow;
* `Exec.indexList_eq_ok`, `indexList_eq_overflow_iff` — what an index gives, and when it
  overflows;
* `Exec.PushFinds`, `Exec.room` — what a push does before it writes;
* `Exec.pushList_eq_ok`, `pushList_eq_overflow_iff` — the words that a push writes, and
  when it overflows;
* `element_positions` — the positions of both instructions are the sums that they stand
  for, wherever there is no fault and no panic.

Design notes: nothing is asked of the machine, its memory or the operand.
-/
import WordScript.Proofs.ElementAssignment
import WordScript.Proofs.ListEffects
import WordScript.Proofs.PlainValues
import WordScript.Proofs.StackSizes

namespace WordScript

namespace Address

variable {address index length : Word} {i : Nat}

theorem heapIndex_eq_ok (h : heapIndex address = .ok i) : address.toNat = heapRoom + i := by
  rw [heapIndex] at h
  split at h
  · next hheap =>
    cases h
    have hle := isHeap_iff.mp hheap
    have hsub := toNat_sub_heapBit hheap
    omega
  · cases h

theorem checkIndex_eq_ok (h : checkIndex index length = .ok ()) :
    0 ≤ index.toInt ∧ index.toNat < length.toNat := by
  rw [checkIndex] at h
  split at h
  · cases h
  · next hinside =>
    rw [not_or, Int.not_lt, UInt32.not_le, UInt32.lt_iff_toNat_lt] at hinside
    exact hinside

end Address

namespace ListBlock

variable {n : Nat} {w : Word}

theorem computed_eq_ok (h : computed n = .ok w) : w.toNat = n ∧ n < 4294967296 := by
  rw [computed] at h
  split at h
  · next hlt =>
    cases h
    exact ⟨Word.toNat_ofNat hlt, hlt⟩
  · cases h

theorem computed_eq_overflow_iff : computed n = .error .overflow ↔ 4294967296 ≤ n := by
  rw [computed]
  split
  · next hlt => exact ⟨fun h => (by cases h), fun hle => absurd hlt (Nat.not_lt.mpr hle)⟩
  · next hge => exact ⟨fun _ => Nat.not_lt.mp hge, fun _ => rfl⟩

end ListBlock

namespace Exec

variable {m m' : Machine} {a w : Word} {i at_ n : Nat}

/-! ### Effects that have succeeded -/

theorem heapRead_eq_ok (h : heapRead i m = .ok w m') : m.heap.words[i]? = some w ∧ m' = m := by
  simp only [heapRead, Heap.read] at h
  cases hword : m.heap.words[i]? with
  | none =>
    rw [hword] at h
    cases h
  | some v =>
    rw [hword] at h
    cases h
    exact ⟨rfl, rfl⟩

theorem heapRead_of_getElem? (h : m.heap.words[i]? = some w) : heapRead i m = .ok w m := by
  simp only [heapRead, Heap.read, h]

theorem heapStore_eq_ok {ws : List Word} (h : heapStore i ws m = .ok () m') :
    i + ws.length ≤ m.heap.size ∧ m' = { m with heap := m.heap.put i ws } := by
  rw [heapStore] at h
  split at h
  · next hin =>
    cases h
    exact ⟨by simpa [Heap.inBounds, Heap.size] using hin, rfl⟩
  · cases h

theorem top_eq_ok (h : top n m = .ok at_ m') : at_ + n = m.stack.size ∧ m' = m := by
  rw [top] at h
  split at h
  · next hle =>
    cases h
    exact ⟨Nat.sub_add_cancel hle, rfl⟩
  · cases h

theorem below_eq_ok {base : Nat} (h : below at_ n m = .ok base m') :
    base + n = at_ ∧ m' = m := by
  rw [below] at h
  split at h
  · next hle =>
    cases h
    exact ⟨Nat.sub_add_cancel hle, rfl⟩
  · cases h

/-! ### Effects that never overflow -/

section Reports

variable {α β : Type} {x : Exec α} {f : α → Exec β}

/-- Whatever the effect fails with is reported. -/
def Reports (x : Exec α) : Prop :=
  ∀ m m' : Machine, x m ≠ .error .overflow m'

theorem Reports.pure (r : α) : Reports (pure r : Exec α) :=
  fun _ _ h => by cases h

/-- A sequence that overflows does so in its second part. -/
theorem Reports.bind_eq_overflow (hx : Reports x) (h : (x >>= f) m = .error .overflow m') :
    ∃ r m₁, x m = .ok r m₁ ∧ f r m₁ = .error .overflow m' := by
  have h : EStateM.bind x f m = .error .overflow m' := h
  rw [EStateM.bind] at h
  cases hxm : x m with
  | ok r m₁ =>
    rw [hxm] at h
    exact ⟨r, m₁, rfl, h⟩
  | error e m₁ =>
    rw [hxm] at h
    cases h
    exact absurd hxm (hx m m')

theorem Reports.bind (hx : Reports x) (hf : ∀ r, Reports (f r)) : Reports (x >>= f) := by
  intro m m' h
  obtain ⟨r, m₁, -, hr⟩ := hx.bind_eq_overflow h
  exact hf r m₁ m' hr

theorem reports_lift {r : Except Fault α} (hr : r ≠ .error .overflow) : Reports (lift r) := by
  intro m m' h
  cases r with
  | ok a => cases h
  | error f =>
    cases h
    exact hr rfl

theorem reports_words (capacity elementWords : Word) :
    Reports (lift (ListBlock.words capacity elementWords)) := by
  refine reports_lift fun h => ?_
  rw [ListBlock.words] at h
  split at h <;> cases h

theorem reports_heapIndex (address : Word) : Reports (lift (Address.heapIndex address)) := by
  refine reports_lift fun h => ?_
  rw [Address.heapIndex] at h
  split at h <;> cases h

theorem reports_checkIndex (index length : Word) :
    Reports (lift (Address.checkIndex index length)) := by
  refine reports_lift fun h => ?_
  rw [Address.checkIndex] at h
  split at h <;> cases h

theorem reports_offset (address by_ : Word) : Reports (lift (Address.offset address by_)) := by
  refine reports_lift fun h => ?_
  simp only [Address.offset] at h
  split at h
  · cases h
  · split at h <;> cases h

theorem reports_allocate (length : Nat) : Reports (allocate length) := by
  intro m m' h
  simp only [allocate] at h
  split at h <;> cases h

theorem reports_deallocate (index length : Nat) : Reports (deallocate index length) := by
  intro m m' h
  simp only [deallocate] at h
  split at h <;> cases h

theorem reports_heapRead (index : Nat) : Reports (heapRead index) := by
  intro m m' h
  simp only [heapRead] at h
  split at h <;> cases h

theorem reports_heapSlice (index length : Nat) : Reports (heapSlice index length) := by
  intro m m' h
  simp only [heapSlice] at h
  split at h <;> cases h

theorem reports_heapStore (index : Nat) (ws : List Word) : Reports (heapStore index ws) := by
  intro m m' h
  rw [heapStore] at h
  split at h <;> cases h

theorem reports_popWord : Reports popWord := by
  intro m m' h
  simp only [popWord] at h
  split at h <;> cases h

theorem reports_top (words : Nat) : Reports (top words) := by
  intro m m' h
  rw [top] at h
  split at h <;> cases h

theorem reports_below (at_ depth : Nat) : Reports (below at_ depth) := by
  intro m m' h
  rw [below] at h
  split at h <;> cases h

theorem reports_load (address : Word) : Reports (load address) := by
  intro m m' h
  rw [load] at h
  split at h
  · exact reports_heapRead _ m m' h
  · split at h <;> cases h

theorem reports_store (address value : Word) : Reports (store address value) := by
  intro m m' h
  rw [store] at h
  split at h
  · exact reports_heapStore _ _ m m' h
  · split at h <;> cases h

theorem reports_newList (elementWords capacity : Word) : Reports (newList elementWords capacity) :=
  (reports_words _ _).bind fun _ => (reports_allocate _).bind fun _ =>
    (reports_heapStore _ _).bind fun _ => .pure _

theorem reports_lengthList (list : Word) : Reports (lengthList list) := by
  rw [lengthList]
  split
  · exact .pure _
  · exact reports_load list

end Reports

/-! ### Indexing -/

/-- The length of a list that has elements is its first word. -/
theorem lengthList_eq_ok {list length : Word} (h : lengthList list m = .ok length m')
    (hpos : 0 < length.toNat) : list ≠ 0 ∧ m.wordAt? list = some length ∧ m' = m := by
  rw [lengthList] at h
  split at h
  · -- the list without a block has no elements
    cases h
    exact absurd hpos (Nat.lt_irrefl 0)
  · next hlist => exact ⟨hlist, load_eq_ok h⟩

/-- An index that is inside the length gives the address of the element. -/
theorem indexList_eq_ok (h : indexList a m = .ok () m') :
    ∃ (S : Array Word) (list index length address : Word),
      m.stack = (S.push list).push index ∧ list ≠ 0 ∧
      ({ m with stack := S } : Machine).wordAt? list = some length ∧
      0 ≤ index.toInt ∧ index.toNat < length.toNat ∧
      address.toNat = list.toNat + (2 + index.toNat * a.toNat) ∧
      m' = { m with stack := S.push address } := by
  obtain ⟨index, m₁, hindex, h⟩ := bind_eq_ok h
  obtain ⟨list, m₂, hlist, h⟩ := bind_eq_ok h
  obtain ⟨length, m₃, hlength, h⟩ := bind_eq_ok h
  obtain ⟨_, m₄, hcheck, h⟩ := bind_eq_ok h
  obtain ⟨before, m₅, hcomputed, h⟩ := bind_eq_ok h
  obtain ⟨address, m₆, hmoved, hpush⟩ := bind_eq_ok h
  obtain ⟨S₁, hstack₁, rfl⟩ := popWord_eq_ok hindex
  obtain ⟨S, hstack, rfl⟩ := popWord_eq_ok hlist
  obtain ⟨hinside, rfl⟩ := lift_eq_ok hcheck
  obtain ⟨hnonneg, hlt⟩ := Address.checkIndex_eq_ok hinside
  obtain ⟨hbefore, rfl⟩ := lift_eq_ok hcomputed
  obtain ⟨hoffset, rfl⟩ := lift_eq_ok hmoved
  have haddress := (Address.offset_eq_ok hoffset).1
  rw [(ListBlock.computed_eq_ok hbefore).1] at haddress
  cases hpush
  obtain ⟨hne, hword, rfl⟩ := lengthList_eq_ok hlength (by omega)
  exact ⟨S, list, index, length, address, by rw [hstack₁]; exact congrArg (·.push index) hstack,
    hne, hword, hnonneg, hlt, haddress, rfl⟩

/-- It overflows where there is no word for the distance to the element. -/
theorem indexList_eq_overflow_iff :
    (∃ m', indexList a m = .error .overflow m') ↔
      ∃ (S : Array Word) (list index length : Word),
        m.stack = (S.push list).push index ∧ list ≠ 0 ∧
        ({ m with stack := S } : Machine).wordAt? list = some length ∧
        0 ≤ index.toInt ∧ index.toNat < length.toNat ∧
        4294967296 ≤ 2 + index.toNat * a.toNat := by
  constructor
  · rintro ⟨m', h⟩
    obtain ⟨index, m₁, hindex, h⟩ := reports_popWord.bind_eq_overflow h
    obtain ⟨list, m₂, hlist, h⟩ := reports_popWord.bind_eq_overflow h
    obtain ⟨length, m₃, hlength, h⟩ := (reports_lengthList list).bind_eq_overflow h
    obtain ⟨_, m₄, hcheck, hrest⟩ := (reports_checkIndex index length).bind_eq_overflow h
    obtain ⟨S₁, hstack₁, rfl⟩ := popWord_eq_ok hindex
    obtain ⟨S, hstack, rfl⟩ := popWord_eq_ok hlist
    obtain ⟨hinside, rfl⟩ := lift_eq_ok hcheck
    obtain ⟨hnonneg, hlt⟩ := Address.checkIndex_eq_ok hinside
    obtain ⟨hne, hword, rfl⟩ := lengthList_eq_ok hlength (by omega)
    refine ⟨S, list, index, length, by rw [hstack₁]; exact congrArg (·.push index) hstack, hne, hword,
      hnonneg, hlt, ?_⟩
    -- what is left are the distance and the address, and the address is checked
    by_contra hfits
    have hbefore : Reports (lift (ListBlock.wordsBefore index a)) :=
      reports_lift (mt ListBlock.computed_eq_overflow_iff.mp hfits)
    obtain ⟨before, m₅, -, hrest⟩ := hbefore.bind_eq_overflow hrest
    obtain ⟨address, m₆, -, hrest⟩ := (reports_offset list before).bind_eq_overflow hrest
    cases hrest
  · rintro ⟨S, list, index, length, hstack, hne, hword, hnonneg, hlt, hover⟩
    have hindex : popWord m = .ok index { m with stack := S.push list } := by
      simp only [popWord, hstack, Array.back?_push, Array.pop_push]
    have hlist : popWord { m with stack := S.push list } = .ok list { m with stack := S } := by
      simp only [popWord, Array.back?_push, Array.pop_push]
    have hlength : lengthList list { m with stack := S } = .ok length { m with stack := S } := by
      rw [lengthList, if_neg hne]
      exact Machine.load_of_wordAt? hword rfl Array.append_empty.symm
    have hcheck : Address.checkIndex index length = .ok () := by
      rw [Address.checkIndex, if_neg (by rw [UInt32.le_iff_toNat_le]; omega)]
    refine ⟨{ m with stack := S }, ?_⟩
    rw [indexList, bind_of_ok hindex, bind_of_ok hlist, bind_of_ok hlength,
      bind_of_ok (lift_ok hcheck _)]
    exact bind_of_error (lift_error (ListBlock.computed_eq_overflow_iff.mpr hover) _)

/-! ### Pushing -/

/-- The list in a slot; if there is none, an empty one is made for it. -/
def slotList (elementWords slot : Word) : Exec Word := do
  let list ← load slot
  if list = 0 then
    let made ← newList elementWords ListBlock.initialCapacity
    store slot made
    return made
  else return list

/-- The block that has room for one more element: the block at `index`, or if it is full the one
that its words are moved to. -/
def room (elementWords slot : Word) (index : Nat) (length capacity : Word) : Exec Nat :=
  if capacity ≤ length then do
    let grown ← growList index length capacity elementWords
    store slot (Address.ofHeap grown)
    return grown
  else return index

/-- A push finds the list, finds room and appends the element. -/
theorem pushList_eq_room (elementWords : Word) :
    pushList elementWords = (do
      let at_ ← top elementWords.toNat
      let slotAt ← below at_ 1
      let slot := ((← get).stack[slotAt]?).getD 0
      let list ← slotList elementWords slot
      let index ← lift (Address.heapIndex list)
      let length ← heapRead index
      let capacity ← heapRead (index + 1)
      let place ← room elementWords slot index length capacity
      appendElement elementWords at_ slotAt place length) := by
  -- the two ways to find room differ before the element is appended only
  have hroom : ∀ (at_ slotAt : Nat) (slot list : Word),
      pushOnto elementWords at_ slotAt slot list = (do
        let index ← lift (Address.heapIndex list)
        let length ← heapRead index
        let capacity ← heapRead (index + 1)
        let place ← room elementWords slot index length capacity
        appendElement elementWords at_ slotAt place length) := by
    intro at_ slotAt slot list
    rw [pushOnto]
    refine bind_congr fun index => bind_congr fun length => bind_congr fun capacity => ?_
    rw [room]
    split
    · simp only [bind_assoc, pure_bind]
    · rw [pure_bind]
  rw [pushList_eq]
  refine bind_congr fun at_ => bind_congr fun slotAt => bind_congr fun m => ?_
  simp only [slotList, bind_assoc, hroom]
  refine bind_congr fun list => ?_
  split
  · simp only [bind_assoc, pure_bind]
  · rw [pure_bind]

theorem Steady.size_eq {α : Type} {x : Exec α} {r : α} (hx : Steady x) (h : x m = .ok r m') :
    m'.stack.size = m.stack.size := by
  have hsizes := hx m 0 (Nat.zero_le _)
  rw [Sizes, h] at hsizes
  exact hsizes.2

theorem steady_slotList (elementWords slot : Word) : Steady (slotList elementWords slot) :=
  (steady_load _).bind fun _ => .ite
    ((steady_newList _ _).bind fun _ => (steady_store _ _).bind fun _ => .pure _) (.pure _)

theorem steady_room (elementWords slot : Word) (index : Nat) (length capacity : Word) :
    Steady (room elementWords slot index length capacity) :=
  .ite ((steady_growList _ _ _ _).bind fun _ => (steady_store _ _).bind fun _ => .pure _) (.pure _)

theorem reports_slotList (elementWords slot : Word) : Reports (slotList elementWords slot) := by
  refine (reports_load slot).bind fun list => ?_
  split
  · exact (reports_newList _ _).bind fun _ => (reports_store _ _).bind fun _ => .pure _
  · exact .pure _

/-- A list that moves overflows only over the words that it has in use. -/
theorem growList_eq_overflow {index : Nat} {length capacity : Word}
    (h : growList index length capacity a m = .error .overflow m') :
    4294967296 ≤ 2 + length.toNat * a.toNat := by
  by_contra hfits
  have hbefore : Reports (lift (ListBlock.wordsBefore length a)) :=
    reports_lift (mt ListBlock.computed_eq_overflow_iff.mp hfits)
  rw [growList] at h
  split at h
  · cases h
  · obtain ⟨words, m₁, -, h⟩ := (reports_words _ a).bind_eq_overflow h
    obtain ⟨grown, m₂, -, h⟩ := (reports_allocate words.toNat).bind_eq_overflow h
    obtain ⟨used, m₃, -, h⟩ := hbefore.bind_eq_overflow h
    obtain ⟨block, m₄, -, h⟩ := (reports_heapSlice index used.toNat).bind_eq_overflow h
    obtain ⟨_, m₅, -, h⟩ := (reports_heapStore grown block.toList).bind_eq_overflow h
    obtain ⟨_, m₆, -, h⟩ := (reports_heapStore (grown + 1) _).bind_eq_overflow h
    obtain ⟨old, m₇, -, h⟩ := (reports_words capacity a).bind_eq_overflow h
    obtain ⟨_, m₈, -, h⟩ := (reports_deallocate index old.toNat).bind_eq_overflow h
    cases h

theorem room_eq_overflow {slot length capacity : Word} {index : Nat}
    (h : room a slot index length capacity m = .error .overflow m') :
    capacity ≤ length ∧ 4294967296 ≤ 2 + length.toNat * a.toNat := by
  rw [room] at h
  split at h
  · next hfull =>
    refine ⟨hfull, ?_⟩
    by_contra hfits
    have hgrow : Reports (growList index length capacity a) :=
      fun _ _ hover => hfits (growList_eq_overflow hover)
    obtain ⟨grown, m₁, -, h⟩ := hgrow.bind_eq_overflow h
    obtain ⟨_, m₂, -, h⟩ := (reports_store slot (Address.ofHeap grown)).bind_eq_overflow h
    cases h
  · cases h

theorem appendElement_eq_ok {slotAt place : Nat} {length : Word}
    (h : appendElement a at_ slotAt place length m = .ok () m')
    (hvalue : at_ + a.toNat = m.stack.size) :
    place + 2 + length.toNat * a.toNat + a.toNat ≤ m.heap.size ∧ place < m.heap.size ∧
      length.toNat + 1 < 4294967296 ∧
      m' = { m with
        stack := m.stack.shrink slotAt
        heap := (m.heap.put (place + 2 + length.toNat * a.toNat)
          (Words.run m.stack at_ a.toNat).toList).put place [length + 1] } := by
  obtain ⟨element, m₁, hposition, h⟩ := bind_eq_ok h
  obtain ⟨value, m₂, hrun, h⟩ := bind_eq_ok h
  obtain ⟨_, m₃, hstore, h⟩ := bind_eq_ok h
  obtain ⟨longer, m₄, hraised, h⟩ := bind_eq_ok h
  obtain ⟨_, m₅, hlength, hdrop⟩ := bind_eq_ok h
  obtain ⟨helement, rfl⟩ := lift_eq_ok hposition
  cases hrun
  rw [(ListBlock.computed_eq_ok helement).1] at hstore
  obtain ⟨hin, rfl⟩ := heapStore_eq_ok hstore
  obtain ⟨hlonger, rfl⟩ := lift_eq_ok hraised
  obtain ⟨hnat, hlt⟩ := ListBlock.computed_eq_ok hlonger
  obtain rfl : longer = length + 1 := by
    apply UInt32.toNat_inj.mp
    rw [hnat, UInt32.toNat_add]
    show _ = (length.toNat + 1) % 4294967296
    omega
  obtain ⟨hplace, rfl⟩ := heapStore_eq_ok hlength
  cases hdrop
  rw [Array.length_toList, Words.size_run (Nat.le_of_eq hvalue)] at hin
  rw [Heap.size_put] at hplace
  exact ⟨hin, hplace, hlt, rfl⟩

/-- Appending overflows over the position of the element or over the new length. -/
theorem appendElement_eq_overflow_iff {slotAt place : Nat} {length : Word}
    (hvalue : at_ + a.toNat = m.stack.size) :
    (∃ m', appendElement a at_ slotAt place length m = .error .overflow m') ↔
      4294967296 ≤ place + 2 + length.toNat * a.toNat ∨
        place + 2 + length.toNat * a.toNat + a.toNat ≤ m.heap.size ∧
          4294967296 ≤ length.toNat + 1 := by
  have hsize : (Words.run m.stack at_ a.toNat).toList.length = a.toNat := by
    rw [Array.length_toList, Words.size_run (Nat.le_of_eq hvalue)]
  have hrun : stackRun at_ a.toNat m = .ok (Words.run m.stack at_ a.toNat) m := rfl
  rw [appendElement]
  by_cases hfits : place + 2 + length.toNat * a.toNat < 4294967296
  · have helement := ListBlock.computed_of_lt hfits
    rw [bind_of_ok (lift_ok helement _), bind_of_ok hrun, Word.toNat_ofNat hfits]
    constructor
    · rintro ⟨m', h⟩
      obtain ⟨_, m₁, hstore, h⟩ := (reports_heapStore _ _).bind_eq_overflow h
      obtain ⟨hin, -⟩ := heapStore_eq_ok hstore
      rw [hsize] at hin
      refine .inr ⟨hin, ?_⟩
      by_contra hshort
      have hlonger : Reports (lift (ListBlock.computed (length.toNat + 1))) :=
        reports_lift (mt ListBlock.computed_eq_overflow_iff.mp hshort)
      obtain ⟨longer, m₂, -, h⟩ := hlonger.bind_eq_overflow h
      obtain ⟨_, m₃, -, h⟩ := (reports_heapStore _ _).bind_eq_overflow h
      cases h
    · rintro (hover | ⟨hin, hover⟩)
      · exact absurd hfits (Nat.not_lt.mpr hover)
      · have hstore : heapStore (place + 2 + length.toNat * a.toNat)
            (Words.run m.stack at_ a.toNat).toList m = .ok () { m with
              heap := m.heap.put (place + 2 + length.toNat * a.toNat)
                (Words.run m.stack at_ a.toNat).toList } :=
          if_pos (by rw [hsize]; simpa [Heap.inBounds, Heap.size] using hin)
        exact ⟨_, (bind_of_ok hstore).trans
          (bind_of_error (lift_error (ListBlock.computed_eq_overflow_iff.mpr hover) _))⟩
  · have hover := Nat.not_lt.mp hfits
    exact ⟨fun _ => .inl hover, fun _ =>
      ⟨m, bind_of_error (lift_error (ListBlock.computed_eq_overflow_iff.mpr hover) _)⟩⟩

/-- What a push of an element of so many words finds: the slot whose address lies below the element,
the list in it, and the two words of the list's header. -/
structure PushFinds (elementWords : Word) (m : Machine) (slotAt : Nat) (slot list : Word) (index : Nat)
    (length capacity : Word) (m₁ : Machine) : Prop where
  element_above : slotAt + 1 + elementWords.toNat = m.stack.size
  slot_eq : m.stack[slotAt]? = some slot
  list_eq : slotList elementWords slot m = .ok list m₁
  list_toNat : list.toNat = Address.heapRoom + index
  length_eq : m₁.heap.words[index]? = some length
  capacity_eq : m₁.heap.words[index + 1]? = some capacity

/-- After that it finds room and appends the element. -/
theorem PushFinds.pushList_eq {slotAt index : Nat} {slot list length capacity : Word} {m₁ : Machine}
    (h : PushFinds a m slotAt slot list index length capacity m₁) :
    pushList a m = (do
      let place ← room a slot index length capacity
      appendElement a (slotAt + 1) slotAt place length) m₁ := by
  have htop : top a.toNat m = .ok (slotAt + 1) m := by
    have hle : a.toNat ≤ m.stack.size := by
      have := h.element_above
      omega
    have hat : m.stack.size - a.toNat = slotAt + 1 := by
      have := h.element_above
      omega
    rw [top, if_pos hle, hat]
  have hbelow : below (slotAt + 1) 1 m = .ok slotAt m := by
    rw [below, if_pos (Nat.le_add_left 1 slotAt)]
    rfl
  have hheap : Address.heapIndex list = .ok index := by
    have hisHeap : Address.isHeap list = true := by
      rw [Address.isHeap_iff]
      have := h.list_toNat
      omega
    rw [Address.heapIndex, if_pos hisHeap, Address.toNat_sub_heapBit hisHeap, h.list_toNat,
      Nat.add_sub_cancel_left]
  rw [pushList_eq_room, bind_of_ok htop, bind_of_ok hbelow, bind_get, h.slot_eq, Option.getD_some,
    bind_of_ok h.list_eq, bind_of_ok (lift_ok hheap _), bind_of_ok (heapRead_of_getElem? h.length_eq),
    bind_of_ok (heapRead_of_getElem? h.capacity_eq)]

/-- A push that does not break off before has found its list. -/
theorem pushFinds_of_pushList {r : EStateM.Result Fault Machine Unit}
    (h : pushList a m = r) (hr : (∃ m', r = .ok () m') ∨ ∃ m', r = .error .overflow m') :
    ∃ (slotAt : Nat) (slot list : Word) (index : Nat) (length capacity : Word) (m₁ : Machine),
      PushFinds a m slotAt slot list index length capacity m₁ := by
  -- an effect that neither faults nor overflows has succeeded
  have hpeel {α : Type} {x : Exec α} {f : α → Exec Unit} {m : Machine} (hx : Reports x)
      (hm : (x >>= f) m = r) : ∃ a m₁, x m = .ok a m₁ ∧ f a m₁ = r := by
    rcases hr with ⟨m', rfl⟩ | ⟨m', rfl⟩
    · exact bind_eq_ok hm
    · exact hx.bind_eq_overflow hm
  rw [pushList_eq_room] at h
  obtain ⟨at_, _, htop, h⟩ := hpeel (reports_top _) h
  obtain ⟨slotAt, m₀, hbelow, h⟩ := hpeel (reports_below _ _) h
  rw [bind_get] at h
  obtain ⟨list, m₁, hlist, h⟩ := hpeel (reports_slotList _ _) h
  obtain ⟨index, _, hindex, h⟩ := hpeel (reports_heapIndex _) h
  obtain ⟨length, _, hlength, h⟩ := hpeel (reports_heapRead _) h
  obtain ⟨capacity, _, hcapacity, -⟩ := hpeel (reports_heapRead _) h
  obtain ⟨hat, rfl⟩ := top_eq_ok htop
  obtain ⟨rfl, rfl⟩ := below_eq_ok hbelow
  obtain ⟨hheap, rfl⟩ := lift_eq_ok hindex
  obtain ⟨hlength, rfl⟩ := heapRead_eq_ok hlength
  obtain ⟨hcapacity, rfl⟩ := heapRead_eq_ok hcapacity
  have hslot : slotAt < m₀.stack.size := by omega
  rw [Array.getElem?_eq_getElem hslot, Option.getD_some] at hlist
  exact ⟨slotAt, m₀.stack[slotAt], list, index, length, capacity, _, hat,
    Array.getElem?_eq_getElem hslot, hlist, Address.heapIndex_eq_ok hheap, hlength, hcapacity⟩

/-- Neither making a list nor moving one pushes or pops. -/
theorem PushFinds.size_eq {slotAt index place : Nat} {slot list length capacity : Word}
    {m₁ m₂ : Machine} (h : PushFinds a m slotAt slot list index length capacity m₁)
    (hroom : room a slot index length capacity m₁ = .ok place m₂) :
    slotAt + 1 + a.toNat = m₂.stack.size := by
  have hsize := (steady_room _ _ _ _ _).size_eq hroom
  have hsize' := (steady_slotList _ _).size_eq h.list_eq
  have helement := h.element_above
  omega

/-- A push that comes to its end has written the element behind those that the header counts. -/
theorem pushList_eq_ok (h : pushList a m = .ok () m') :
    ∃ (slotAt : Nat) (slot list : Word) (index : Nat) (length capacity : Word) (place : Nat)
      (m₁ m₂ : Machine),
      PushFinds a m slotAt slot list index length capacity m₁ ∧
      room a slot index length capacity m₁ = .ok place m₂ ∧
      place + 2 + length.toNat * a.toNat + a.toNat ≤ m₂.heap.size ∧ place < m₂.heap.size ∧
      length.toNat + 1 < 4294967296 ∧
      m' = { m₂ with
        stack := m₂.stack.shrink slotAt
        heap := (m₂.heap.put (place + 2 + length.toNat * a.toNat)
          (Words.run m₂.stack (slotAt + 1) a.toNat).toList).put place [length + 1] } := by
  obtain ⟨slotAt, slot, list, index, length, capacity, m₁, hfinds⟩ :=
    pushFinds_of_pushList h (.inl ⟨m', rfl⟩)
  rw [hfinds.pushList_eq] at h
  obtain ⟨place, m₂, hroom, happend⟩ := bind_eq_ok h
  exact ⟨slotAt, slot, list, index, length, capacity, place, m₁, m₂, hfinds, hroom,
    appendElement_eq_ok happend (hfinds.size_eq hroom)⟩

/-- It overflows where there is no word for the position of the element or for the new length; on the
way to a larger block, where there is none for the words in use. -/
theorem pushList_eq_overflow_iff :
    (∃ m', pushList a m = .error .overflow m') ↔
      ∃ (slotAt : Nat) (slot list : Word) (index : Nat) (length capacity : Word) (m₁ : Machine),
        PushFinds a m slotAt slot list index length capacity m₁ ∧
        ((∃ m₂, room a slot index length capacity m₁ = .error .overflow m₂ ∧ capacity ≤ length ∧
            4294967296 ≤ 2 + length.toNat * a.toNat) ∨
          ∃ place m₂, room a slot index length capacity m₁ = .ok place m₂ ∧
            (4294967296 ≤ place + 2 + length.toNat * a.toNat ∨
              place + 2 + length.toNat * a.toNat + a.toNat ≤ m₂.heap.size ∧
                4294967296 ≤ length.toNat + 1)) := by
  constructor
  · rintro ⟨m', h⟩
    obtain ⟨slotAt, slot, list, index, length, capacity, m₁, hfinds⟩ :=
      pushFinds_of_pushList h (.inr ⟨m', rfl⟩)
    refine ⟨slotAt, slot, list, index, length, capacity, m₁, hfinds, ?_⟩
    rw [hfinds.pushList_eq] at h
    cases hroom : room a slot index length capacity m₁ with
    | error f m₂ =>
      rw [bind_of_error hroom] at h
      cases h
      exact .inl ⟨m', rfl, room_eq_overflow hroom⟩
    | ok place m₂ =>
      rw [bind_of_ok hroom] at h
      exact .inr ⟨place, m₂, rfl,
        (appendElement_eq_overflow_iff (hfinds.size_eq hroom)).mp ⟨m', h⟩⟩
  · rintro ⟨slotAt, slot, list, index, length, capacity, m₁, hfinds,
      ⟨m₂, hroom, -⟩ | ⟨place, m₂, hroom, hover⟩⟩
    · exact ⟨m₂, by rw [hfinds.pushList_eq, bind_of_error hroom]⟩
    · obtain ⟨m', happend⟩ := (appendElement_eq_overflow_iff (hfinds.size_eq hroom)).mpr hover
      exact ⟨m', by rw [hfinds.pushList_eq, bind_of_ok hroom, happend]⟩

/-- What an operation comes to is what its effect comes to. -/
theorem of_continuing_eq_ok {x : Exec Unit} {flow : Flow} (h : continuing x m = .ok flow m') :
    x m = .ok () m' := by
  obtain ⟨_, _, hx, hreturn⟩ := bind_eq_ok h
  cases hreturn
  exact hx

theorem continuing_eq_error_iff {x : Exec Unit} {f : Fault} :
    continuing x m = .error f m' ↔ x m = .error f m' := by
  have hcontinuing : continuing x m = EStateM.bind x (fun _ => pure Flow.next) m := rfl
  rw [hcontinuing, EStateM.bind]
  cases x m with
  | ok u m₁ => exact ⟨fun h => (by cases h), fun h => (by cases h)⟩
  | error e m₁ =>
    constructor
    · intro h
      cases h
      rfl
    · intro h
      cases h
      rfl

end Exec

/-- For every state and operand, an index or a push that succeeds has its element at the sum that its
position stands for, over the natural numbers.  Where that sum, the words in use of a list that moves,
or the new length is no word, and only there, the instruction overflows; every other failure is a
fault that is reported. -/
theorem element_positions (p : Program) (c : Chunk) (time : Float) (i : Instruction) (m : Machine) :
    (∀ flow m', Exec.perform p c time i .listIndex m = .ok flow m' →
      ∃ (S : Array Word) (list index length address : Word),
        m.stack = (S.push list).push index ∧ list ≠ 0 ∧
        ({ m with stack := S } : Machine).wordAt? list = some length ∧
        0 ≤ index.toInt ∧ index.toNat < length.toNat ∧
        address.toNat = list.toNat + 2 + index.toNat * i.a.toNat ∧
        m' = { m with stack := S.push address }) ∧
    ((∃ m', Exec.perform p c time i .listIndex m = .error .overflow m') ↔
      ∃ (S : Array Word) (list index length : Word),
        m.stack = (S.push list).push index ∧ list ≠ 0 ∧
        ({ m with stack := S } : Machine).wordAt? list = some length ∧
        0 ≤ index.toInt ∧ index.toNat < length.toNat ∧
        4294967296 ≤ 2 + index.toNat * i.a.toNat) ∧
    (∀ flow m', Exec.perform p c time i .listPush m = .ok flow m' →
      ∃ (slotAt : Nat) (slot list : Word) (index : Nat) (length capacity : Word)
        (place element : Nat) (m₁ m₂ : Machine),
        Exec.PushFinds i.a.toUInt32 m slotAt slot list index length capacity m₁ ∧
        Exec.room i.a.toUInt32 slot index length capacity m₁ = .ok place m₂ ∧
        element = place + 2 + length.toNat * i.a.toNat ∧
        element + i.a.toNat ≤ m₂.heap.size ∧ place < m₂.heap.size ∧
        length.toNat + 1 < 4294967296 ∧
        m' = { m₂ with
          stack := m₂.stack.shrink slotAt
          heap := (m₂.heap.put element (Words.run m₂.stack (slotAt + 1) i.a.toNat).toList).put place
            [length + 1] }) ∧
    ((∃ m', Exec.perform p c time i .listPush m = .error .overflow m') ↔
      ∃ (slotAt : Nat) (slot list : Word) (index : Nat) (length capacity : Word) (m₁ : Machine),
        Exec.PushFinds i.a.toUInt32 m slotAt slot list index length capacity m₁ ∧
        ((∃ m₂, Exec.room i.a.toUInt32 slot index length capacity m₁ = .error .overflow m₂ ∧
            capacity ≤ length ∧ 4294967296 ≤ 2 + length.toNat * i.a.toNat) ∨
          ∃ place m₂, Exec.room i.a.toUInt32 slot index length capacity m₁ = .ok place m₂ ∧
            (4294967296 ≤ place + 2 + length.toNat * i.a.toNat ∨
              place + 2 + length.toNat * i.a.toNat + i.a.toNat ≤ m₂.heap.size ∧
                4294967296 ≤ length.toNat + 1))) := by
  have hwords : i.a.toUInt32.toNat = i.a.toNat := UInt8.toNat_toUInt32 _
  refine ⟨fun flow m' h => ?_, ?_, fun flow m' h => ?_, ?_⟩
  · obtain ⟨S, list, index, length, address, hstack, hne, hword, hnonneg, hlt, haddress, hm'⟩ :=
      Exec.indexList_eq_ok (Exec.of_continuing_eq_ok h)
    rw [hwords] at haddress
    exact ⟨S, list, index, length, address, hstack, hne, hword, hnonneg, hlt, by omega, hm'⟩
  · have hiff := Exec.indexList_eq_overflow_iff (m := m) (a := i.a.toUInt32)
    rw [hwords] at hiff
    rw [← hiff]
    exact exists_congr fun _ => Exec.continuing_eq_error_iff
  · obtain ⟨slotAt, slot, list, index, length, capacity, place, m₁, m₂, hfinds, hroom, hin, hplace,
      hlt, hm'⟩ := Exec.pushList_eq_ok (Exec.of_continuing_eq_ok h)
    rw [hwords] at hin hm'
    exact ⟨slotAt, slot, list, index, length, capacity, place, _, m₁, m₂, hfinds, hroom, rfl, hin,
      hplace, hlt, hm'⟩
  · have hiff := Exec.pushList_eq_overflow_iff (m := m) (a := i.a.toUInt32)
    rw [hwords] at hiff
    rw [← hiff]
    exact exists_congr fun _ => Exec.continuing_eq_error_iff

/-- A machine that has so many words on its stack and in its arena. -/
def holdingWords (stack words : Array Word) : Machine :=
  { config := {}, stack, heap := { words, free := [], maxWords := 100, scanLimit := 16 } }

/-- In a list of one element and room for more the first element is read, and the second is pushed
behind it.  Words that are no header make an index and a push overflow. -/
theorem element_positions_of_holdingWords :
    (∃ flow m' address, Exec.perform ⟨#[], 0, #[]⟩ ⟨"", #[], #[]⟩ 0 (.ofBytes .listIndex 1 0 0) .listIndex
        (holdingWords #[0x80000000, 0x80000000, 0] #[1, 4, 9, 0, 0, 0]) = .ok flow m' ∧
      m'.stack = #[0x80000000, address] ∧ address.toNat = 0x80000000 + 2 + 0 * 1) ∧
    (∃ m', Exec.perform ⟨#[], 0, #[]⟩ ⟨"", #[], #[]⟩ 0 (.ofBytes .listIndex 4 0 0) .listIndex
        (holdingWords #[7, 0x40000001, 1, 0x40000000] #[]) = .error .overflow m') ∧
    (∃ flow m', Exec.perform ⟨#[], 0, #[]⟩ ⟨"", #[], #[]⟩ 0 (.ofBytes .listPush 1 0 0) .listPush
        (holdingWords #[0x80000000, 0, 5] #[1, 4, 9, 0, 0, 0]) = .ok flow m' ∧
      m'.heap.words = #[2, 4, 9, 5, 0, 0] ∧
      ∃ (length : Word) (place element : Nat), element < m'.heap.size ∧
        element = place + 2 + length.toNat * 1) ∧
    ∃ m', Exec.perform ⟨#[], 0, #[]⟩ ⟨"", #[], #[]⟩ 0 (.ofBytes .listPush 4 0 0) .listPush
        (holdingWords #[0x80000000, 0, 9, 9, 9, 9] #[0x40000000, 0x40000001, 0, 0, 0, 0]) =
      .error .overflow m' := by
  have hindex : Exec.ranTo ((Exec.perform ⟨#[], 0, #[]⟩ ⟨"", #[], #[]⟩ 0
      (.ofBytes .listIndex 1 0 0) .listIndex >>= fun _ => pure false)
        (holdingWords #[0x80000000, 0x80000000, 0] #[1, 4, 9, 0, 0, 0])) (fun _ => true) = true := by
    decide +kernel
  have hpush : Exec.ranTo ((Exec.perform ⟨#[], 0, #[]⟩ ⟨"", #[], #[]⟩ 0
      (.ofBytes .listPush 1 0 0) .listPush >>= fun _ => pure false)
        (holdingWords #[0x80000000, 0, 5] #[1, 4, 9, 0, 0, 0]))
        (fun m' => decide (m'.heap.words = #[2, 4, 9, 5, 0, 0])) = true := by
    decide +kernel
  refine ⟨?_, ?_, ?_, ?_⟩
  · obtain ⟨_, hran, -⟩ := Exec.exists_of_ranTo hindex
    obtain ⟨flow, m', hperform, -⟩ := Exec.bind_eq_ok hran
    obtain ⟨S, list, index, length, address, hstack, -, -, -, -, haddress, rfl⟩ :=
      (element_positions _ _ _ _ _).1 flow m' hperform
    obtain ⟨rfl, hbelow⟩ := Array.push_eq_push.mp
      (show (#[0x80000000, 0x80000000] : Array Word).push 0 = (S.push list).push index from hstack)
    obtain ⟨rfl, rfl⟩ := Array.push_eq_push.mp
      (show (#[0x80000000] : Array Word).push 0x80000000 = S.push list from hbelow)
    exact ⟨flow, _, address, hperform, rfl, haddress⟩
  · exact (element_positions _ _ _ _ _).2.1.mpr ⟨#[7, 0x40000001], 1, 0x40000000, 0x40000001, rfl,
      by decide, rfl, by decide, by decide, by decide⟩
  · obtain ⟨m₁, hran, hwords⟩ := Exec.exists_of_ranTo hpush
    obtain ⟨flow, m', hperform, hsame⟩ := Exec.bind_eq_ok hran
    cases hsame
    obtain ⟨slotAt, slot, list, index, length, capacity, place, element, m₂, m₃, -, -, hplace,
      hin, -, -, hwritten⟩ := (element_positions _ _ _ _ _).2.2.1 flow m₁ hperform
    refine ⟨flow, m₁, hperform, of_decide_eq_true hwords, length, place, element, ?_, hplace⟩
    rw [hwritten, Heap.size_put, Heap.size_put]
    exact Nat.lt_of_lt_of_le (Nat.lt_succ_self _) hin
  · have hfinds : Exec.PushFinds 4
        (holdingWords #[0x80000000, 0, 9, 9, 9, 9] #[0x40000000, 0x40000001, 0, 0, 0, 0]) 1 0
        0x80000000 0 0x40000000 0x40000001
        (holdingWords #[0x80000000, 0, 9, 9, 9, 9] #[0x40000000, 0x40000001, 0, 0, 0, 0]) :=
      ⟨rfl, rfl, rfl, rfl, rfl, rfl⟩
    exact (element_positions _ _ _ _ _).2.2.2.mpr ⟨1, 0, 0x80000000, 0, 0x40000000, 0x40000001, _,
      hfinds, .inr ⟨0, _, rfl, .inl (by decide)⟩⟩

/-- A word of memory that is no length, taken for one. -/
def staleLength : Program where
  chunks := #[⟨"<entry>", #[.ofImmediate .pushImmediate 7, .ofByteShort .loadConstant 0 0,
    .ofImmediate .pushImmediate 1, .ofByteShort .loadConstant 0 1, .ofBytes .listIndex 4 0 0,
    .ofOpcode .halt], #[0x40000001, 0x40000000]⟩]
  entryPoint := 0
  externals := #[]

/-- A list whose header has been written over before a push. -/
def staleHeader : Program where
  chunks := #[⟨"<entry>", #[.ofByteShort .listNew 4 1,
    .ofBytes .duplicate 1 0 0, .ofByteShort .loadConstant 0 0, .ofByteShort .storeIndirect 1 0,
    .ofBytes .duplicate 1 0 0, .ofByteShort .loadConstant 0 1, .ofByteShort .storeIndirect 1 1,
    .ofImmediate .pushImmediate 0, .ofImmediate .pushImmediate 9, .ofImmediate .pushImmediate 9,
    .ofImmediate .pushImmediate 9, .ofImmediate .pushImmediate 9, .ofBytes .listPush 4 0 0,
    .ofOpcode .halt], #[0x40000000, 0x40000001]⟩]
  entryPoint := 0
  externals := #[]

/-- Verified programs make both instructions panic: neither is there a fault, nor is the instruction
carried out. -/
theorem positions_overflow :
    (∃ m₀ m₁, (Machine.new {}).boot staleLength = .ok m₀ ∧ m₀.run 6 0 = (.ok .panicked, m₁) ∧
      m₁.stack = #[7, 0x40000001]) ∧
    ∃ m₀ m₁, (Machine.new {}).boot staleHeader = .ok m₀ ∧ m₀.run 14 0 = (.ok .panicked, m₁) ∧
      m₁.heap.words = #[0x40000000, 0x40000001, 0, 0, 0, 0] := by
  have hlength : ((Machine.new {}).boot staleLength).toOption.any (fun m₀ =>
      decide ((m₀.run 6 0).1.toOption = some .panicked) &&
        decide ((m₀.run 6 0).2.stack = #[7, 0x40000001])) = true := by
    decide +kernel
  have hheader : ((Machine.new {}).boot staleHeader).toOption.any (fun m₀ =>
      decide ((m₀.run 14 0).1.toOption = some .panicked) &&
        decide ((m₀.run 14 0).2.heap.words = #[0x40000000, 0x40000001, 0, 0, 0, 0])) = true := by
    decide +kernel
  constructor
  · obtain ⟨m₀, hboot, hran⟩ := exists_of_any hlength
    simp only [Bool.and_eq_true, decide_eq_true_eq] at hran
    obtain ⟨m₁, hrun⟩ := Machine.run_eq_of_toOption hran.1
    exact ⟨m₀, m₁, hboot, hrun, by rw [← hran.2, hrun]⟩
  · obtain ⟨m₀, hboot, hran⟩ := exists_of_any hheader
    simp only [Bool.and_eq_true, decide_eq_true_eq] at hran
    obtain ⟨m₁, hrun⟩ := Machine.run_eq_of_toOption hran.1
    exact ⟨m₀, m₁, hboot, hrun, by rw [← hran.2, hrun]⟩

end WordScript
