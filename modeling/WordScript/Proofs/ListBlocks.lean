/-
Lists as sequences of tuples.

A list block holds its length, its capacity, and its elements one after the other.
Several lists share one heap: each slot that is filled owns a live block, and no two
of these have a word in common.  A change inside one block is then a change of one
sequence, and the other slots do not notice it.

* `ListAt` — a block holds a sequence;
* `ListAt.append`, `ListAt.set`, `ListAt.moved` — what writing an element and moving
  a block do to the sequence;
* `Stocked` — the heap holds the sequences of all slots;
* `Stocked.allocate`, `Stocked.fill`, `Stocked.deallocate`, `Stocked.unassign` — the
  four ways in which the heap and the owners of its blocks change.
-/
import Mathlib.Logic.Function.Basic
import WordScript.Proofs.HeapPartition
import WordScript.Proofs.HeapWords

namespace WordScript

/-! ### Blocks that have no word in common -/

namespace HeapBlock

/-- No word lies in both blocks. -/
def Apart (b c : HeapBlock) : Prop :=
  ∀ j, b.chunk.covers j = true → c.chunk.covers j = false

theorem Apart.symm {b c : HeapBlock} (h : b.Apart c) : c.Apart b := by
  intro j hc
  rw [Bool.eq_false_iff]
  intro hb
  rw [h j hb] at hc
  cases hc

theorem Apart.ne {b c : HeapBlock} (h : b.Apart c) : b ≠ c := by
  rintro rfl
  have hfirst : b.chunk.covers b.index = true :=
    FreeChunk.covers_eq_true.mpr ⟨Nat.le_refl _, Nat.lt_add_of_pos_right b.chunk_length_pos⟩
  have hnot := h b.index hfirst
  rw [hfirst] at hnot
  cases hnot

/-- The words have changed at most inside the block. -/
def Confines (b : HeapBlock) (words words' : Array Word) : Prop :=
  words'.size = words.size ∧ ∀ j, b.chunk.covers j = false → words'[j]? = words[j]?

theorem Confines.trans {b : HeapBlock} {words words' words'' : Array Word}
    (h : b.Confines words words') (h' : b.Confines words' words'') : b.Confines words words'' :=
  ⟨h'.1.trans h.1, fun j hj => (h'.2 j hj).trans (h.2 j hj)⟩

/-- A write inside a block. -/
theorem confines_write {b : HeapBlock} {index : Nat} {ws : List Word} (words : Array Word)
    (hlo : b.index ≤ index) (hhi : index + ws.length ≤ b.index + b.requested) :
    b.Confines words (Words.write words index ws) := by
  refine ⟨Words.size_write .., fun j hj => Words.getElem?_write_of_outside ?_⟩
  rw [Bool.eq_false_iff, Ne, FreeChunk.covers_eq_true] at hj
  simp only [chunk, Heap.blockLength] at hj
  omega

end HeapBlock

/-! ### A sequence in a block -/

/-- The block is a list with room for `capacity` elements and holds the sequence `xs`. -/
structure ListAt {w : Nat} (words : Array Word) (b : HeapBlock) (capacity : Nat)
    (xs : List (Vector Word w)) : Prop where
  requested : b.requested = capacity * w + 2
  length_le : xs.length ≤ capacity
  length : words[b.index]? = some (UInt32.ofNat xs.length)
  capacity : words[b.index + 1]? = some (UInt32.ofNat capacity)
  element : ∀ i v, xs[i]? = some v → Words.run words (b.index + 2 + i * w) w = v.toArray

namespace ListAt

variable {w capacity : Nat} {words words' : Array Word} {b : HeapBlock} {xs : List (Vector Word w)}

/-- An element ends before the next one begins. -/
theorem element_le {i n : Nat} (h : i < n) : i * w + w ≤ n * w := by
  rw [← Nat.succ_mul]
  exact Nat.mul_le_mul_right w h

/-- An element that has been written is found again. -/
theorem run_element {index : Nat} (h : index + w ≤ words.size) (v : Vector Word w) :
    Words.run (Words.write words index v.toList) index w = v.toArray := by
  have hself : Words.run (Words.write words index v.toList) index v.toList.length =
      v.toList.toArray := Words.run_write (by rwa [Vector.length_toList])
  rwa [Vector.length_toList] at hself

/-- A block has one capacity, whatever it holds. -/
theorem capacity_unique {capacity' : Nat} {xs' : List (Vector Word w)} (hw : 0 < w)
    (h : ListAt words b capacity xs) (h' : ListAt words' b capacity' xs') :
    capacity = capacity' := by
  have hrequested := h.requested.symm.trans h'.requested
  exact Nat.eq_of_mul_eq_mul_right hw (Nat.add_right_cancel hrequested)

/-- What a list is depends on the words of its block only. -/
theorem congr (h : ListAt words b capacity xs)
    (hwords : ∀ j, b.chunk.covers j = true → words'[j]? = words[j]?) :
    ListAt words' b capacity xs := by
  have hblock : ∀ j, j < capacity * w + 2 → words'[b.index + j]? = words[b.index + j]? := by
    intro j hj
    refine hwords _ (FreeChunk.covers_eq_true.mpr ⟨Nat.le_add_right .., ?_⟩)
    simp only [HeapBlock.chunk, Heap.blockLength, h.requested]
    omega
  refine ⟨h.requested, h.length_le, ?_, ?_, fun i v hv => ?_⟩
  · exact (hblock 0 (by omega)).trans h.length
  · exact (hblock 1 (by omega)).trans h.capacity
  · rw [← h.element i v hv]
    have hi : i < xs.length := (List.getElem?_eq_some_iff.mp hv).1
    have hend := element_le (w := w) (Nat.lt_of_lt_of_le hi h.length_le)
    refine Words.run_eq_run fun j hj => ?_
    have hj' := hblock (2 + i * w + j) (by omega)
    rwa [← Nat.add_assoc, ← Nat.add_assoc] at hj'

/-- A block of zeros becomes an empty list when its capacity is written. -/
theorem of_zeros {index : Nat} (hzero : words[index]? = some 0) (hsize : index + 1 < words.size) :
    ListAt (Words.write words (index + 1) [UInt32.ofNat capacity])
      ⟨index, capacity * w + 2⟩ capacity ([] : List (Vector Word w)) where
  requested := rfl
  length_le := Nat.zero_le _
  length := (Words.getElem?_write_of_lt (Nat.lt_succ_self index)).trans hzero
  capacity := Words.getElem?_write_one hsize
  element i v hv := by cases hv

/-- Writing an element and the new length appends the element. -/
theorem append (h : ListAt words b capacity xs) (hroom : xs.length < capacity)
    (hsize : b.index + b.requested ≤ words.size) (v : Vector Word w) :
    ListAt (Words.write (Words.write words (b.index + 2 + xs.length * w) v.toList) b.index
      [UInt32.ofNat (xs.length + 1)]) b capacity (xs ++ [v]) := by
  have hend := element_le (w := w) hroom
  have hv : v.toList.length = w := v.length_toList
  rw [h.requested] at hsize
  refine ⟨h.requested, ?_, ?_, ?_, fun i u hu => ?_⟩
  · rw [List.length_append]
    exact hroom
  · rw [List.length_append]
    refine Words.getElem?_write_one ?_
    rw [Words.size_write]
    omega
  · rw [Words.getElem?_write_one_of_ne (by omega), Words.getElem?_write_of_lt (by omega),
      h.capacity]
  -- the new element lies in the written run, the others before it
  · have hrun : Words.run (Words.write (Words.write words (b.index + 2 + xs.length * w) v.toList)
        b.index [UInt32.ofNat (xs.length + 1)]) (b.index + 2 + i * w) w =
          Words.run (Words.write words (b.index + 2 + xs.length * w) v.toList)
            (b.index + 2 + i * w) w :=
      Words.run_eq_run fun j _ => Words.getElem?_write_one_of_ne (by omega)
    rw [hrun]
    rcases Nat.lt_trichotomy i xs.length with hi | rfl | hi
    · rw [List.getElem?_append_left hi] at hu
      rw [← h.element i u hu]
      have hbefore := element_le (w := w) hi
      exact Words.run_eq_run fun j _ => Words.getElem?_write_of_lt (by omega)
    · obtain rfl : v = u := by simpa using hu
      exact run_element (by omega) v
    · rw [List.getElem?_eq_none (by rw [List.length_append]; exact hi)] at hu
      cases hu

/-- Writing over an element replaces it. -/
theorem set (h : ListAt words b capacity xs) {k : Nat} (hk : k < xs.length)
    (hsize : b.index + b.requested ≤ words.size) (v : Vector Word w) :
    ListAt (Words.write words (b.index + 2 + k * w) v.toList) b capacity (xs.set k v) := by
  have hv : v.toList.length = w := v.length_toList
  have hend := element_le (w := w) (Nat.lt_of_lt_of_le hk h.length_le)
  rw [h.requested] at hsize
  refine ⟨h.requested, ?_, ?_, ?_, fun i u hu => ?_⟩
  · rw [List.length_set]
    exact h.length_le
  · rw [Words.getElem?_write_of_lt (by omega), h.length, List.length_set]
  · rw [Words.getElem?_write_of_lt (by omega), h.capacity]
  · rw [List.getElem?_set] at hu
    split at hu
    · next hki =>
      subst hki
      obtain rfl : v = u := by simpa [hk] using hu
      exact run_element (by omega) v
    · next hki =>
      -- the other elements lie before or after the one that is written
      rw [← h.element i u hu]
      refine Words.run_eq_run fun j hj => Words.getElem?_write_of_outside ?_
      rcases Nat.lt_or_gt_of_ne hki with hlt | hlt
      · have := element_le (w := w) hlt
        omega
      · have := element_le (w := w) hlt
        omega

/-- A copy of the used words in a larger block, with its capacity written, holds the same
sequence. -/
theorem moved (h : ListAt words b capacity xs) {index capacity' : Nat}
    (hcapacity : capacity ≤ capacity') (hsource : b.index + b.requested ≤ words.size)
    (htarget : index + (capacity' * w + 2) ≤ words.size) :
    ListAt (Words.write (Words.write words index
        (Words.run words b.index (2 + xs.length * w)).toList) (index + 1) [UInt32.ofNat capacity'])
      ⟨index, capacity' * w + 2⟩ capacity' xs := by
  have hused : xs.length * w ≤ capacity * w := Nat.mul_le_mul_right w h.length_le
  have hgrown : capacity * w ≤ capacity' * w := Nat.mul_le_mul_right w hcapacity
  rw [h.requested] at hsource
  have hlength : (Words.run words b.index (2 + xs.length * w)).toList.length =
      2 + xs.length * w := by
    rw [Array.length_toList]
    exact Words.size_run (by omega)
  -- what is copied is the header and the elements that are used
  have hcopy : ∀ j, j < 2 + xs.length * w →
      (Words.write words index (Words.run words b.index (2 + xs.length * w)).toList)[index + j]? =
        words[b.index + j]? := by
    intro j hj
    rw [Words.getElem?_write (by omega) (by omega), Array.getElem?_toList, Words.getElem?_run,
      if_pos hj]
  refine ⟨rfl, Nat.le_trans h.length_le hcapacity, ?_, ?_, fun i v hv => ?_⟩
  · rw [Words.getElem?_write_one_of_ne (Nat.succ_ne_self _)]
    exact (hcopy 0 (by omega)).trans h.length
  · refine Words.getElem?_write_one ?_
    rw [Words.size_write]
    omega
  · rw [← h.element i v hv]
    have hi : i < xs.length := (List.getElem?_eq_some_iff.mp hv).1
    have hend := element_le (w := w) hi
    refine Words.run_eq_run fun j hj => ?_
    have hj' := hcopy (2 + i * w + j) (by omega)
    rw [← Nat.add_assoc, ← Nat.add_assoc, ← Nat.add_assoc, ← Nat.add_assoc] at hj'
    exact (Words.getElem?_write_one_of_ne (by simp only; omega)).trans hj'

end ListAt

/-! ### The lists of several slots -/

/-- A place on the stack for a list, and how many words its elements have. -/
structure ListSlot where
  place : Nat
  width : UInt8
  place_lt : place < Address.heapRoom
  width_pos : 0 < width.toNat
deriving DecidableEq

/-- The words of an element. -/
def ListSlot.words (s : ListSlot) : Nat :=
  s.width.toNat

/-- The operand that gives the words of an element. -/
def ListSlot.operand (s : ListSlot) : Word :=
  s.width.toUInt32

@[simp] theorem ListSlot.toNat_operand (s : ListSlot) : s.operand.toNat = s.words :=
  UInt8.toNat_toUInt32 s.width

theorem ListSlot.words_pos (s : ListSlot) : 0 < s.words :=
  s.width_pos

theorem ListSlot.words_lt (s : ListSlot) : s.words < 256 :=
  s.width.toNat_lt

theorem ListSlot.le_mul_words (s : ListSlot) (n : Nat) : n ≤ n * s.words :=
  Nat.le_mul_of_pos_right n s.words_pos

/-- What the lists of all slots are: a sequence of tuples for each slot. -/
abbrev Sequences := (s : ListSlot) → List (Vector Word s.words)

/-- No list has an element. -/
def Sequences.none : Sequences := fun _ => []

/-- The heap holds the sequences.  A slot without a block has the empty one; a slot with a block
owns it, and other slots' blocks lie apart from it.  Live blocks that no slot owns are lost for
good. -/
structure Stocked (limit : Nat) (slots : List ListSlot) (σ : Sequences) (live : List HeapBlock)
    (block : ListSlot → Option HeapBlock) (heap : Heap) : Prop where
  limit_le : limit ≤ Address.heapRoom
  maxWords_eq : heap.maxWords = limit
  size_le : heap.size ≤ limit
  partition : Client.Partition ⟨heap, live⟩
  empty : ∀ s ∈ slots, block s = .none → σ s = []
  owned : ∀ s ∈ slots, ∀ b, block s = some b → b ∈ live
  list : ∀ s ∈ slots, ∀ b, block s = some b → ∃ capacity, ListAt heap.words b capacity (σ s)
  apart : ∀ s ∈ slots, ∀ t ∈ slots, s ≠ t → ∀ b c, block s = some b → block t = some c → b.Apart c

namespace Stocked

variable {limit n index capacity : Nat} {slots : List ListSlot} {σ : Sequences}
  {live : List HeapBlock} {block : ListSlot → Option HeapBlock} {heap heap' : Heap} {s : ListSlot}
  {b : HeapBlock}

/-- A heap without words, and slots without blocks. -/
theorem start (hlimit : limit ≤ Address.heapRoom) (scanLimit : Nat) (slots : List ListSlot) :
    Stocked limit slots .none [] (fun _ => .none) (Heap.empty limit scanLimit) where
  limit_le := hlimit
  maxWords_eq := rfl
  size_le := Nat.zero_le limit
  partition := Client.Partition.start limit scanLimit
  empty _ _ _ := rfl
  owned _ _ _ hb := by cases hb
  list _ _ _ hb := by cases hb
  apart _ _ _ _ _ _ _ hb := by cases hb

/-- A live block lies in the arena, whose indices all have addresses. -/
theorem live_le (h : Stocked limit slots σ live block heap) (hb : b ∈ live) :
    b.index + b.requested ≤ heap.size ∧ heap.size ≤ Address.heapRoom := by
  have hle := h.partition.live_le_size hb
  have hsize := Nat.le_trans h.size_le h.limit_le
  simp only [Heap.blockLength] at hle
  omega

/-- The list of a slot and where it lies. -/
theorem exists_listAt (h : Stocked limit slots σ live block heap) (hs : s ∈ slots)
    (hb : block s = some b) :
    ∃ capacity, ListAt heap.words b capacity (σ s) ∧
      b.index + (capacity * s.words + 2) ≤ heap.size ∧ heap.size ≤ Address.heapRoom := by
  obtain ⟨capacity, hlist⟩ := h.list s hs b hb
  have hle := h.live_le (h.owned s hs b hb)
  rw [hlist.requested] at hle
  exact ⟨capacity, hlist, hle⟩

/-- A sequence is shorter than the arena is long. -/
theorem length_lt (h : Stocked limit slots σ live block heap) (hs : s ∈ slots) :
    (σ s).length < Address.heapRoom := by
  cases hb : block s with
  | none =>
    rw [h.empty s hs hb]
    exact (by decide : 0 < Address.heapRoom)
  | some b =>
    obtain ⟨capacity, hlist, hle, hroom⟩ := h.exists_listAt hs hb
    have hlength := hlist.length_le
    have hcapacity := s.le_mul_words capacity
    omega

/-- A block that is handed out lies apart from the blocks of all slots. -/
theorem apart_of_allocate (h : Stocked limit slots σ live block heap)
    (hok : heap.allocate n = .ok (index, heap')) {t : ListSlot} (ht : t ∈ slots) {c : HeapBlock}
    (hc : block t = some c) : (HeapBlock.mk index n).Apart c :=
  (h.partition.allocate_separate hok).2 c (h.owned t ht c hc)

/-- A request that is granted leaves every list as it is. -/
theorem allocate (h : Stocked limit slots σ live block heap)
    (hok : heap.allocate n = .ok (index, heap')) :
    Stocked limit slots σ (⟨index, n⟩ :: live) block heap' := by
  obtain ⟨hmax, -, hsize⟩ := Heap.size_le_of_allocate hok (h.maxWords_eq ▸ h.size_le)
  refine ⟨h.limit_le, hmax.trans h.maxWords_eq, (hmax.trans h.maxWords_eq) ▸ hsize,
    h.partition.allocate hok, h.empty, fun t ht c hc => List.mem_cons_of_mem _ (h.owned t ht c hc),
    fun t ht c hc => ?_, h.apart⟩
  obtain ⟨capacity, hlist⟩ := h.list t ht c hc
  refine ⟨capacity, hlist.congr fun j hj => ?_⟩
  -- a word of the list lies in the arena and, since blocks are apart, not in the new block
  have hin : j < heap.size :=
    h.partition.lt_size (List.mem_append_left _ (List.mem_map_of_mem (h.owned t ht c hc))) hj
  have hout := (h.apart_of_allocate hok ht hc).symm j hj
  rw [Bool.eq_false_iff, Ne, FreeChunk.covers_eq_true] at hout
  simp only [HeapBlock.chunk] at hout
  exact Heap.getElem?_of_allocate_of_outside hok hin (by omega)

/-- New words inside a live block that no other slot owns make it the list of a slot. -/
theorem fill (h : Stocked limit slots σ live block heap) (hb : b ∈ live)
    (hapart : ∀ t ∈ slots, t ≠ s → ∀ c, block t = some c → b.Apart c) {words : Array Word}
    (hwords : b.Confines heap.words words) {xs : List (Vector Word s.words)}
    (hlist : ListAt words b capacity xs) :
    Stocked limit slots (Function.update σ s xs) live (Function.update block s (some b))
      { heap with words } := by
  have hsize : words.size = heap.words.size := hwords.1
  refine ⟨h.limit_le, h.maxWords_eq, ?_, ⟨?_, h.partition.free_length_pos⟩, ?_, ?_, ?_, ?_⟩
  · show words.size ≤ limit
    rw [hsize]
    exact h.size_le
  · intro j
    have hone := h.partition.coverage_pieces j
    simp only [Client.pieces, Heap.size, hsize] at hone ⊢
    exact hone
  · intro t ht hnone
    by_cases hts : t = s
    · subst hts
      simp at hnone
    · rw [Function.update_of_ne hts] at hnone ⊢
      exact h.empty t ht hnone
  · intro t ht c hc
    by_cases hts : t = s
    · subst hts
      obtain rfl : b = c := by simpa using hc
      exact hb
    · rw [Function.update_of_ne hts] at hc
      exact h.owned t ht c hc
  · intro t ht c hc
    by_cases hts : t = s
    · subst hts
      obtain rfl : b = c := by simpa using hc
      rw [Function.update_self]
      exact ⟨capacity, hlist⟩
    · rw [Function.update_of_ne hts] at hc ⊢
      obtain ⟨capacity', hlist'⟩ := h.list t ht c hc
      exact ⟨capacity', hlist'.congr fun j hj => hwords.2 j ((hapart t ht hts c hc).symm j hj)⟩
  -- of two slots at most one is the slot that has changed
  · intro t ht u hu htu c d hc hd
    by_cases hts : t = s
    · subst hts
      obtain rfl : b = c := by simpa using hc
      rw [Function.update_of_ne htu.symm] at hd
      exact hapart u hu htu.symm d hd
    · rw [Function.update_of_ne hts] at hc
      by_cases hus : u = s
      · subst hus
        obtain rfl : b = d := by simpa using hd
        exact (hapart t ht hts c hc).symm
      · rw [Function.update_of_ne hus] at hd
        exact h.apart t ht u hu htu c d hc hd

/-- A live block that no slot owns can be given back. -/
theorem deallocate (h : Stocked limit slots σ live block heap) (hb : b ∈ live)
    (hfree : ∀ t ∈ slots, block t ≠ some b) :
    Stocked limit slots σ (live.erase b) block
      { heap with free := b.chunk.insert heap.free } where
  limit_le := h.limit_le
  maxWords_eq := h.maxWords_eq
  size_le := h.size_le
  partition := h.partition.deallocate hb
  empty := h.empty
  owned t ht c hc := by
    have hne : c ≠ b := by
      rintro rfl
      exact hfree t ht hc
    exact (List.mem_erase_of_ne hne).mpr (h.owned t ht c hc)
  list := h.list
  apart := h.apart

/-- A slot that gives up its block has the empty list. -/
theorem unassign (h : Stocked limit slots σ live block heap) (s : ListSlot) :
    Stocked limit slots (Function.update σ s []) live (Function.update block s .none) heap := by
  have hother : ∀ {t : ListSlot} {c : HeapBlock}, Function.update block s .none t = some c →
      t ≠ s ∧ block t = some c := by
    intro t c hc
    by_cases hts : t = s
    · subst hts
      simp at hc
    · exact ⟨hts, by rwa [Function.update_of_ne hts] at hc⟩
  refine ⟨h.limit_le, h.maxWords_eq, h.size_le, h.partition, ?_, ?_, ?_, ?_⟩
  · intro t ht hnone
    by_cases hts : t = s
    · subst hts
      exact Function.update_self ..
    · rw [Function.update_of_ne hts] at hnone ⊢
      exact h.empty t ht hnone
  · intro t ht c hc
    exact h.owned t ht c (hother hc).2
  · intro t ht c hc
    rw [Function.update_of_ne (hother hc).1]
    exact h.list t ht c (hother hc).2
  · intro t ht u hu htu c d hc hd
    exact h.apart t ht u hu htu c d (hother hc).2 (hother hd).2

/-- The block of a slot belongs to no other slot. -/
theorem block_ne (h : Stocked limit slots σ live block heap) (hs : s ∈ slots)
    (hb : block s = some b) {t : ListSlot} (ht : t ∈ slots) (hts : t ≠ s) : block t ≠ some b :=
  fun htb => (h.apart t ht s hs hts b b htb hb).ne rfl

/-- Once a slot has something else, no slot owns the block that it had. -/
theorem update_ne (h : Stocked limit slots σ live block heap) (hs : s ∈ slots)
    (hb : block s = some b) {list : Option HeapBlock} (hlist : list ≠ some b) :
    ∀ t ∈ slots, Function.update block s list t ≠ some b := by
  intro t ht
  by_cases hts : t = s
  · subst hts
    rwa [Function.update_self]
  · rw [Function.update_of_ne hts]
    exact h.block_ne hs hb ht hts

end Stocked

end WordScript
