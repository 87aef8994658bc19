/-
Which words a request gets.

A request looks at the chunks of the free list that are long enough, the longest
first and of equally long ones the lower index first, and takes the last of those
that it looks at.  The free list is kept in that order.  A priority queue that is
popped until enough chunks have been seen finds the same chunk, whatever the
arrangement of its entries, so which words a request gets depends on the chunks
alone.

* `FreeChunk.scan` — the chunk found by popping a queue in any arrangement;
  `FreeChunk.scan_of_sorted` says that it is the one that the heap takes;
* `Heap.Reached` — what any use of a heap leads to; `Heap.Reached.ordered` is the
  invariant, the order of the free list among it;
* `Heap.Grants` — the words after a request that is granted;
* `allocates_by_policy` — when a request is granted, and which words it gets.

Design notes: the order is total and no two chunks are alike in it, so that a list
in that order is determined by its chunks.  This is what makes the arrangement of
the queue disappear.
-/
import WordScript.Proofs.FreeList

namespace WordScript

namespace FreeChunk

variable {x y z : FreeChunk} {free queue fits : List FreeChunk} {limit length : Nat}

/-! ### The order of the free list -/

theorem precedes_iff : x.precedes y = true ↔
    y.length < x.length ∨ x.length = y.length ∧ x.index ≤ y.index := by
  simp [precedes]

theorem precedes_trans (hxy : x.precedes y = true) (hyz : y.precedes z = true) :
    x.precedes z = true := by
  rw [precedes_iff] at *
  omega

theorem precedes_of_not (h : x.precedes y = false) : y.precedes x = true := by
  rw [Bool.eq_false_iff, ne_eq, precedes_iff] at h
  rw [precedes_iff]
  omega

theorem precedes_antisymm (hxy : x.precedes y = true) (hyx : y.precedes x = true) : x = y := by
  obtain ⟨i, n⟩ := x
  obtain ⟨j, k⟩ := y
  rw [precedes_iff] at *
  simp only [mk.injEq] at *
  omega

/-- The chunks stand in the order in which they are looked at. -/
def Sorted (free : List FreeChunk) : Prop :=
  free.Pairwise fun x y => x.precedes y = true

theorem Sorted.eq_of_perm (hfree : Sorted free) (hqueue : Sorted queue) (h : queue.Perm free) :
    queue = free :=
  h.eq_of_pairwise (fun _ _ _ _ hxy hyx => precedes_antisymm hxy hyx) hqueue hfree

theorem Sorted.insert (h : Sorted free) (x : FreeChunk) : Sorted (x.insert free) := by
  induction free with
  | nil => exact List.pairwise_singleton _ _
  | cons y ys ih =>
    obtain ⟨hy, hys⟩ := List.pairwise_cons.mp h
    rw [FreeChunk.insert]
    split
    · next hxy =>
      refine List.pairwise_cons.mpr ⟨fun z hz => ?_, h⟩
      rcases List.mem_cons.mp hz with rfl | hz
      · exact hxy
      · exact precedes_trans hxy (hy z hz)
    · next hxy =>
      refine List.pairwise_cons.mpr ⟨fun z hz => ?_, ih hys⟩
      rcases mem_insert.mp hz with rfl | hz
      · exact precedes_of_not (Bool.eq_false_iff.mpr hxy)
      · exact hy z hz

theorem Sorted.eraseIdx (h : Sorted free) (k : Nat) : Sorted (free.eraseIdx k) :=
  h.sublist (List.eraseIdx_sublist free k)

/-- The chunks that are long enough are a front part of the list. -/
theorem Sorted.takeWhile_eq_filter (h : Sorted free) (length : Nat) :
    (free.takeWhile fun x => length ≤ x.length) = free.filter fun x => length ≤ x.length := by
  induction free with
  | nil => rfl
  | cons y ys ih =>
    obtain ⟨hy, hys⟩ := List.pairwise_cons.mp h
    by_cases hfits : length ≤ y.length
    · rw [List.takeWhile_cons_of_pos (by simpa using hfits),
        List.filter_cons_of_pos (by simpa using hfits), ih hys]
    · rw [List.takeWhile_cons_of_neg (by simpa using hfits),
        List.filter_cons_of_neg (by simpa using hfits)]
      -- none of those behind is longer
      refine (List.filter_eq_nil_iff.mpr fun z hz => ?_).symm
      have hyz := precedes_iff.mp (hy z hz)
      rw [decide_eq_true_eq]
      omega

/-- What a block of `length` words leaves of the chunk that it is cut from. -/
def leftover (x : FreeChunk) (length : Nat) : List FreeChunk :=
  if length < x.length then [⟨x.index + length, x.length - length⟩] else []

/-! ### Popping a queue -/

/-- The chunk that precedes all others, wherever it stands. -/
def first? : List FreeChunk → Option FreeChunk
  | [] => none
  | x :: xs =>
    match first? xs with
    | none => some x
    | some y => if x.precedes y then some x else some y

/-- Pops chunks as long as they are long enough, but at most `limit` of them.  Gives those that have
been popped and those that are left. -/
def popFits (length : Nat) : Nat → List FreeChunk → List FreeChunk × List FreeChunk
  | 0, queue => ([], queue)
  | limit + 1, queue =>
    match first? queue with
    | none => ([], queue)
    | some x =>
      if length ≤ x.length then
        let (popped, left) := popFits length limit (queue.erase x)
        (x :: popped, left)
      else ([], queue)

/-- Takes the last chunk that is popped, and puts the others and what the block leaves of it back. -/
def scan (limit length : Nat) (queue : List FreeChunk) : Option (Nat × List FreeChunk) :=
  let (popped, left) := popFits length limit queue
  popped.getLast?.map fun x => (x.index, x.leftover length ++ (popped.dropLast ++ left))

theorem first?_eq_none (h : first? queue = none) : queue = [] := by
  cases queue with
  | nil => rfl
  | cons x xs =>
    rw [first?] at h
    split at h
    · cases h
    · split at h <;> cases h

theorem first?_eq_some (h : first? queue = some x) :
    x ∈ queue ∧ ∀ y ∈ queue, x.precedes y = true := by
  induction queue generalizing x with
  | nil => cases h
  | cons z zs ih =>
    have hrefl : ∀ y : FreeChunk, y.precedes y = true := fun y => precedes_iff.mpr (.inr ⟨rfl, Nat.le_refl _⟩)
    rw [first?] at h
    split at h
    · next hnone =>
      cases h
      obtain rfl := first?_eq_none hnone
      exact ⟨List.mem_cons_self, fun y hy => List.mem_singleton.mp hy ▸ hrefl _⟩
    · next y hsome =>
      obtain ⟨hmem, hall⟩ := ih hsome
      split at h
      · next hzy =>
        cases h
        exact ⟨List.mem_cons_self,
          List.forall_mem_cons.mpr ⟨hrefl _, fun w hw => precedes_trans hzy (hall w hw)⟩⟩
      · next hzy =>
        cases h
        exact ⟨List.mem_cons_of_mem z hmem,
          List.forall_mem_cons.mpr ⟨precedes_of_not (Bool.eq_false_iff.mpr hzy), hall⟩⟩

/-- In whatever arrangement, the first chunk is the head of the list in order. -/
theorem first?_of_sorted (hfree : Sorted (x :: free)) (h : queue.Perm (x :: free)) :
    first? queue = some x := by
  cases hfirst : first? queue with
  | none =>
    rw [first?_eq_none hfirst] at h
    cases h.length_eq
  | some y =>
    obtain ⟨hmem, hall⟩ := first?_eq_some hfirst
    have hyx := hall x (h.mem_iff.mpr List.mem_cons_self)
    rcases List.mem_cons.mp (h.mem_iff.mp hmem) with rfl | hy
    · rfl
    · rw [precedes_antisymm ((List.pairwise_cons.mp hfree).1 y hy) hyx]

/-- What is popped is a front part of the list in order, and the rest of the list is left. -/
theorem popFits_of_sorted (limit length : Nat) (hfree : Sorted free) (h : queue.Perm free) :
    (popFits length limit queue).1 = (free.takeWhile fun x => length ≤ x.length).take limit ∧
      ((popFits length limit queue).1 ++ (popFits length limit queue).2).Perm free := by
  induction limit generalizing queue free with
  | zero => exact ⟨rfl, h⟩
  | succ limit ih =>
    cases free with
    | nil =>
      obtain rfl := h.eq_nil
      exact ⟨rfl, .refl _⟩
    | cons x xs =>
      rw [popFits, first?_of_sorted hfree h]
      dsimp only
      by_cases hfits : length ≤ x.length
      · have hrest : (queue.erase x).Perm xs := by
          have herase := h.erase x
          rwa [List.erase_cons_head] at herase
        obtain ⟨hpopped, hleft⟩ := ih (List.pairwise_cons.mp hfree).2 hrest
        rw [if_pos hfits, List.takeWhile_cons_of_pos (by simpa using hfits), List.take_succ_cons]
        exact ⟨congrArg (x :: ·) hpopped, hleft.cons x⟩
      · rw [if_neg hfits, List.takeWhile_cons_of_neg (by simpa using hfits)]
        exact ⟨rfl, h⟩

/-- The last of the first `limit` chunks. -/
theorem getLast?_take_of_pos (hlimit : 0 < limit) :
    (fits.take limit).getLast? = fits[min limit fits.length - 1]? := by
  rw [List.getLast?_eq_getElem?, List.length_take]
  cases fits with
  | nil => simp
  | cons x xs =>
    rw [List.getElem?_take_of_lt]
    simp only [List.length_cons]
    omega

/-- Popping a queue finds the chunk that the heap takes off its list, and leaves the same chunks. -/
theorem scan_of_sorted (hlimit : 0 < limit) (hfree : Sorted free) (h : queue.Perm free) :
    Option.Rel (fun r r' => r.1 = r'.1 ∧ r.2.Perm r'.2) (scan limit length queue)
      (Heap.takeFree limit length free) := by
  obtain ⟨hpopped, hperm⟩ := popFits_of_sorted limit length hfree h
  obtain ⟨fits, hfits⟩ : ∃ fits, fits = free.takeWhile fun x => decide (length ≤ x.length) :=
    ⟨_, rfl⟩
  rw [← hfits] at hpopped
  rw [scan, Heap.takeFree, ← hfits]
  dsimp only
  rw [hpopped, getLast?_take_of_pos hlimit]
  cases hx : fits[min limit fits.length - 1]? with
  | none => exact .none
  | some x =>
    have hfound : free[min limit fits.length - 1]? = some x := by
      obtain ⟨hlt, rfl⟩ := List.getElem?_eq_some_iff.mp hx
      exact List.prefix_iff_getElem?.mp (hfits ▸ List.takeWhile_prefix _) _ hlt
    -- without the chunk that is taken, what is popped and what is left are the rest of the list
    have hrest : ((fits.take limit).dropLast ++ (popFits length limit queue).2).Perm
        (free.eraseIdx (min limit fits.length - 1)) := by
      obtain ⟨hlt, hget⟩ := List.getElem?_eq_some_iff.mp hfound
      have hlast : (fits.take limit).getLast? = some x := (getLast?_take_of_pos hlimit).trans hx
      have hsplit : (fits.take limit).dropLast ++ [x] = fits.take limit :=
        List.dropLast_append_getLast? x hlast
      have hwhole : (x :: ((fits.take limit).dropLast ++ (popFits length limit queue).2)).Perm
          free := by
        refine List.perm_middle.symm.trans ?_
        rw [← List.singleton_append, ← List.append_assoc, hsplit, ← hpopped]
        exact hperm
      have herase : (x :: free.eraseIdx (min limit fits.length - 1)).Perm free :=
        hget ▸ List.getElem_cons_eraseIdx_perm hlt
      exact (hwhole.trans herase.symm).cons_inv
    dsimp only [Option.map_some]
    by_cases hlonger : length < x.length
    · rw [if_pos hlonger, leftover, if_pos hlonger]
      exact .some ⟨rfl, (hrest.cons _).trans (perm_insert _ _).symm⟩
    · rw [if_neg hlonger, leftover, if_neg hlonger]
      exact .some ⟨rfl, hrest⟩

end FreeChunk

namespace Heap

open FreeChunk (Sorted)

variable {maxWords scanLimit : Nat} {h h' : Heap}

/-! ### The invariant of a heap in use -/

/-- What requests, returns, writes and clearing make of a heap without words. -/
inductive Reached (maxWords scanLimit : Nat) : Heap → Prop
  | empty : Reached maxWords scanLimit (Heap.empty maxWords scanLimit)
  | allocate {h h' : Heap} {n index : Nat} : Reached maxWords scanLimit h →
    h.allocate n = .ok (index, h') → Reached maxWords scanLimit h'
  | deallocate {h h' : Heap} {i n : Nat} : Reached maxWords scanLimit h →
    h.deallocate i n = .ok h' → Reached maxWords scanLimit h'
  | put {h : Heap} (index : Nat) (ws : List Word) : Reached maxWords scanLimit h →
    Reached maxWords scanLimit (h.put index ws)
  | clear {h : Heap} : Reached maxWords scanLimit h → Reached maxWords scanLimit h.clear

/-- The free list has its shape and its order, and the limits are those of the start. -/
structure Ordered (maxWords scanLimit : Nat) (h : Heap) : Prop where
  tidy : h.Tidy maxWords
  sorted : Sorted h.free
  scan : h.scanLimit = max scanLimit 1

namespace Ordered

theorem empty (maxWords scanLimit : Nat) : (Heap.empty maxWords scanLimit).Ordered maxWords scanLimit :=
  ⟨.empty maxWords scanLimit, .nil, rfl⟩

theorem allocate (hh : h.Ordered maxWords scanLimit) {n index : Nat}
    (hok : h.allocate n = .ok (index, h')) : h'.Ordered maxWords scanLimit := by
  refine ⟨hh.tidy.allocate hok, ?_, ?_⟩
  · rcases allocate_eq_ok hok with ⟨htake, -⟩ | ⟨-, hfree, -⟩
    · obtain ⟨k, x, -, -, -, hrest⟩ := takeFree_eq_some htake
      rw [hrest]
      split
      · exact (hh.sorted.eraseIdx k).insert _
      · exact hh.sorted.eraseIdx k
    · rw [hfree]
      exact hh.sorted
  · rcases allocate_cases hok with ⟨free, rfl⟩ | ⟨-, -, rfl⟩ <;> exact hh.scan

theorem deallocate (hh : h.Ordered maxWords scanLimit) {index n : Nat}
    (hok : h.deallocate index n = .ok h') : h'.Ordered maxWords scanLimit := by
  have htidy := hh.tidy.deallocate hok
  obtain ⟨-, -, rfl⟩ := deallocate_eq_ok hok
  exact ⟨htidy, hh.sorted.insert _, hh.scan⟩

theorem clear (hh : h.Ordered maxWords scanLimit) : h.clear.Ordered maxWords scanLimit where
  tidy :=
    { length_pos := fun _ hx => (List.not_mem_nil hx).elim
      le_size := fun _ hx => (List.not_mem_nil hx).elim
      apart := .nil
      limit := hh.tidy.limit
      size_le := Nat.zero_le _ }
  sorted := .nil
  scan := hh.scan

end Ordered

/-- Every heap in use keeps the order of its free list. -/
theorem Reached.ordered (hr : h.Reached maxWords scanLimit) : h.Ordered maxWords scanLimit := by
  induction hr with
  | empty => exact .empty maxWords scanLimit
  | allocate _ hok ih => exact ih.allocate hok
  | deallocate _ hok ih => exact ih.deallocate hok
  | put index ws _ ih => exact ⟨ih.tidy.put index ws, ih.sorted, ih.scan⟩
  | clear _ ih => exact ih.clear

/-! ### Requests -/

/-- The words of the arena that are not free. -/
def used (h : Heap) : Nat :=
  h.size - h.freeWords

/-- After a request has been granted, its block lies in the arena and holds zeros, the other words
are as they were, and as many words more are in use as the block has. -/
structure Grants (h : Heap) (length index : Nat) (h' : Heap) : Prop where
  inside : index + length ≤ h'.size
  zeros : ∀ j, index ≤ j → j < index + length → h'.words[j]? = some 0
  others : ∀ j, j < index ∨ index + length ≤ j → h'.words[j]? = h.words[j]?
  used : h'.used = h.used + length
  limits : h'.maxWords = h.maxWords ∧ h'.scanLimit = h.scanLimit

/-- The number of words in the free list is what each word adds to it. -/
theorem freeWords_eq_sum (hh : h.Tidy maxWords) :
    h.freeWords = ∑ w ∈ Finset.range h.size, coverage h.free w :=
  sum_length_eq_sum_coverage hh.le_size

/-- A block that is taken off the free list takes its words out of it. -/
theorem freeWords_of_takeFree (hh : h.Tidy maxWords) (hh' : h'.Tidy maxWords) {length index : Nat}
    (htake : takeFree h.scanLimit length h.free = some (index, h'.free)) (hsize : h'.size = h.size)
    (hle : index + length ≤ h.size) : h.freeWords = h'.freeWords + length := by
  have hblock := sum_covers (x := ⟨index, length⟩) hle
  rw [freeWords_eq_sum hh, freeWords_eq_sum hh', hsize]
  simp only [coverage_takeFree htake, Finset.sum_add_distrib, hblock]

/-- A request that is granted does what it should to the words. -/
theorem Ordered.grants (hh : h.Ordered maxWords scanLimit) {n index : Nat}
    (hok : h.allocate n = .ok (index, h')) : h.Grants (blockLength n) index h' := by
  have hh' := hh.allocate hok
  have hfree := hh.tidy.freeWords_le
  have hfree' := hh'.tidy.freeWords_le
  -- the bounds of the heap never change
  have hlimits : h'.maxWords = h.maxWords ∧ h'.scanLimit = h.scanLimit :=
    ⟨hh'.tidy.limit.trans hh.tidy.limit.symm, hh'.scan.trans hh.scan.symm⟩
  rcases allocate_eq_ok hok with ⟨htake, hsize⟩ | ⟨rfl, hkept, hsize⟩
  · have hin : index + blockLength n ≤ h.size := by
      obtain ⟨k, x, hk, rfl, hfits, -⟩ := takeFree_eq_some htake
      have hle := hh.tidy.le_size x (List.mem_of_getElem? hk)
      omega
    have hwords := freeWords_of_takeFree hh.tidy hh'.tidy htake hsize hin
    refine ⟨hsize ▸ hin, fun j hlo hhi => ?_, fun j hout => ?_, ?_, hlimits⟩
    · obtain ⟨k, rfl⟩ := Nat.exists_eq_add_of_le hlo
      exact getElem?_of_allocate hok (hsize ▸ hin) (by omega)
    · by_cases hj : j < h.size
      · exact getElem?_of_allocate_of_outside hok hj hout
      · rw [Array.getElem?_eq_none (Nat.not_lt.mp hj),
          Array.getElem?_eq_none (show h'.size ≤ j by omega)]
    · rw [Heap.used, Heap.used]
      omega
  · have hwords : h'.freeWords = h.freeWords := congrArg (fun free =>
      (free.map FreeChunk.length).foldr (· + ·) 0) hkept
    refine ⟨by omega, fun j hlo hhi => ?_, fun j hout => ?_, ?_, hlimits⟩
    · obtain ⟨k, rfl⟩ := Nat.exists_eq_add_of_le hlo
      exact getElem?_of_allocate hok (by omega) (by omega)
    · by_cases hj : j < h.size
      · exact getElem?_of_allocate_of_outside hok hj hout
      · rw [Array.getElem?_eq_none (Nat.not_lt.mp hj),
          Array.getElem?_eq_none (show h'.size ≤ j by omega)]
    · rw [Heap.used, Heap.used]
      omega

/-- The chunk that is taken is the last of those that are looked at, among all that fit in order. -/
theorem Ordered.takeFree_eq (hh : h.Ordered maxWords scanLimit) {length : Nat}
    {fits : List FreeChunk} (hfits : fits.Perm (h.free.filter fun x => length ≤ x.length))
    (horder : Sorted fits) :
    (fits = [] ∧ takeFree h.scanLimit length h.free = none) ∨
    ∃ x free, fits[min (max scanLimit 1) fits.length - 1]? = some x ∧
      takeFree h.scanLimit length h.free = some (x.index, free) ∧
      free.Perm (x.leftover length ++ h.free.erase x) := by
  -- the list is sorted, so the chunks that fit are its first ones
  have hfront : fits = h.free.takeWhile fun x => decide (length ≤ x.length) := by
    rw [hh.sorted.takeWhile_eq_filter]
    exact horder.eq_of_perm (hh.sorted.filter _) hfits.symm |>.symm
  rw [takeFree, ← hfront, hh.scan]
  dsimp only
  cases hx : fits[min (max scanLimit 1) fits.length - 1]? with
  | none =>
    refine .inl ⟨?_, rfl⟩
    have hlength := List.getElem?_eq_none_iff.mp hx
    exact List.eq_nil_of_length_eq_zero (by omega)
  | some x =>
    have hfound : h.free[min (max scanLimit 1) fits.length - 1]? = some x := by
      obtain ⟨hlt, rfl⟩ := List.getElem?_eq_some_iff.mp hx
      exact List.prefix_iff_getElem?.mp (hfront ▸ List.takeWhile_prefix _) _ hlt
    have hrest : (h.free.eraseIdx (min (max scanLimit 1) fits.length - 1)).Perm
        (h.free.erase x) := by
      obtain ⟨hlt, hget⟩ := List.getElem?_eq_some_iff.mp hfound
      have hsplit := (List.getElem_cons_eraseIdx_perm hlt).trans
        (List.perm_cons_erase (List.mem_of_getElem? hfound))
      rw [hget] at hsplit
      exact hsplit.cons_inv
    dsimp only
    -- what is left over of the chunk goes back into the list
    by_cases hlonger : length < x.length
    · rw [if_pos hlonger]
      refine .inr ⟨x, _, rfl, rfl, ?_⟩
      rw [FreeChunk.leftover, if_pos hlonger]
      exact (FreeChunk.perm_insert _ _).trans (hrest.cons _)
    · rw [if_neg hlonger]
      refine .inr ⟨x, _, rfl, rfl, ?_⟩
      rw [FreeChunk.leftover, if_neg hlonger]
      exact hrest

/-- A chunk that is taken makes no more words. -/
theorem reuses {n index : Nat} {free : List FreeChunk}
    (htake : takeFree h.scanLimit (blockLength n) h.free = some (index, free)) :
    ∃ h', h.allocate n = .ok (index, h') ∧ h'.size = h.size ∧ h'.free = free := by
  refine ⟨h.place (blockLength n) ⟨index, free, false⟩, ?_, ?_, rfl⟩
  · rw [Heap.allocate, placement, htake]
  · simp [place, size]

/-- Without a chunk to take, words are added at the end. -/
theorem Ordered.grows (hh : h.Ordered maxWords scanLimit) {n : Nat}
    (htake : takeFree h.scanLimit (blockLength n) h.free = none)
    (hroom : h.size + blockLength n ≤ maxWords) :
    ∃ h', h.allocate n = .ok (h.size, h') ∧ h'.size = h.size + blockLength n ∧
      h'.free = h.free := by
  have hlimit : ¬h.maxWords < h.words.size + blockLength n :=
    Nat.not_lt.mpr (hh.tidy.limit.symm ▸ hroom)
  refine ⟨h.place (blockLength n) ⟨h.size, h.free, true⟩, ?_, ?_, rfl⟩
  · rw [Heap.allocate, placement, htake]
    simp only [if_neg hlimit]
    rfl
  · simp [place, size]

/-- Without room for them, the request is refused. -/
theorem Ordered.refuses (hh : h.Ordered maxWords scanLimit) {n : Nat}
    (htake : takeFree h.scanLimit (blockLength n) h.free = none)
    (hroom : maxWords < h.size + blockLength n) :
    h.allocate n = .error (.exhausted (blockLength n) maxWords) := by
  have hlimit : h.maxWords < h.words.size + blockLength n := hh.tidy.limit.symm ▸ hroom
  have hplacement : h.placement (blockLength n) = .error (.exhausted (blockLength n) maxWords) := by
    rw [placement, htake]
    dsimp only
    rw [if_pos hlimit, hh.tidy.limit]
  rw [Heap.allocate, hplacement]

end Heap

/-- A heap for thirty words that looks at two chunks.  It has had four blocks of 5, 3, 1 and 3 words,
and all but the third are free again. -/
def Heap.recycling : Heap :=
  { words := Array.replicate 12 7
    free := [⟨0, 5⟩, ⟨5, 3⟩, ⟨9, 3⟩]
    maxWords := 30
    scanLimit := 2 }

theorem Heap.reached_recycling : Heap.recycling.Reached 30 2 := by
  have hblocks : Reached 30 2 ⟨Array.replicate 12 0, [], 30, 2⟩ :=
    (((Reached.empty.allocate (n := 5) rfl).allocate (n := 3) rfl).allocate (n := 1) rfl).allocate
      (n := 3) rfl
  exact (((hblocks.put 0 (List.replicate 12 7)).deallocate (i := 9) (n := 3) rfl).deallocate
    (i := 5) (n := 3) rfl).deallocate (i := 0) (n := 5) rfl

end WordScript
