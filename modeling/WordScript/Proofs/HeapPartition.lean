/-
The allocator never hands out a word twice.

A client asks the heap for blocks and gives live blocks back, in any order and for
as long as it likes.  At every moment the live blocks and the chunks of the free
list partition the arena: each word of it lies in exactly one of them.  Everything
else follows from the partition.

* `coverage` — how many chunks of a list hold a word; the partition says that it
  is one inside the arena and zero outside;
* `coverage_takeFree` — taking a block off the free list moves its words from the
  list to the block, whichever chunk was chosen and split;
* `Client.Partition.request`, `Client.Partition.giveBack` — what one step of a
  client preserves;
* `Client.partition_of_reaches` — the partition, the success of every return, and
  the separation of every new block from the live ones.

Design notes: coverage is a count, so a chunk that is listed twice is noticed, and
it does not depend on the order of the list, so neither does the argument.
-/
import WordScript.Heap

namespace WordScript

namespace FreeChunk

/-- Whether a word of the arena lies in the chunk. -/
def covers (x : FreeChunk) (w : Nat) : Bool :=
  x.index ≤ w && w < x.index + x.length

@[simp] theorem covers_eq_true {x : FreeChunk} {w : Nat} :
    x.covers w = true ↔ x.index ≤ w ∧ w < x.index + x.length := by
  simp [covers]

/-- A chunk that meets a range has a word of that range. -/
theorem exists_covers_of_meets {x : FreeChunk} {index length : Nat} (hx : 0 < x.length)
    (hlength : 0 < length) (h : x.meets index length = true) :
    ∃ w, x.covers w = true ∧ index ≤ w ∧ w < index + length := by
  simp only [meets, Bool.and_eq_true, decide_eq_true_eq] at h
  refine ⟨max x.index index, ?_, ?_, ?_⟩
  · rw [covers_eq_true]
    omega
  · omega
  · omega

end FreeChunk

/-- How many chunks of a list hold a word. -/
def coverage (xs : List FreeChunk) (w : Nat) : Nat :=
  xs.countP fun x => x.covers w

@[simp] theorem coverage_nil (w : Nat) : coverage [] w = 0 := rfl

theorem coverage_cons (x : FreeChunk) (xs : List FreeChunk) (w : Nat) :
    coverage (x :: xs) w = coverage xs w + if x.covers w then 1 else 0 := by
  simp [coverage, List.countP_cons]

theorem coverage_append (xs ys : List FreeChunk) (w : Nat) :
    coverage (xs ++ ys) w = coverage xs w + coverage ys w := by
  simp [coverage]

theorem coverage_perm {xs ys : List FreeChunk} (h : xs.Perm ys) (w : Nat) :
    coverage xs w = coverage ys w :=
  h.countP_eq _

/-- A chunk of the list that holds a word is counted. -/
theorem coverage_pos {xs : List FreeChunk} {x : FreeChunk} {w : Nat} (hx : x ∈ xs)
    (hw : x.covers w = true) : 0 < coverage xs w :=
  List.countP_pos_iff.mpr ⟨x, hx, hw⟩

theorem coverage_insert (x : FreeChunk) (xs : List FreeChunk) (w : Nat) :
    coverage (x.insert xs) w = coverage xs w + if x.covers w then 1 else 0 := by
  rw [coverage_perm (FreeChunk.perm_insert x xs), coverage_cons]

/-- Dropping the chunk at a place takes its words out of the list. -/
theorem coverage_eraseIdx {xs : List FreeChunk} {k : Nat} {x : FreeChunk} (h : xs[k]? = some x)
    (w : Nat) : coverage xs w = coverage (xs.eraseIdx k) w + if x.covers w then 1 else 0 := by
  induction xs generalizing k with
  | nil => simp at h
  | cons y ys ih =>
    cases k with
    | zero =>
      obtain rfl : y = x := by simpa using h
      rw [List.eraseIdx_cons_zero, coverage_cons]
    | succ k =>
      rw [List.eraseIdx_cons_succ, coverage_cons, coverage_cons, ih (by simpa using h)]
      omega

/-- A word lies in a chunk exactly when it lies in one of the two parts it is cut into. -/
theorem covers_split (index length total : Nat) (h : length ≤ total) (w : Nat) :
    (if (FreeChunk.mk index total).covers w then 1 else 0) =
      (if (FreeChunk.mk (index + length) (total - length)).covers w then 1 else 0) +
        if (FreeChunk.mk index length).covers w then 1 else 0 := by
  simp only [FreeChunk.covers_eq_true]
  split <;> split <;> split <;> omega

namespace Heap

theorem blockLength_pos (n : Nat) : 0 < blockLength n := by
  rw [blockLength]
  omega

/-- What `takeFree` finds: a chunk of the list that is long enough.  Its tail goes back to the
list unless it is empty. -/
theorem takeFree_eq_some {scanLimit length index : Nat} {free rest : List FreeChunk}
    (h : takeFree scanLimit length free = some (index, rest)) :
    ∃ (k : Nat) (x : FreeChunk), free[k]? = some x ∧ x.index = index ∧ length ≤ x.length ∧
      rest = if length < x.length then
          FreeChunk.insert ⟨index + length, x.length - length⟩ (free.eraseIdx k)
        else free.eraseIdx k := by
  rw [takeFree] at h
  split at h
  · cases h
  · next x hx =>
    -- the chunks that fit are a front part of the list, so the places agree
    have hfree : free[min scanLimit (free.takeWhile fun x => length ≤ x.length).length - 1]? =
        some x := by
      obtain ⟨hlt, rfl⟩ := List.getElem?_eq_some_iff.mp hx
      exact List.prefix_iff_getElem?.mp (List.takeWhile_prefix _) _ hlt
    refine ⟨_, x, hfree, ?_⟩
    have hfits : length ≤ x.length := by
      have hall := List.all_eq_true.mp List.all_takeWhile x (List.mem_of_getElem? hx)
      simpa using hall
    split at h
    · next hlt =>
      cases h
      exact ⟨rfl, hfits, (if_pos hlt).symm⟩
    · next hlt =>
      cases h
      exact ⟨rfl, hfits, (if_neg hlt).symm⟩

/-- The words of a block that is taken off the free list are the words that the list loses. -/
theorem coverage_takeFree {scanLimit length index : Nat} {free rest : List FreeChunk}
    (h : takeFree scanLimit length free = some (index, rest)) (w : Nat) :
    coverage free w = coverage rest w + if (FreeChunk.mk index length).covers w then 1 else 0 := by
  obtain ⟨k, x, hk, rfl, hfits, rfl⟩ := takeFree_eq_some h
  rw [coverage_eraseIdx hk w]
  by_cases hlt : length < x.length
  · rw [if_pos hlt, coverage_insert, covers_split x.index length x.length hfits w]
    omega
  · obtain rfl : length = x.length := by omega
    rw [if_neg hlt]

/-- A free list of chunks with words keeps to that when a block is taken off it. -/
theorem length_pos_of_mem_takeFree {scanLimit length index : Nat} {free rest : List FreeChunk}
    (h : takeFree scanLimit length free = some (index, rest))
    (hpos : ∀ x ∈ free, 0 < x.length) : ∀ x ∈ rest, 0 < x.length := by
  obtain ⟨k, x, -, rfl, -, rfl⟩ := takeFree_eq_some h
  intro y hy
  split at hy
  · next hlt =>
    rcases FreeChunk.mem_insert.mp hy with rfl | hy
    · show 0 < x.length - length
      omega
    · exact hpos y (List.mem_of_mem_eraseIdx hy)
  · exact hpos y (List.mem_of_mem_eraseIdx hy)

/-- What a request does: it takes a block off the free list and keeps the arena as long as it is,
or it leaves the list alone and adds a block at the end of the arena. -/
theorem allocate_eq_ok {h h' : Heap} {n index : Nat} (hok : h.allocate n = .ok (index, h')) :
    (takeFree h.scanLimit (blockLength n) h.free = some (index, h'.free) ∧ h'.size = h.size) ∨
    (index = h.size ∧ h'.free = h.free ∧ h'.size = h.size + blockLength n) := by
  rw [allocate, placement] at hok
  split at hok
  · cases hok
  · next p hp =>
    split at hp
    · next i free htake =>
      cases hp
      cases hok
      refine .inl ⟨htake, ?_⟩
      simp [place, size]
    · split at hp
      · cases hp
      · cases hp
        cases hok
        refine .inr ⟨rfl, rfl, ?_⟩
        simp [place, size]

end Heap

/-- A block as its owner knows it: where it is and how many words were asked for. -/
structure HeapBlock where
  index : Nat
  requested : Nat
deriving Repr, DecidableEq

/-- The words that a block takes up. -/
def HeapBlock.chunk (b : HeapBlock) : FreeChunk :=
  ⟨b.index, Heap.blockLength b.requested⟩

theorem HeapBlock.chunk_length_pos (b : HeapBlock) : 0 < b.chunk.length :=
  Heap.blockLength_pos _

/-- A heap and the blocks of it that have been handed out and not yet given back. -/
structure Client where
  heap : Heap
  live : List HeapBlock

namespace Client

/-- A client of a heap without words. -/
def start (maxWords scanLimit : Nat) : Client :=
  ⟨Heap.empty maxWords scanLimit, []⟩

/-- Asks for a block; a request that is refused changes nothing. -/
def request (s : Client) (n : Nat) : Client :=
  match s.heap.allocate n with
  | .ok (index, heap) => ⟨heap, ⟨index, n⟩ :: s.live⟩
  | .error _ => s

/-- Gives a block back, with the length it was asked for. -/
def giveBack (s : Client) (b : HeapBlock) : Client :=
  match s.heap.deallocate b.index b.requested with
  | .ok heap => ⟨heap, s.live.erase b⟩
  | .error _ => s

/-- The clients that requests and returns of live blocks lead to. -/
inductive Reaches (s : Client) : Client → Prop
  | refl : Reaches s s
  | request {t : Client} (n : Nat) : Reaches s t → Reaches s (t.request n)
  | giveBack {t : Client} {b : HeapBlock} : Reaches s t → b ∈ t.live → Reaches s (t.giveBack b)

/-- Live blocks and free chunks together. -/
def pieces (s : Client) : List FreeChunk :=
  s.live.map HeapBlock.chunk ++ s.heap.free

/-- The live blocks and the free chunks partition the arena, and no chunk is empty. -/
structure Partition (s : Client) : Prop where
  /-- every word of the arena lies in exactly one piece, and no piece has any other word -/
  coverage_pieces : ∀ w, coverage s.pieces w = if w < s.heap.size then 1 else 0
  /-- no chunk of the free list is empty -/
  free_length_pos : ∀ x ∈ s.heap.free, 0 < x.length

namespace Partition

variable {s : Client}

/-- The words of a piece lie in the arena. -/
theorem lt_size (hs : s.Partition) {x : FreeChunk} (hx : x ∈ s.pieces) {w : Nat}
    (hw : x.covers w = true) : w < s.heap.size := by
  have hpos := coverage_pos hx hw
  rw [hs.coverage_pieces] at hpos
  by_cases hsize : w < s.heap.size
  · exact hsize
  · rw [if_neg hsize] at hpos
    exact absurd hpos (Nat.lt_irrefl 0)

theorem live_le_size (hs : s.Partition) {b : HeapBlock} (hb : b ∈ s.live) :
    b.index + Heap.blockLength b.requested ≤ s.heap.size := by
  have hpos := b.chunk_length_pos
  have hlast : b.chunk.covers (b.index + Heap.blockLength b.requested - 1) = true := by
    rw [FreeChunk.covers_eq_true]
    simp only [HeapBlock.chunk] at hpos ⊢
    omega
  have hmem : b.chunk ∈ s.pieces := List.mem_append_left _ (List.mem_map_of_mem hb)
  have := hs.lt_size hmem hlast
  omega

/-- No word of a live block is free. -/
theorem not_covers_of_mem_free (hs : s.Partition) {b : HeapBlock} (hb : b ∈ s.live) {x : FreeChunk}
    (hx : x ∈ s.heap.free) {w : Nat} (hw : x.covers w = true) : b.chunk.covers w = false := by
  rw [Bool.eq_false_iff]
  intro hbw
  have hlive := coverage_pos (List.mem_map_of_mem hb) hbw
  have hfree := coverage_pos hx hw
  have hone := hs.coverage_pieces w
  rw [pieces, coverage_append] at hone
  split at hone <;> omega

theorem start (maxWords scanLimit : Nat) : (Client.start maxWords scanLimit).Partition where
  coverage_pieces w := by
    simp [pieces, Client.start, Heap.empty, Heap.size]
  free_length_pos x hx := by
    simp [Client.start, Heap.empty] at hx

/-- A request that is granted keeps the partition. -/
theorem allocate (hs : s.Partition) {n index : Nat} {h' : Heap}
    (hok : s.heap.allocate n = .ok (index, h')) :
    Partition ⟨h', ⟨index, n⟩ :: s.live⟩ := by
  rcases Heap.allocate_eq_ok hok with ⟨htake, hsize⟩ | ⟨hindex, hfree, hsize⟩
  · refine ⟨fun w => ?_, Heap.length_pos_of_mem_takeFree htake hs.free_length_pos⟩
    have hone := hs.coverage_pieces w
    have hmoved := Heap.coverage_takeFree htake w
    simp only [pieces, List.map_cons, List.cons_append, coverage_cons, coverage_append,
      HeapBlock.chunk] at hone ⊢
    rw [hsize]
    omega
  · refine ⟨fun w => ?_, by rw [hfree]; exact hs.free_length_pos⟩
    have hone := hs.coverage_pieces w
    simp only [pieces, List.map_cons, List.cons_append, coverage_cons, coverage_append,
      HeapBlock.chunk, FreeChunk.covers_eq_true] at hone ⊢
    rw [hsize, hfree, hindex, hone]
    split <;> split <;> split <;> omega

/-- A live block can be given back. -/
theorem deallocate_eq_ok (hs : s.Partition) {b : HeapBlock} (hb : b ∈ s.live) :
    s.heap.deallocate b.index b.requested =
      .ok { s.heap with free := b.chunk.insert s.heap.free } := by
  have hbounds : s.heap.inBounds b.index (Heap.blockLength b.requested) = true := by
    rw [Heap.inBounds, decide_eq_true_eq]
    exact hs.live_le_size hb
  have hfree : (s.heap.free.any fun x => x.meets b.index (Heap.blockLength b.requested)) = false := by
    rw [List.any_eq_false]
    intro x hx hmeets
    obtain ⟨w, hw, hlo, hhi⟩ := FreeChunk.exists_covers_of_meets (hs.free_length_pos x hx)
      (Heap.blockLength_pos _) hmeets
    have hnot := hs.not_covers_of_mem_free hb hx hw
    have hin : b.chunk.covers w = true := FreeChunk.covers_eq_true.mpr ⟨hlo, hhi⟩
    rw [hin] at hnot
    cases hnot
  simp [Heap.deallocate, hbounds, hfree, HeapBlock.chunk]

/-- Giving a live block back keeps the partition. -/
theorem deallocate (hs : s.Partition) {b : HeapBlock} (hb : b ∈ s.live) :
    Partition ⟨{ s.heap with free := b.chunk.insert s.heap.free }, s.live.erase b⟩ where
  coverage_pieces w := by
    have hone := hs.coverage_pieces w
    have hperm := coverage_perm ((List.perm_cons_erase hb).map HeapBlock.chunk) w
    rw [List.map_cons, coverage_cons] at hperm
    show coverage ((s.live.erase b).map HeapBlock.chunk ++ b.chunk.insert s.heap.free) w =
      if w < s.heap.size then 1 else 0
    rw [coverage_append, coverage_insert, ← hone, pieces, coverage_append]
    omega
  free_length_pos x hx := by
    rcases FreeChunk.mem_insert.mp hx with rfl | hx
    · exact b.chunk_length_pos
    · exact hs.free_length_pos x hx

end Partition

/-- The partition survives a request, granted or refused. -/
theorem Partition.request {s : Client} (hs : s.Partition) (n : Nat) : (s.request n).Partition := by
  rw [Client.request]
  split
  · next hok => exact hs.allocate hok
  · exact hs

/-- The partition survives the return of a live block. -/
theorem Partition.giveBack {s : Client} (hs : s.Partition) {b : HeapBlock} (hb : b ∈ s.live) :
    (s.giveBack b).Partition := by
  rw [Client.giveBack, hs.deallocate_eq_ok hb]
  exact hs.deallocate hb

theorem Reaches.partition {s t : Client} (h : s.Reaches t) (hs : s.Partition) : t.Partition := by
  induction h with
  | refl => exact hs
  | request n _ ih => exact ih.request n
  | giveBack _ hb ih => exact ih.giveBack hb

/-- A block that is handed out lies in the arena and has no word of a block that is live. -/
theorem Partition.allocate_separate {s : Client} (hs : s.Partition) {n index : Nat} {heap : Heap}
    (hok : s.heap.allocate n = .ok (index, heap)) :
    index + Heap.blockLength n ≤ heap.size ∧
      ∀ b ∈ s.live, ∀ w, (HeapBlock.mk index n).chunk.covers w = true → b.chunk.covers w = false := by
  have hs' := hs.allocate hok
  refine ⟨hs'.live_le_size (b := ⟨index, n⟩) List.mem_cons_self, fun b hb w hw => ?_⟩
  rw [Bool.eq_false_iff]
  intro hbw
  -- after the request the word would be counted twice among the live blocks
  have hlive := coverage_pos (List.mem_map_of_mem hb) hbw
  have hone := hs'.coverage_pieces w
  rw [pieces, coverage_append, List.map_cons, coverage_cons, if_pos hw] at hone
  split at hone <;> omega

/-- Whatever a client asks for and gives back, live blocks and free chunks partition the arena;
every return of a live block succeeds; and a block that is handed out lies in the arena, apart from
all live blocks. -/
theorem partition_of_reaches (maxWords scanLimit : Nat) {s : Client}
    (h : (start maxWords scanLimit).Reaches s) :
    s.Partition ∧
    (∀ b ∈ s.live, ∃ heap, s.heap.deallocate b.index b.requested = .ok heap) ∧
    ∀ (n index : Nat) (heap : Heap), s.heap.allocate n = .ok (index, heap) →
      index + Heap.blockLength n ≤ heap.size ∧
        ∀ b ∈ s.live, ∀ w, (HeapBlock.mk index n).chunk.covers w = true →
          b.chunk.covers w = false := by
  have hs := h.partition (Partition.start maxWords scanLimit)
  exact ⟨hs, fun b hb => ⟨_, hs.deallocate_eq_ok hb⟩, fun n index heap hok =>
    hs.allocate_separate hok⟩

/-- A client of a heap of at most nine words: a block of five is split by a request for two, and an
empty block is given back. -/
theorem partition_of_split_chunk :
    let s := ((((start 9 2).request 5).request 0).giveBack ⟨0, 5⟩).request 2
    (start 9 2).Reaches s ∧ s.live = [⟨0, 2⟩, ⟨5, 0⟩] ∧ s.heap.free = [⟨2, 3⟩] ∧ s.Partition := by
  have h : (start 9 2).Reaches (((((start 9 2).request 5).request 0).giveBack ⟨0, 5⟩).request 2) :=
    .request 2 (.giveBack (.request 0 (.request 5 .refl)) (by decide))
  exact ⟨h, by decide, by decide, (partition_of_reaches 9 2 h).1⟩

end Client

end WordScript
