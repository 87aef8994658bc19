/-
The free list under any program.

A program may free addresses and lengths that it made up, and a list may find its
header overwritten before it grows.  The heap does not trust them: it checks every
return against the arena and against the free list.  So the free list keeps its shape
whatever instructions and host functions do, and they touch the heap by requests,
returns and writes alone.

* `Heap.Tidy` — the shape of the free list; `Heap.Tidy.reaches` keeps it under requests,
  returns and writes;
* `Machine.Releases` — what a return does, and when it is refused;
* `Exec.Handles` — an effect that works on the heap by these operations only;
* `tidy_of_verified` — the free list in every state of a machine with a verified
  program, and in the middle of its instructions.
-/
import Mathlib.Algebra.BigOperators.Intervals
import Mathlib.Algebra.Order.BigOperators.Group.Finset
import WordScript.Proofs.HeapPartition
import WordScript.Proofs.HeapWords
import WordScript.Proofs.VerifiedRuns

namespace WordScript

/-! ### Chunks apart from one another -/

/-- Two chunks without a word in common. -/
def FreeChunk.Apart (x y : FreeChunk) : Prop :=
  x.index + x.length ≤ y.index ∨ y.index + y.length ≤ x.index

theorem FreeChunk.Apart.symm {x y : FreeChunk} (h : x.Apart y) : y.Apart x :=
  Or.symm h

theorem FreeChunk.Apart.covers_eq_false {x y : FreeChunk} (h : x.Apart y) {w : Nat}
    (hx : x.covers w = true) : y.covers w = false := by
  rw [Bool.eq_false_iff, ne_eq, covers_eq_true]
  rw [covers_eq_true] at hx
  unfold Apart at h
  omega

/-- A list of chunks that are pairwise apart holds no word twice. -/
theorem coverage_le_one {xs : List FreeChunk} (h : xs.Pairwise FreeChunk.Apart) (w : Nat) :
    coverage xs w ≤ 1 := by
  induction h with
  | nil => exact Nat.zero_le _
  | @cons x xs hx _ ih =>
    rw [coverage_cons]
    split
    · next hw =>
      have hnone : coverage xs w = 0 := List.countP_eq_zero.mpr fun y hy => by
        rw [(hx y hy).covers_eq_false hw]
        exact Bool.false_ne_true
      omega
    · exact ih

/-- The words of a chunk, counted one by one. -/
theorem sum_covers {x : FreeChunk} {n : Nat} (h : x.index + x.length ≤ n) :
    ∑ w ∈ Finset.range n, (if x.covers w then 1 else 0) = x.length := by
  have hfilter : (Finset.range n).filter (fun w => x.covers w = true) =
      Finset.Ico x.index (x.index + x.length) := by
    ext w
    rw [Finset.mem_filter, Finset.mem_range, Finset.mem_Ico, FreeChunk.covers_eq_true]
    omega
  rw [← Finset.card_filter, hfilter, Nat.card_Ico, Nat.add_sub_cancel_left]

/-- The lengths of chunks inside an arena count each word as often as it is held. -/
theorem sum_length_eq_sum_coverage {xs : List FreeChunk} {n : Nat}
    (h : ∀ x ∈ xs, x.index + x.length ≤ n) :
    (xs.map FreeChunk.length).foldr (· + ·) 0 = ∑ w ∈ Finset.range n, coverage xs w := by
  induction xs with
  | nil => simp
  | cons x xs ih =>
    have hx := sum_covers (h x List.mem_cons_self)
    have hxs := ih fun y hy => h y (List.mem_cons_of_mem x hy)
    simp only [coverage_cons, Finset.sum_add_distrib, hx, ← hxs, List.map_cons, List.foldr_cons]
    exact Nat.add_comm _ _

namespace Heap

/-! ### The shape of the free list -/

/-- The chunks of the free list have words, lie in the arena and are pairwise apart, and the arena
keeps to its limit. -/
structure Tidy (maxWords : Nat) (h : Heap) : Prop where
  length_pos : ∀ x ∈ h.free, 0 < x.length
  le_size : ∀ x ∈ h.free, x.index + x.length ≤ h.size
  apart : h.free.Pairwise FreeChunk.Apart
  limit : h.maxWords = maxWords
  size_le : h.size ≤ maxWords

/-- The words of a range are in use: they lie in the arena, and no chunk of the free list holds one
of them. -/
def InUse (h : Heap) (index length : Nat) : Prop :=
  ∀ w, index ≤ w → w < index + length → w < h.size ∧ ∀ x ∈ h.free, x.covers w = false

/-- When a block can be taken back, and what is left to do then. -/
theorem deallocate_eq_ok {h h' : Heap} {index n : Nat} (hok : h.deallocate index n = .ok h') :
    index + blockLength n ≤ h.size ∧ (∀ x ∈ h.free, x.meets index (blockLength n) = false) ∧
      h' = { h with free := FreeChunk.insert ⟨index, blockLength n⟩ h.free } := by
  rw [deallocate] at hok
  split at hok
  · cases hok
  · next hbounds =>
    split at hok
    · cases hok
    · next hmeets =>
      cases hok
      refine ⟨by simpa [inBounds, size] using hbounds, fun x hx => ?_, rfl⟩
      rw [Bool.eq_false_iff]
      exact fun hmeet => hmeets (List.any_eq_true.mpr ⟨x, hx, hmeet⟩)

/-- A block that is refused reaches beyond the arena, or meets the free list. -/
theorem deallocate_eq_error {h : Heap} {index n : Nat} {e : HeapError}
    (herror : h.deallocate index n = .error e) :
    h.size < index + blockLength n ∨ ∃ x ∈ h.free, x.meets index (blockLength n) = true := by
  rw [deallocate] at herror
  split at herror
  · next hbounds =>
    left
    simpa [inBounds, size] using hbounds
  · split at herror
    · next hmeets =>
      right
      exact List.any_eq_true.mp hmeets
    · cases herror

namespace Tidy

variable {maxWords : Nat} {h h' : Heap}

theorem empty (maxWords scanLimit : Nat) : (Heap.empty maxWords scanLimit).Tidy maxWords where
  length_pos _ hx := nomatch hx
  le_size _ hx := nomatch hx
  apart := .nil
  limit := rfl
  size_le := Nat.zero_le _

theorem freeWords_le (hh : h.Tidy maxWords) : h.freeWords ≤ h.size := by
  have hcount := sum_length_eq_sum_coverage hh.le_size
  -- chunks apart from one another hold no word twice
  have hone : ∑ w ∈ Finset.range h.size, coverage h.free w ≤ ∑ _w ∈ Finset.range h.size, 1 :=
    Finset.sum_le_sum fun w _ => coverage_le_one hh.apart w
  rw [← Finset.card_eq_sum_ones, Finset.card_range] at hone
  rw [freeWords, hcount]
  exact hone

/-- Words in the arena can be written at will. -/
theorem put (hh : h.Tidy maxWords) (index : Nat) (ws : List Word) :
    (h.put index ws).Tidy maxWords where
  length_pos := hh.length_pos
  le_size x hx := by
    have hle := hh.le_size x hx
    simpa [Heap.put, Heap.size] using hle
  apart := hh.apart
  limit := hh.limit
  size_le := by
    have hle := hh.size_le
    simpa [Heap.put, Heap.size] using hle

/-- A request cuts its block off the front of a chunk, or leaves the free list alone. -/
theorem allocate (hh : h.Tidy maxWords) {n index : Nat}
    (hok : h.allocate n = .ok (index, h')) : h'.Tidy maxWords := by
  have hlimit := hh.limit
  obtain ⟨hmax, -, hsize⟩ := size_le_of_allocate hok (by rw [hlimit]; exact hh.size_le)
  rw [hmax, hlimit] at hsize
  rcases allocate_eq_ok hok with ⟨htake, hkept⟩ | ⟨-, hfree, hgrown⟩
  · have hpos := length_pos_of_mem_takeFree htake hh.length_pos
    obtain ⟨k, x, hk, rfl, hfits, hrest⟩ := takeFree_eq_some htake
    obtain ⟨hlt, rfl⟩ := List.getElem?_eq_some_iff.mp hk
    have hmem : h.free[k] ∈ h.free := List.getElem_mem hlt
    have hperm : (h.free[k] :: h.free.eraseIdx k).Perm h.free :=
      List.getElem_cons_eraseIdx_perm hlt
    have hpairs : (h.free[k] :: h.free.eraseIdx k).Pairwise FreeChunk.Apart :=
      (hperm.pairwise_iff FreeChunk.Apart.symm).mpr hh.apart
    obtain ⟨hothers, hleft⟩ := List.pairwise_cons.mp hpairs
    -- what is given back is the tail of the chunk, so it is apart from whatever the chunk was
    have htail : ((FreeChunk.mk (h.free[k].index + blockLength n)
        (h.free[k].length - blockLength n)) :: h.free.eraseIdx k).Pairwise FreeChunk.Apart := by
      refine List.pairwise_cons.mpr ⟨fun y hy => ?_, hleft⟩
      have hy := hothers y hy
      unfold FreeChunk.Apart at hy ⊢
      simp only
      omega
    refine ⟨hpos, fun y hy => ?_, ?_, hmax.trans hlimit, hsize⟩
    · rw [hkept]
      rw [hrest] at hy
      split at hy
      · rcases FreeChunk.mem_insert.mp hy with rfl | hy
        · have hle := hh.le_size _ hmem
          simp only
          omega
        · exact hh.le_size y (List.mem_of_mem_eraseIdx hy)
      · exact hh.le_size y (List.mem_of_mem_eraseIdx hy)
    · rw [hrest]
      split
      · exact ((FreeChunk.perm_insert _ _).pairwise_iff FreeChunk.Apart.symm).mpr htail
      · exact hleft
  · -- the arena has grown, and the free list lies in the old part of it
    refine ⟨by rw [hfree]; exact hh.length_pos, fun x hx => ?_, by rw [hfree]; exact hh.apart,
      hmax.trans hlimit, hsize⟩
    rw [hfree] at hx
    have hle := hh.le_size x hx
    omega

/-- A block that is taken back was apart from all free chunks. -/
theorem deallocate (hh : h.Tidy maxWords) {index n : Nat}
    (hok : h.deallocate index n = .ok h') : h'.Tidy maxWords := by
  obtain ⟨hbounds, hmeets, rfl⟩ := deallocate_eq_ok hok
  have hpos := blockLength_pos n
  have hapart : ∀ x ∈ h.free, (FreeChunk.mk index (blockLength n)).Apart x := by
    intro x hx
    have hmeet := hmeets x hx
    simp only [FreeChunk.meets, Bool.and_eq_false_iff, decide_eq_false_iff_not] at hmeet
    unfold FreeChunk.Apart
    simp only
    omega
  refine ⟨fun x hx => ?_, fun x hx => ?_, ?_, hh.limit, hh.size_le⟩
  · rcases FreeChunk.mem_insert.mp hx with rfl | hx
    · exact hpos
    · exact hh.length_pos x hx
  · rcases FreeChunk.mem_insert.mp hx with rfl | hx
    · exact hbounds
    · exact hh.le_size x hx
  · exact ((FreeChunk.perm_insert _ _).pairwise_iff FreeChunk.Apart.symm).mpr
      (List.pairwise_cons.mpr ⟨hapart, hh.apart⟩)

/-- The free list keeps its shape. -/
theorem reaches (hh : h.Tidy maxWords) (hr : h.Reaches h') : h'.Tidy maxWords := by
  induction hr with
  | refl => exact hh
  | allocate _ hok ih => exact ih.allocate hok
  | deallocate _ hok ih => exact ih.deallocate hok
  | put index ws _ ih => exact ih.put index ws

/-- In a tidy heap a range in use is one that the heap takes back. -/
theorem inUse_iff (hh : h.Tidy maxWords) {index length : Nat} (hpos : 0 < length) :
    h.InUse index length ↔
      index + length ≤ h.size ∧ ∀ x ∈ h.free, x.meets index length = false := by
  constructor
  · intro huse
    refine ⟨?_, fun x hx => ?_⟩
    · have hlast := (huse (index + length - 1) (by omega) (by omega)).1
      omega
    · rw [Bool.eq_false_iff]
      intro hmeets
      -- where two ranges meet there is a word of both, since neither is empty
      obtain ⟨w, hw, hlo, hhi⟩ :=
        FreeChunk.exists_covers_of_meets (hh.length_pos x hx) hpos hmeets
      have hnot := (huse w hlo hhi).2 x hx
      rw [hw] at hnot
      cases hnot
  · rintro ⟨hsize, hmeets⟩ w hlo hhi
    refine ⟨by omega, fun x hx => ?_⟩
    rw [Bool.eq_false_iff, ne_eq, FreeChunk.covers_eq_true]
    rintro ⟨hxlo, hxhi⟩
    have hmeet := hmeets x hx
    simp only [FreeChunk.meets, Bool.and_eq_false_iff, decide_eq_false_iff_not] at hmeet
    omega

end Tidy

end Heap

/-- A return succeeds exactly if the words are in use.  Then as many words are free as before and
those, and no word has changed; otherwise nothing has. -/
def Machine.Releases (m : Machine) (index n : Nat) : Prop :=
  match Exec.deallocate index n m with
  | .ok _ m' =>
    m.heap.InUse index (max n 1) ∧ m'.heap.freeWords = m.heap.freeWords + max n 1 ∧
      m'.heap.words = m.heap.words
  | .error _ m' => ¬m.heap.InUse index (max n 1) ∧ m'.heap = m.heap

theorem Heap.Tidy.releases {maxWords : Nat} {m : Machine} (h : m.heap.Tidy maxWords)
    (index n : Nat) : m.Releases index n := by
  have hiff : m.heap.InUse index (Heap.blockLength n) ↔ _ := h.inUse_iff (Heap.blockLength_pos n)
  rw [Machine.Releases, Exec.deallocate]
  cases hfree : m.heap.deallocate index n with
  | ok heap =>
    obtain ⟨hbounds, hmeets, rfl⟩ := Heap.deallocate_eq_ok hfree
    refine ⟨hiff.mpr ⟨hbounds, hmeets⟩, ?_, rfl⟩
    -- where the chunk is inserted makes no difference to the sum
    have hperm := (FreeChunk.perm_insert ⟨index, Heap.blockLength n⟩ m.heap.free).map
      FreeChunk.length
    show ((FreeChunk.insert _ m.heap.free).map FreeChunk.length).foldr (· + ·) 0 = _
    rw [hperm.foldr_eq]
    exact Nat.add_comm _ _
  | error e =>
    refine ⟨fun huse => ?_, rfl⟩
    obtain ⟨hbounds, hmeets⟩ := hiff.mp huse
    rcases Heap.deallocate_eq_error hfree with hsize | ⟨x, hx, hmeet⟩
    · omega
    · rw [hmeets x hx] at hmeet
      cases hmeet

/-! ### Effects of the machine -/

namespace Exec

variable {α β : Type}

/-- The machine after an effect, whether it succeeds or faults. -/
def ended : EStateM.Result Fault Machine α → Machine
  | .ok _ m | .error _ m => m

/-- Whether it succeeds or faults, the effect works on the heap by requests, returns and writes. -/
def Handles (x : Exec α) : Prop :=
  ∀ m : Machine, m.heap.Reaches (ended (x m)).heap

namespace Handles

theorem pure (a : α) : Handles (pure a : Exec α) :=
  fun _ => .refl

theorem throw (f : Fault) : Handles (throw f : Exec α) :=
  fun _ => .refl

theorem bind {x : Exec α} {f : α → Exec β} (hx : Handles x) (hf : ∀ a, Handles (f a)) :
    Handles (x >>= f) := by
  intro m
  have h := hx m
  show m.heap.Reaches (ended (EStateM.bind x f m)).heap
  rw [EStateM.bind]
  cases hxm : x m with
  | ok a m₁ =>
    rw [hxm] at h
    exact h.trans (hf a m₁)
  | error e m₁ =>
    rw [hxm] at h
    exact h

end Handles

theorem Acts.handles {confined : Bool} {x : Exec α} (h : Acts confined x) : Handles x := by
  intro m
  obtain ⟨r, m', printed, hx, hheap, -⟩ := h m
  rw [show x m = _ from hx m.resumeAt m.log]
  cases r with
  | ok a => exact hheap
  | error f => exact hheap

/-- Every instruction, whether or not its program has been verified. -/
theorem handles_perform (p : Program) (c : Chunk) (time : Float) (i : Instruction) (op : Opcode) :
    Handles (perform p c time i op) := by
  by_cases hyield : op = .yield
  · subst hyield
    -- the time to go on is written down outside the heap
    have hpop : Acts false popWord := acts_popWord
    have hwait : Handles (suspend time) := hpop.handles.bind fun _ _ => .refl
    exact hwait.bind fun _ => .pure _
  · have hacts : Acts false (perform p c time i op) :=
      acts_perform time hyield fun h => by cases h
    exact hacts.handles

theorem handles_step (p : Program) (time : Float) : Handles (step p time) := by
  refine acts_fetch.handles.bind fun fetched => ?_
  obtain ⟨c, i⟩ := fetched
  dsimp only
  split
  · exact handles_perform _ _ _ _ _
  · exact .throw _

theorem handles_execute (p : Program) (time : Float) (fuel : Nat) :
    Handles (execute p time fuel) := by
  induction fuel with
  | zero => exact .pure _
  | succ fuel ih =>
    refine (handles_step p time).bind fun flow => ?_
    cases flow with
    | next => exact ih
    | stop => exact .pure _

end Exec

/-! ### Machines -/

namespace Machine

theorem reaches_resume (m : Machine) (fuel : Nat) (time : Float) (p : Program) :
    m.heap.Reaches (m.resume fuel time p).2.heap := by
  have h := Exec.handles_execute p time fuel { m with state := .running }
  rw [resume]
  cases hx : Exec.execute p time fuel { m with state := .running } with
  | ok stopped m' =>
    rw [hx] at h
    cases stopped <;> exact h
  | error f m' =>
    rw [hx] at h
    exact h

theorem reaches_run (m : Machine) (fuel : Nat) (time : Float) :
    m.heap.Reaches (m.run fuel time).2.heap := by
  rw [run]
  cases m.program with
  | none => exact .refl
  | some p =>
    cases m.state with
    | halt => exact .refl
    | running => exact m.reaches_resume fuel time p
    | yield =>
      show m.heap.Reaches (if time < m.resumeAt then _ else _ : _ × Machine).2.heap
      split
      · exact .refl
      · exact m.reaches_resume fuel time p

/-- One action of a host. -/
theorem reaches_host (m : Machine) (action : HostAction) : m.heap.Reaches (m.host action).heap := by
  cases action with
  | run fuel time => exact m.reaches_run fuel time
  | use f =>
    have hacts : Exec.Acts false f.run := Exec.acts_native f
    have h := hacts.handles m
    rw [host]
    cases hf : f.run m with
    | ok a m' =>
      rw [hf] at h
      exact h
    | error e m' =>
      rw [hf] at h
      exact h
  | bind externals => exact .refl

/-- Any number of them. -/
theorem reaches_hosted (actions : List HostAction) :
    ∀ m : Machine, m.heap.Reaches (m.hosted actions).heap := by
  induction actions with
  | nil => exact fun _ => .refl
  | cons action actions ih => exact fun m => (m.reaches_host action).trans (ih (m.host action))

end Machine

/-- Every machine boots a verified program, and whatever the program and its host do, the free list
keeps its shape and no more words are free than the arena has, which keeps to the limit of the
machine.  This holds between any two instructions and all the way through each of them; and at any
such moment a return is granted or refused as it should be. -/
theorem tidy_of_verified {p : Program} (hverify : p.verify = .ok ()) (m : Machine) :
    ∃ m₁, m.boot p = .ok m₁ ∧ ∀ (actions : List HostAction) (m₂ : Machine),
      (m₁.hosted actions).heap.Reaches m₂.heap →
        m₂.heap.Tidy m.config.maxHeapWords ∧ m₂.heap.freeWords ≤ m₂.heap.size ∧
          ∀ index n, m₂.Releases index n := by
  obtain ⟨m₁, hboot⟩ : ∃ m₁, m.boot p = .ok m₁ := by
    rw [Machine.boot, hverify]
    exact ⟨_, rfl⟩
  refine ⟨m₁, hboot, fun actions m₂ hreaches => ?_⟩
  have hstart : m₁.heap.Tidy m.config.maxHeapWords := by
    rw [Machine.boot, hverify] at hboot
    cases hboot
    exact .empty _ _
  have htidy := hstart.reaches ((m₁.reaches_hosted actions).trans hreaches)
  exact ⟨htidy, htidy.freeWords_le, fun index n => htidy.releases index n⟩

/-- A block of three words, of which the first two are freed through a length that was made up. -/
def partialFreeProgram : Program where
  chunks := #[⟨"<entry>", #[.ofByteShort .pushZero 0 3, .ofByteShort .new 0 3,
    .ofByteShort .addressOf 1 0, .ofByteShort .freeHeap 0 2, .ofOpcode .halt], #[]⟩]
  entryPoint := 0
  externals := #[]

theorem tidy_of_partialFree :
    partialFreeProgram.verify = .ok () ∧ ∃ m₁, (Machine.new {}).boot partialFreeProgram = .ok m₁ ∧
      (m₁.hosted [.run 5 0]).heap.free = [⟨0, 2⟩] ∧
      (m₁.hosted [.run 5 0]).heap.Tidy 16777216 ∧
      (m₁.hosted [.run 5 0]).Releases 1 2 ∧ (m₁.hosted [.run 5 0]).Releases 2 0 := by
  have hverify : partialFreeProgram.verify = .ok () := rfl
  obtain ⟨m₁, hboot, hall⟩ := tidy_of_verified hverify (Machine.new {})
  obtain ⟨htidy, -, hreleases⟩ := hall [.run 5 0] _ .refl
  refine ⟨hverify, m₁, hboot, ?_, htidy, hreleases 1 2, hreleases 2 0⟩
  cases hboot
  decide +kernel

end WordScript
