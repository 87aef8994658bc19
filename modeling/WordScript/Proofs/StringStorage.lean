/-
Texts on the heap.

A text that is put on the heap is there until somebody frees its block or writes into
it.  What else uses the heap — further texts, constants that are copied, new blocks
and new lists — takes words that are free or adds words at the end of the arena, and
writes only there.  A request that is refused, or a fault on the way, is no exception.

* `Heap.Keeps` — a block in use with its words;
* `Heap.Adds` — at most one more block, and no word written outside it;
* `Exec.Adds` — an effect that does no more than that to the heap;
* `Machine.Reachable`, `Machine.Allocates` — machines in use, and what may happen to
  one while its texts are kept;
* `texts_survive` — what is read of a text.
-/
import WordScript.Proofs.AllocationPolicy
import WordScript.Proofs.StringBlocks

namespace WordScript

theorem coverage_eq_zero {xs : List FreeChunk} {w : Nat} :
    coverage xs w = 0 ↔ ∀ x ∈ xs, x.covers w = false := by
  rw [coverage, List.countP_eq_zero]
  simp only [Bool.not_eq_true]

namespace Heap

variable {h h' h₁ : Heap} {maxWords scanLimit index i n : Nat} {ws : List Word}

/-! ### Blocks that are kept -/

/-- The words stand in a block that is in use. -/
structure Keeps (index : Nat) (ws : List Word) (h : Heap) : Prop where
  pos : 0 < ws.length
  inUse : h.InUse index ws.length
  run : Words.run h.words index ws.length = ws.toArray

theorem Keeps.le_size (hk : h.Keeps index ws) : index + ws.length ≤ h.size := by
  have hpos := hk.pos
  have hlast := (hk.inUse (index + ws.length - 1) (by omega) (by omega)).1
  omega

/-- A word of a block that is kept. -/
theorem Keeps.getElem? (hk : h.Keeps index ws) {j : Nat} (hj : j < ws.length) :
    h.words[index + j]? = ws[j]? := by
  have hword := Words.getElem?_run h.words index ws.length j
  rw [if_pos hj, hk.run] at hword
  rw [← hword, List.getElem?_toArray]

/-- A block that is handed out is in use. -/
theorem Ordered.inUse_of_allocate (hh : h.Ordered maxWords scanLimit)
    (hok : h.allocate n = .ok (i, h')) : h'.InUse i (blockLength n) := by
  have hinside := (hh.grants hok).inside
  intro w hlo hhi
  refine ⟨by omega, coverage_eq_zero.mp ?_⟩
  rcases allocate_eq_ok hok with ⟨htake, -⟩ | ⟨rfl, hfree, -⟩
  · -- the word was free once, and this is what the list has lost
    have hmoved := coverage_takeFree htake w
    rw [if_pos (FreeChunk.covers_eq_true.mpr ⟨hlo, hhi⟩)] at hmoved
    have hone := coverage_le_one hh.tidy.apart w
    omega
  · rw [hfree, coverage_eq_zero]
    intro x hx
    have hle := hh.tidy.le_size x hx
    rw [Bool.eq_false_iff, ne_eq, FreeChunk.covers_eq_true]
    omega

/-- A block that is handed out is apart from all that are in use, and they stay in use. -/
theorem Keeps.allocate (hk : h.Keeps index ws) (hh : h.Ordered maxWords scanLimit)
    (hok : h.allocate n = .ok (i, h')) :
    h'.Keeps index ws ∧ (i + blockLength n ≤ index ∨ index + ws.length ≤ i) := by
  have hpos := hk.pos
  have hlength := blockLength_pos n
  have hle := hk.le_size
  have hapart : i + blockLength n ≤ index ∨ index + ws.length ≤ i := by
    rcases allocate_eq_ok hok with ⟨htake, -⟩ | ⟨rfl, -, -⟩
    · by_contra hmeet
      -- a word of both would have been free
      have hmoved := coverage_takeFree htake (max i index)
      rw [if_pos (FreeChunk.covers_eq_true.mpr (by simp only; omega)),
        coverage_eq_zero.mpr (hk.inUse _ (by omega) (by omega)).2] at hmoved
      omega
    · exact .inr hle
  have hgrants := hh.grants hok
  refine ⟨⟨hpos, fun w hlo hhi => ?_, ?_⟩, hapart⟩
  · obtain ⟨hsize, hnone⟩ := hk.inUse w hlo hhi
    rw [← coverage_eq_zero] at hnone ⊢
    rcases allocate_eq_ok hok with ⟨htake, hkept⟩ | ⟨-, hfree, hgrown⟩
    · have hmoved := coverage_takeFree htake w
      omega
    · rw [hfree]
      omega
  · rw [← hk.run]
    exact Words.run_eq_run fun j hj => hgrants.others _ (by omega)

/-- Words may be written outside the block. -/
theorem Keeps.put (hk : h.Keeps index ws) {j : Nat} {vs : List Word}
    (hapart : j + vs.length ≤ index ∨ index + ws.length ≤ j) : (h.put j vs).Keeps index ws := by
  refine ⟨hk.pos, fun w hlo hhi => ?_, ?_⟩
  · rw [size_put]
    exact hk.inUse w hlo hhi
  · rw [← hk.run]
    exact Words.run_eq_run fun k hk => Words.getElem?_write_of_outside (by omega)

/-- A block in use keeps what is written into the whole of it. -/
theorem InUse.keeps_put (huse : h.InUse index ws.length) (hpos : 0 < ws.length) :
    (h.put index ws).Keeps index ws := by
  have hlast := (huse (index + ws.length - 1) (by omega) (by omega)).1
  refine ⟨hpos, fun w hlo hhi => ?_, Words.run_write (show _ ≤ h.size by omega)⟩
  rw [size_put]
  exact huse w hlo hhi

/-! ### Blocks that are added -/

/-- Words are written, all of them in one range. -/
inductive Fills (index length : Nat) (h : Heap) : Heap → Prop
  | refl : Fills index length h h
  | put {h₁ : Heap} {j : Nat} {vs : List Word} : Fills index length h h₁ → index ≤ j →
    j + vs.length ≤ index + length → Fills index length h (h₁.put j vs)

theorem Fills.trans {length : Nat} {h₂ : Heap} (h₁₂ : h.Fills index length h₁)
    (h₂₃ : h₁.Fills index length h₂) : h.Fills index length h₂ := by
  induction h₂₃ with
  | refl => exact h₁₂
  | put _ hlo hhi ih => exact ih.put hlo hhi

/-- At most one block is handed out, and words are written into that block alone. -/
def Adds (h h' : Heap) : Prop :=
  h' = h ∨ ∃ n i h₁, h.allocate n = .ok (i, h₁) ∧ h₁.Fills i (blockLength n) h'

theorem Ordered.put (hh : h.Ordered maxWords scanLimit) (j : Nat) (vs : List Word) :
    (h.put j vs).Ordered maxWords scanLimit :=
  ⟨hh.tidy.put j vs, hh.sorted, hh.scan⟩

theorem Ordered.fills {length : Nat} (hh : h.Ordered maxWords scanLimit)
    (hfills : h.Fills i length h') : h'.Ordered maxWords scanLimit := by
  induction hfills with
  | refl => exact hh
  | put _ _ _ ih => exact ih.put _ _

theorem Keeps.fills {length : Nat} (hk : h.Keeps index ws)
    (hapart : i + length ≤ index ∨ index + ws.length ≤ i) (hfills : h.Fills i length h') :
    h'.Keeps index ws := by
  induction hfills with
  | refl => exact hk
  | put _ _ _ ih => exact ih.put (by omega)

theorem Ordered.reaches (hh : h.Ordered maxWords scanLimit) (hr : h.Reaches h') :
    h'.Ordered maxWords scanLimit := by
  induction hr with
  | refl => exact hh
  | allocate _ hok ih => exact ih.allocate hok
  | deallocate _ hok ih => exact ih.deallocate hok
  | put index ws _ ih => exact ih.put index ws

theorem Ordered.adds (hh : h.Ordered maxWords scanLimit) (hadds : h.Adds h') :
    h'.Ordered maxWords scanLimit := by
  obtain rfl | ⟨n, i, h₁, hok, hfills⟩ := hadds
  · exact hh
  · exact (hh.allocate hok).fills hfills

/-- What is kept stays when a block is added. -/
theorem Keeps.adds (hk : h.Keeps index ws) (hh : h.Ordered maxWords scanLimit)
    (hadds : h.Adds h') : h'.Keeps index ws := by
  obtain rfl | ⟨n, i, h₁, hok, hfills⟩ := hadds
  · exact hk
  · obtain ⟨hk₁, hapart⟩ := hk.allocate hh hok
    exact hk₁.fills hapart hfills

end Heap

/-! ### Effects that add a block -/

namespace Exec

variable {α β : Type} {x : Exec α} {f : α → Exec β} {m : Machine} {index length n : Nat}

/-- An effect and what comes after it, or only the effect if it faults. -/
theorem ended_bind (x : Exec α) (f : α → Exec β) (m : Machine) :
    (∃ a m₁, x m = .ok a m₁ ∧ ended ((x >>= f) m) = ended (f a m₁)) ∨
      ended ((x >>= f) m) = ended (x m) := by
  cases hx : x m with
  | ok a m₁ =>
    refine .inl ⟨a, m₁, rfl, ?_⟩
    rw [bind_of_ok hx]
  | error e m₁ =>
    refine .inr ?_
    rw [bind_of_error hx]
    rfl

/-- Whether it succeeds or faults, the effect leaves the heap alone. -/
def Silent (x : Exec α) : Prop :=
  ∀ m : Machine, (ended (x m)).heap = m.heap

/-- Whether it succeeds or faults, the effect writes to the heap in one range only. -/
def Fills (index length : Nat) (x : Exec α) : Prop :=
  ∀ m : Machine, m.heap.Fills index length (ended (x m)).heap

/-- Whether it succeeds or faults, the effect adds at most one block to the heap. -/
def Adds (x : Exec α) : Prop :=
  ∀ m : Machine, m.heap.Adds (ended (x m)).heap

theorem Silent.fills (hx : Silent x) : Fills index length x := by
  intro m
  rw [hx m]
  exact .refl

theorem Silent.adds (hx : Silent x) : Adds x :=
  fun m => .inl (hx m)

theorem Fills.bind (hx : Fills index length x) (hf : ∀ a, Fills index length (f a)) :
    Fills index length (x >>= f) := by
  intro m
  have hfirst := hx m
  obtain ⟨a, m₁, hok, hended⟩ | hended := ended_bind x f m
  · rw [hok] at hfirst
    rw [hended]
    exact hfirst.trans (hf a m₁)
  · rw [hended]
    exact hfirst

/-- Before a block is added, and after that, the heap is left alone. -/
theorem Silent.bind_adds (hx : Silent x) (hf : ∀ a, Adds (f a)) : Adds (x >>= f) := by
  intro m
  have hfirst := hx m
  obtain ⟨a, m₁, hok, hended⟩ | hended := ended_bind x f m
  · rw [hok] at hfirst
    rw [hended, ← hfirst]
    exact hf a m₁
  · rw [hended, hfirst]
    exact .inl rfl

theorem Adds.bind_silent (hx : Adds x) (hf : ∀ a, Silent (f a)) : Adds (x >>= f) := by
  intro m
  have hfirst := hx m
  obtain ⟨a, m₁, hok, hended⟩ | hended := ended_bind x f m
  · rw [hok] at hfirst
    rw [hended, hf a m₁]
    exact hfirst
  · rw [hended]
    exact hfirst

/-- A request and what is written into the block. -/
theorem adds_allocate {f : Nat → Exec β} (hf : ∀ i, Fills i (Heap.blockLength n) (f i)) :
    Adds (allocate n >>= f) := by
  intro m
  cases hrequest : m.heap.allocate n with
  | ok r =>
    obtain ⟨i, h₁⟩ := r
    have hok : allocate n m = .ok i { m with heap := h₁ } := allocate_holding hrequest
    rw [bind_of_ok hok]
    exact .inr ⟨n, i, h₁, hrequest, hf i { m with heap := h₁ }⟩
  | error e =>
    have herror : allocate n m = .error (.heap e) m := allocate_holding_error hrequest
    rw [bind_of_error herror]
    exact .inl rfl

theorem fills_heapStore {j : Nat} {ws : List Word} (hlo : index ≤ j)
    (hhi : j + ws.length ≤ index + length) : Fills index length (heapStore j ws) := by
  intro m
  rw [heapStore]
  split
  · exact .put .refl hlo hhi
  · exact .refl

theorem silent_pure (a : α) : Silent (pure a : Exec α) :=
  fun _ => rfl

theorem silent_throw (e : Fault) : Silent (throw e : Exec α) :=
  fun _ => rfl

theorem silent_get : Silent (get : Exec Machine) :=
  fun _ => rfl

theorem silent_pushWord (w : Word) : Silent (pushWord w) :=
  fun _ => rfl

theorem silent_truncate (size : Nat) : Silent (truncate size) :=
  fun _ => rfl

theorem silent_top (words : Nat) : Silent (top words) := by
  intro m
  rw [top]
  split <;> rfl

theorem adds_allocateBlock (ws : Array Word) : Adds (allocateBlock ws) := by
  refine adds_allocate fun i => Fills.bind (fills_heapStore (Nat.le_refl i) ?_) fun _ =>
    (silent_pure _).fills
  rw [Array.length_toList, Heap.blockLength]
  omega

theorem adds_heapConstant (c : Chunk) (index : UInt16) : Adds (heapConstant c index) := by
  refine silent_get.bind_adds fun m => ?_
  split
  · exact (silent_pure _).adds
  · extract_lets start
    split
    · exact (silent_throw _).adds
    · extract_lets words copy
      have hcopy : ∀ u, Adds (copy u) := fun _ =>
        (adds_allocateBlock _).bind_silent fun _ _ => rfl
      split
      · exact (silent_throw _).bind_adds fun u => hcopy u
      · exact hcopy ()

/-- The value of a `new` has no more words than its block. -/
theorem adds_newBlock (words : Nat) : Adds (newBlock words) := by
  refine (silent_top _).bind_adds fun at_ => adds_allocate fun i m => ?_
  have hvalue : (Words.run m.stack at_ words).toList.length ≤ Heap.blockLength words := by
    rw [Array.length_toList, Words.run, Array.size_extract, Heap.blockLength]
    omega
  have hrest : Fills i (Heap.blockLength words) (do
      heapStore i (Words.run m.stack at_ words).toList
      truncate at_
      pushWord (Address.ofHeap i)) :=
    (fills_heapStore (Nat.le_refl i) (by omega)).bind fun _ => (silent_truncate _).fills.bind
      fun _ => (silent_pushWord _).fills
  exact hrest m

/-- A list has a header, and its capacity is written there. -/
theorem adds_newList (elementWords capacity : Word) : Adds (newList elementWords capacity) := by
  cases hwords : ListBlock.words capacity elementWords with
  | error e =>
    intro m
    rw [newList, bind_of_error (lift_error hwords m)]
    exact .inl rfl
  | ok words =>
    have hheader : 2 ≤ words.toNat := by
      rw [ListBlock.words] at hwords
      split at hwords
      · next hfits =>
        cases hwords
        rw [UInt32.toNat_add, UInt32.toNat_mul, Nat.mod_eq_of_lt (a := _ * _) (by omega),
          Nat.mod_eq_of_lt (by exact hfits)]
        exact Nat.le_add_left ..
      · cases hwords
    have hblock : Adds (allocate words.toNat >>= fun i =>
        heapWrite (i + 1) capacity >>= fun _ => pure (Address.ofHeap i)) :=
      adds_allocate fun i => by
        refine Fills.bind (fills_heapStore (Nat.le_succ i) ?_) fun _ => (silent_pure _).fills
        rw [List.length_singleton, Heap.blockLength]
        omega
    intro m
    rw [newList, bind_of_ok (lift_ok hwords m)]
    exact hblock m

end Exec

/-- The instructions that ask for a block. -/
def Opcode.allocates : Opcode → Bool
  | loadHeapConstant | new | listNew => true
  | _ => false

theorem Exec.adds_perform {op : Opcode} (hop : op.allocates = true) (p : Program) (c : Chunk)
    (time : Float) (i : Instruction) : Adds (perform p c time i op) := by
  have hcontinuing : ∀ x : Exec Unit, Adds x → Adds (continuing x) := fun x hx =>
    hx.bind_silent fun _ => silent_pure _
  cases op
  case loadHeapConstant =>
    exact hcontinuing _ ((adds_heapConstant _ _).bind_silent fun _ => silent_pushWord _)
  case new => exact hcontinuing _ (adds_newBlock _)
  case listNew => exact hcontinuing _ ((adds_newList _ _).bind_silent fun _ => silent_pushWord _)
  all_goals cases hop

/-! ### Machines in use -/

namespace Machine

/-- The machines in use, with the configuration that their memory was set up for: a new machine, and
what boots, hosts and disposals make of one.  It may stand in the middle of an instruction or of a host
function, after some of the effects. -/
inductive Reachable : MachineConfig → Machine → Prop
  | new (config : MachineConfig) : Reachable config (Machine.new config)
  | boot {config : MachineConfig} {m m' : Machine} {p : Program} :
    Reachable config m → m.boot p = .ok m' → Reachable m.config m'
  | host {config : MachineConfig} {m : Machine} (action : HostAction) :
    Reachable config m → Reachable config (m.host action)
  | dispose {config : MachineConfig} {m : Machine} : Reachable config m → Reachable config m.dispose
  | effect {config : MachineConfig} {m : Machine} {α : Type} {x : Exec α} :
    Reachable config m → x.Handles → Reachable config (Exec.ended (x m))

/-- What may happen to a machine while its texts are kept: more texts and instructions that ask for a
block, whether they succeed or not, and whatever leaves the heap alone. -/
inductive Allocates (m : Machine) : Machine → Prop
  | refl : Allocates m m
  | allocString {m₁ : Machine} (text : String) :
    Allocates m m₁ → Allocates m (Exec.ended (Exec.allocString text m₁))
  | perform {m₁ : Machine} {op : Opcode} (p : Program) (c : Chunk) (time : Float) (i : Instruction) :
    Allocates m m₁ → op.allocates = true → Allocates m (Exec.ended (Exec.perform p c time i op m₁))
  | aside {m₁ m₂ : Machine} : Allocates m m₁ → m₂.heap = m₁.heap → Allocates m m₂

variable {config : MachineConfig} {m m' m₁ : Machine} {maxWords scanLimit index : Nat} {ws : List Word}

theorem Reachable.ordered (h : m.Reachable config) :
    m.heap.Ordered config.maxHeapWords config.freeListScanLimit := by
  induction h with
  | new config => exact .empty _ _
  | @boot config m m' p _ hboot _ =>
    rw [Machine.boot] at hboot
    split at hboot
    · cases hboot
    · cases hboot
      exact .empty _ _
  | @host config m action _ ih => exact ih.reaches (m.reaches_host action)
  | dispose _ ih => exact ih.clear
  | @effect config m α x _ hx ih => exact ih.reaches (hx m)

/-- Whatever is kept at the beginning is kept at the end. -/
theorem Allocates.keeps (h : m.Allocates m₁) (hh : m.heap.Ordered maxWords scanLimit)
    (hk : m.heap.Keeps index ws) :
    m₁.heap.Ordered maxWords scanLimit ∧ m₁.heap.Keeps index ws := by
  induction h with
  | refl => exact ⟨hh, hk⟩
  | @allocString m₁ text _ ih =>
    have hadds := Exec.adds_allocateBlock (StringBlock.encode text) m₁
    exact ⟨ih.1.adds hadds, ih.2.adds ih.1 hadds⟩
  | @perform m₁ op p c time i _ hop ih =>
    have hadds := Exec.adds_perform hop p c time i m₁
    exact ⟨ih.1.adds hadds, ih.2.adds ih.1 hadds⟩
  | aside _ hheap ih =>
    rw [hheap]
    exact ih

end Machine

/-! ### Texts -/

namespace Exec

variable {m m₁ : Machine} {maxWords scanLimit index : Nat} {s : String} {a : Word}

/-- A text that has been put on the heap is kept at its address. -/
theorem keeps_of_allocString (hh : m.heap.Ordered maxWords scanLimit)
    (hok : allocString s m = .ok a m₁) :
    m₁.heap.Ordered maxWords scanLimit ∧ ∃ index, a = Address.ofHeap index ∧
      m₁.heap.Keeps index (StringBlock.encode s).toList := by
  rw [allocString, allocateBlock] at hok
  cases hrequest : m.heap.allocate (StringBlock.encode s).size with
  | error e =>
    have herror : allocate (StringBlock.encode s).size m = .error (.heap e) m :=
      allocate_holding_error hrequest
    rw [bind_of_error herror] at hok
    cases hok
  | ok r =>
    obtain ⟨index, H⟩ := r
    have hallocate : allocate (StringBlock.encode s).size m = .ok index (m.holding m.stack H) :=
      allocate_holding hrequest
    -- the encoding of a text has its length in front, so it is never empty
    have hpos : 0 < (StringBlock.encode s).toList.length := by
      rw [StringBlock.toList_encode]
      exact Nat.succ_pos _
    have hlength : Heap.blockLength (StringBlock.encode s).size =
        (StringBlock.encode s).toList.length := by
      rw [Array.length_toList] at hpos ⊢
      exact Nat.max_eq_left hpos
    have huse := hh.inUse_of_allocate hrequest
    have hin := (hh.grants hrequest).inside
    rw [hlength] at huse hin
    rw [bind_of_ok hallocate, bind_of_ok (heapStore_holding hin)] at hok
    cases hok
    exact ⟨(hh.allocate hrequest).put _ _, index, rfl, huse.keeps_put hpos⟩

/-- A text that is kept can be read. -/
theorem readString_of_keeps (hh : m.heap.Ordered maxWords scanLimit)
    (hroom : maxWords ≤ Address.heapRoom) (hk : m.heap.Keeps index (StringBlock.encode s).toList) :
    readString (Address.ofHeap index) m = .ok (StringBlock.trimmed s) m := by
  have hle := hk.le_size
  have hsize := hh.tidy.size_le
  rw [Array.length_toList, StringBlock.size_encode] at hle
  have hcount : (UInt32.ofNat (StringBlock.payload s).size).toNat = (StringBlock.payload s).size :=
    Address.toNat_ofStack (by omega)
  -- the first word is the length, the payload lies behind it
  have hword : ∀ j, j < (StringBlock.payload s).size + 1 → m.heap.words[index + j]? =
      (UInt32.ofNat (StringBlock.payload s).size :: (StringBlock.payload s).toList)[j]? := by
    intro j hj
    rw [← StringBlock.toList_encode]
    exact hk.getElem? (by rwa [Array.length_toList, StringBlock.size_encode])
  have hpayload : Words.run m.heap.words (index + 1) (StringBlock.payload s).size =
      StringBlock.payload s := by
    refine Array.ext_getElem? fun j => ?_
    rw [Words.getElem?_run]
    by_cases hj : j < (StringBlock.payload s).size
    · rw [if_pos hj, Nat.add_assoc, Nat.add_comm 1, hword _ (by omega), List.getElem?_cons_succ,
        Array.getElem?_toList]
    · rw [if_neg hj, Array.getElem?_eq_none (Nat.le_of_not_lt hj)]
  have hread : heapRead index m = .ok (UInt32.ofNat (StringBlock.payload s).size) m :=
    heapRead_holding (S := m.stack) (hword 0 (Nat.succ_pos _))
  have hslice : heapSlice (index + 1) (StringBlock.payload s).size m =
      .ok (Words.run m.heap.words (index + 1) (StringBlock.payload s).size) m :=
    heapSlice_holding (S := m.stack) (by omega)
  rw [readString, bind_of_ok (lift_ok (Address.heapIndex_ofHeap (by omega)) m), bind_of_ok hread,
    hcount, bind_of_ok hslice, hpayload, StringBlock.decode_payload]
  rfl

end Exec

/-- Texts survive their encoding and the heap.  The first word of the block of a text is the number of
the other words, and what is read of those is the text without zero characters at its end, so it is the
text itself exactly if it does not end in one.  When a machine whose heap has addresses for all its
words has been given a text, the same comes back from the address, at once and after any more
allocations. -/
theorem texts_survive :
    (∀ s : String,
      (StringBlock.encode s)[0]? = some (UInt32.ofNat ((StringBlock.encode s).size - 1)) ∧
      ((StringBlock.encode s).size ≤ 4294967296 →
        (UInt32.ofNat ((StringBlock.encode s).size - 1)).toNat = (StringBlock.encode s).size - 1) ∧
      StringBlock.decode ((StringBlock.encode s).toList.drop 1) = StringBlock.trimmed s ∧
      (StringBlock.decode ((StringBlock.encode s).toList.drop 1) = s ↔
        s.toList.getLast? ≠ some '\x00')) ∧
    ∀ (config : MachineConfig) (m m₁ m₂ : Machine) (s : String) (a : Word),
      config.maxHeapWords ≤ 2147483648 → m.Reachable config →
      Exec.allocString s m = .ok a m₁ → m₁.Allocates m₂ →
        Exec.readString a m₁ = .ok (StringBlock.trimmed s) m₁ ∧
        Exec.readString a m₂ = .ok (StringBlock.trimmed s) m₂ := by
  refine ⟨fun s => ?_, fun config m m₁ m₂ s a hroom hm hok hlater => ?_⟩
  · have hdecode : StringBlock.decode ((StringBlock.encode s).toList.drop 1) =
        StringBlock.trimmed s := by
      rw [StringBlock.toList_encode, List.drop_one, List.tail_cons, StringBlock.decode_payload]
    refine ⟨?_, fun hsize => Word.toNat_ofNat (by omega), hdecode, ?_⟩
    · rw [StringBlock.getElem?_encode_zero, StringBlock.size_encode, Nat.add_sub_cancel]
    · rw [hdecode]
      exact StringBlock.trimmed_eq_iff s
  · obtain ⟨hordered, index, rfl, hkeeps⟩ := Exec.keeps_of_allocString hm.ordered hok
    obtain ⟨hordered₂, hkeeps₂⟩ := hlater.keeps hordered hkeeps
    exact ⟨Exec.readString_of_keeps hordered hroom hkeeps,
      Exec.readString_of_keeps hordered₂ hroom hkeeps₂⟩

/-- A text of two characters and a zero, and after it another text and a list. -/
theorem texts_survive_zeroEnded :
    ∃ m₁, Exec.allocString "aé\x00" (Machine.new {}) = .ok 0x80000000 m₁ ∧
      ∀ (p : Program) (c : Chunk) (time : Float),
        let m₂ := Exec.ended (Exec.perform p c time (.ofByteShort .listNew 1 4) .listNew
          (Exec.ended (Exec.allocString "b" m₁)))
        Exec.readString 0x80000000 m₂ = .ok "aé" m₂ := by
  have hok : ∃ m₁, Exec.allocString "aé\x00" (Machine.new {}) = .ok 0x80000000 m₁ := ⟨_, rfl⟩
  obtain ⟨m₁, hok⟩ := hok
  refine ⟨m₁, hok, fun p c time => ?_⟩
  have hnew : Opcode.listNew.allocates = true := rfl
  have hlater := ((Machine.Allocates.refl (m := m₁)).allocString "b").perform p c time
    (.ofByteShort .listNew 1 4) hnew
  have htrimmed : StringBlock.trimmed "aé\x00" = "aé" := by decide
  rw [← htrimmed]
  exact (texts_survive.2 {} _ m₁ _ _ _ (by decide) (.new {}) hok hlater).2

end WordScript
