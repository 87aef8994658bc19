/-
Assigning to an element of a list.

The code of `xs[i] = e` first puts the address of the element on the stack, then runs the
code of `e`, and then stores through the address.  So the value arrives where the element
was before `e` ran.  If `e` has let the list grow into another block, that is a word of the
old block, which has been freed, and the element in the new block keeps its old value.

* `elementCode` — the code of the address of an element;
* `Compiler.Indexes` — `xs[i]` for a list in a global variable;
* `Exec.Evaluates` — code that leaves a value on the stack and changes nothing else;
* `kept_until_moved` — what is read after an assignment, whether or not the list has moved;
* `lost_when_moved` — an assignment that is lost.

Design notes: nothing is assumed of the code of `e` but that its value ends up above the
address.  It may call functions, which may change variables, lists and the heap.
-/
import WordScript.Proofs.CallMatching
import WordScript.Proofs.GenericInstances
import WordScript.Proofs.PointerAccess

namespace WordScript

/-! ### Elements -/

/-- The address of an element of a list, if there is none beyond the part of memory of the list. -/
def ListBlock.element (list index elementWords : Word) : Except Fault Word := do
  Address.offset list (← wordsBefore index elementWords)

theorem ListBlock.element_eq_ok_iff {list index elementWords address : Word} :
    ListBlock.element list index elementWords = .ok address ↔
      ∃ before, wordsBefore index elementWords = .ok before ∧
        Address.offset list before = .ok address := by
  rw [element]
  cases wordsBefore index elementWords with
  | ok before =>
    constructor
    · exact fun h => ⟨before, rfl, h⟩
    · rintro ⟨_, hbefore, h⟩
      cases hbefore
      exact h
  | error f =>
    constructor
    · intro h
      cases h
    · rintro ⟨_, h, -⟩
      cases h

/-- An element lies in the part of memory of its list. -/
theorem ListBlock.isHeap_element {list index elementWords address : Word}
    (h : ListBlock.element list index elementWords = .ok address) :
    Address.isHeap address = Address.isHeap list := by
  obtain ⟨before, -, hoffset⟩ := element_eq_ok_iff.mp h
  exact (Address.offset_eq_ok hoffset).2

/-- The list has an element with the index. -/
def Machine.HasElement (m : Machine) (list index : Word) : Prop :=
  ∃ length, m.heap.words[(list - Address.heapBit).toNat]? = some length ∧
    Address.checkIndex index length = .ok ()

/-- So many words from an address on lie in the arena. -/
def Heap.Spans (h : Heap) (address : Word) (words : Nat) : Prop :=
  ∀ j < words, ∃ place, Address.offset address (UInt32.ofNat j) = .ok place ∧
    (place - Address.heapBit).toNat < h.size

/-- So many words from the one address on and from the other are different words. -/
def Address.Apart (words : Nat) (a b : Word) : Prop :=
  a.toNat + words ≤ b.toNat ∨ b.toNat + words ≤ a.toNat

/-- The code that puts the address of an element on the stack, for a list in a global variable. -/
def elementCode (offset : UInt16) (index : List Instruction) (words : UInt8) : List Instruction :=
  .ofByteShort .loadGlobal 1 offset :: (index ++ [.ofBytes .listIndex words 0 0])

theorem length_elementCode (offset : UInt16) (index : List Instruction) (words : UInt8) :
    (elementCode offset index words).length = 1 + index.length + 1 := by
  rw [elementCode, List.length_cons, List.length_append, List.length_singleton]
  omega

namespace Exec

variable {p : Program} {P : Chunk} {time : Float} {m m' : Machine} {S : Array Word}
  {address list index w : Word} {k n : Nat} {ended : Bool}

/-- Running the code puts words on the stack and changes nothing else. -/
def Evaluates (p : Program) (time : Float) (m : Machine) (code : List Instruction)
    (ws : Array Word) : Prop :=
  Leads p time code.length m (m.at_ (m.ip + code.length) (m.stack ++ ws))

/-- Running the code puts a word on the stack. -/
def Puts (p : Program) (time : Float) (m : Machine) (code : List Instruction) (w : Word) : Prop :=
  ∃ m', Leads p time code.length m m' ∧ m'.stack = m.stack.push w

theorem Leads.execute (h : Leads p time n m m') : execute p time n m = .ok false m' :=
  h.execute_add 0

theorem leads_of_execute (h : execute p time n m = .ok false m') : Leads p time n m m' := by
  induction n generalizing m with
  | zero =>
    cases h
    rfl
  | succ n ih =>
    obtain ⟨flow, m₁, hstep, hrest⟩ := bind_eq_ok h
    cases flow with
    | stop => cases hrest
    | next => exact ⟨m₁, hstep, ih hrest⟩

/-! ### Runs of heap words -/

theorem lt_size_of_store (hheap : Address.isHeap address = true)
    (h : store address w m = .ok () m') : (address - Address.heapBit).toNat < m.heap.size := by
  rw [store, if_pos hheap, heapWrite, heapStore] at h
  split at h
  · rename_i hin
    rw [Heap.inBounds, List.length_singleton] at hin
    exact of_decide_eq_true hin
  · cases h

/-- Words that have been written lie in the arena. -/
theorem spans_of_storeRun {at_ : Nat} (hheap : Address.isHeap address = true)
    (hk : k + n < 4294967296) (h : storeRun address at_ k n m = .ok () m') :
    ∀ j, k ≤ j → j < k + n → ∃ place, Address.offset address (UInt32.ofNat j) = .ok place ∧
      (place - Address.heapBit).toNat < m.heap.size := by
  induction n generalizing m k with
  | zero => exact fun j hle hlt => absurd hlt (by omega)
  | succ n ih =>
    intro j hle hlt
    obtain ⟨place, m₁, hoffset, hstore, hrest⟩ := storeRun_succ_eq_ok h
    have hplace := (offset_heap hheap (by omega) hoffset).2
    by_cases hj : j = k
    · exact ⟨place, hj ▸ hoffset, lt_size_of_store hplace hstore⟩
    · obtain rfl := store_of_isHeap hplace hstore
      have hlater := ih (by omega) hrest j (by omega) (by omega)
      rwa [Heap.size_put] at hlater

/-- Words that lie in the arena can be read. -/
theorem loadRun_of_spans (hheap : Address.isHeap address = true) (hk : k + n < 4294967296)
    (h : ∀ j, k ≤ j → j < k + n → ∃ place, Address.offset address (UInt32.ofNat j) = .ok place ∧
      (place - Address.heapBit).toNat < m.heap.size) :
    loadRun address k n m = .ok () { m with
      stack := m.stack ++ Words.run m.heap.words ((address - Address.heapBit).toNat + k) n } := by
  induction n generalizing m k with
  | zero =>
    rw [Words.run_zero, Array.append_empty]
    rfl
  | succ n ih =>
    obtain ⟨place, hoffset, hlt⟩ := h k (Nat.le_refl k) (by omega)
    obtain ⟨hindex, hplace⟩ := offset_heap hheap (by omega) hoffset
    obtain ⟨w, hword⟩ : ∃ w, m.heap.words[(place - Address.heapBit).toNat]? = some w :=
      ⟨_, Array.getElem?_eq_getElem hlt⟩
    have hload : load place m = .ok w m := by
      simp only [load, hplace, if_true, heapRead, Heap.read, hword]
    have hpush : pushWord w m = .ok () (m.at_ m.ip (m.stack.push w)) := rfl
    have hrest := ih (m := m.at_ m.ip (m.stack.push w)) (k := k + 1) (by omega)
      fun j hle hlt => h j (by omega) (by omega)
    rw [hindex] at hword
    rw [loadRun, bind_of_ok (lift_ok hoffset m), bind_of_ok hload, bind_of_ok hpush, hrest,
      Words.run_succ hword, ← Array.append_assoc]
    rfl

/-! ### Instructions -/

/-- The words behind a heap address take its place. -/
theorem leads_loadIndirect {words : UInt8} {ip : Nat} (hP : p.chunks[m.chunk]? = some P)
    (hi : P.code[ip]? = some (.ofByteShort .loadIndirect words 0))
    (hheap : Address.isHeap address = true) (hspans : m.heap.Spans address words.toNat) :
    Leads p time 1 (m.at_ ip (S.push address)) (m.at_ (ip + 1)
      (S ++ Words.run m.heap.words (address - Address.heapBit).toNat words.toNat)) := by
  refine leads_of_perform hP hi (Instruction.opcode?_ofByteShort _ _ _) rfl ?_
  rw [Instruction.short_ofByteShort, Instruction.a_ofByteShort]
  have hfew : 0 + words.toNat < 4294967296 := by
    have := words.toNat_lt
    omega
  have hload := loadRun_of_spans (m := m.at_ (ip + 1) S) (k := 0) hheap hfew
    fun j _ hj => hspans j (by omega)
  rw [bind_of_ok (popWord_push m (ip + 1) S address), bind_of_ok (lift_ok (offset_zero address) _),
    hload]
  rfl

/-- The address of an element takes the place of its list and its index. -/
theorem leads_listIndex {words : UInt8} {ip : Nat} (hP : p.chunks[m.chunk]? = some P)
    (hi : P.code[ip]? = some (.ofBytes .listIndex words 0 0))
    (hheap : Address.isHeap list = true) (hin : m.HasElement list index)
    (helement : ListBlock.element list index words.toUInt32 = .ok address) :
    Leads p time 1 (m.at_ ip ((S.push list).push index)) (m.at_ (ip + 1) (S.push address)) := by
  obtain ⟨length, hlength, hcheck⟩ := hin
  obtain ⟨before, hbefore, hoffset⟩ := ListBlock.element_eq_ok_iff.mp helement
  refine leads_of_perform hP hi (Instruction.opcode?_ofBytes _ _ _ _) rfl ?_
  have hne : list ≠ 0 := by
    rintro rfl
    exact absurd hheap (by decide)
  have hload : lengthList list (m.at_ (ip + 1) S) = .ok length (m.at_ (ip + 1) S) := by
    have hword : (m.at_ (ip + 1) S).heap.words[(list - Address.heapBit).toNat]? = some length :=
      hlength
    simp only [lengthList, if_neg hne, load, hheap, if_true, heapRead, Heap.read, hword]
  rw [Instruction.a_ofBytes, indexList, bind_of_ok (popWord_push ..), bind_of_ok (popWord_push ..),
    bind_of_ok hload, bind_of_ok (lift_ok hcheck _), bind_of_ok (lift_ok hbefore _),
    bind_of_ok (lift_ok hoffset _)]
  rfl

/-- Where there is such an address, it is that of the element. -/
theorem execute_listIndex {words : UInt8} (hP : p.chunks[m.chunk]? = some P)
    (hi : P.code[m.ip]? = some (.ofBytes .listIndex words 0 0))
    (hstack : m.stack = (S.push list).push index) (h : execute p time (n + 1) m = .ok ended m') :
    ∃ address m₁, ListBlock.element list index words.toUInt32 = .ok address ∧
      m₁.stack = S.push address ∧ execute p time n m₁ = .ok ended m' := by
  obtain ⟨m₁, hx, -, hnext⟩ := execute_succ hP hi (Instruction.opcode?_ofBytes _ _ _ _) rfl h
  rw [Instruction.a_ofBytes] at hx
  have hat : { m with ip := m.ip + 1 } = m.at_ (m.ip + 1) ((S.push list).push index) := by
    rw [← hstack]
    rfl
  rw [hat, indexList, bind_of_ok (popWord_push ..), bind_of_ok (popWord_push ..)] at hx
  obtain ⟨length, m₂, hlength, hx⟩ := bind_eq_ok hx
  obtain ⟨_, m₃, hcheck, hx⟩ := bind_eq_ok hx
  obtain ⟨before, m₄, hlift, hx⟩ := bind_eq_ok hx
  obtain ⟨address, m₅, hlift', hpush⟩ := bind_eq_ok hx
  obtain ⟨-, rfl⟩ := lift_eq_ok hcheck
  obtain ⟨hbefore, rfl⟩ := lift_eq_ok hlift
  obtain ⟨hoffset, rfl⟩ := lift_eq_ok hlift'
  have helement := ListBlock.element_eq_ok_iff.mpr ⟨before, hbefore, hoffset⟩
  obtain rfl : m₅ = m.at_ (m.ip + 1) S := by
    rw [lengthList] at hlength
    split at hlength
    · cases hlength
      rfl
    · exact (load_eq_ok hlength).2
  cases hpush
  exact ⟨address, _, helement, rfl, hnext⟩

/-! ### The code of an element -/

variable {offset : UInt16} {words : UInt8} {code : List Instruction}

/-- What the code of an element's address has put on the stack. -/
theorem element_of_leads (hindex : Pushing 1 code) (hP : p.chunks[m.chunk]? = some P)
    (hi : P.HoldsAt m.ip (elementCode offset code words))
    (h : Leads p time (elementCode offset code words).length m m') :
    ∃ list index address, m.stack[offset.toNat]? = some list ∧
      Puts p time (m.at_ (m.ip + 1) (m.stack.push list)) code index ∧
      ListBlock.element list index words.toUInt32 = .ok address ∧
      m'.stack = m.stack.push address := by
  have hrun := h.execute
  rw [length_elementCode, Nat.add_assoc, Nat.add_comm] at hrun
  obtain ⟨m₁, hx, -, hrun⟩ :=
    execute_succ hP hi.head (Instruction.opcode?_ofByteShort .loadGlobal 1 offset) rfl hrun
  rw [Instruction.short_ofByteShort, Instruction.a_ofByteShort] at hx
  obtain ⟨list, hlist, rfl⟩ := pushRun_one hx
  have hi' : P.HoldsAt (m.ip + 1) (code ++ [.ofBytes .listIndex words 0 0]) :=
    @Chunk.HoldsAt.right P m.ip [.ofByteShort .loadGlobal 1 offset] _ hi
  rw [Nat.add_comm] at hrun
  obtain ⟨m₂, ws, ⟨hws, hstack⟩, ⟨hchunk, hip⟩, hleads, hrun⟩ :=
    pushing_of_execute (m := m.at_ (m.ip + 1) (m.stack.push list)) hindex hP hi'.left hrun
  obtain ⟨index, rfl⟩ := Array.size_eq_one_iff.mp hws
  rw [Array.append_singleton] at hstack
  -- the index lies above the list when the last instruction is reached
  have hlast : P.code[m₂.ip]? = some (.ofBytes .listIndex words 0 0) := by
    rw [hip]
    exact hi'.right.head
  obtain ⟨address, m₃, helement, hstack₃, hend⟩ :=
    execute_listIndex (hchunk ▸ hP) hlast hstack hrun
  cases hend
  exact ⟨list, index, address, hlist, ⟨m₂, hleads, hstack⟩, helement, hstack₃⟩

/-- An element is read where its address is. -/
theorem evaluates_element (hP : p.chunks[m.chunk]? = some P)
    (hi : P.HoldsAt m.ip (elementCode offset code words ++ [.ofByteShort .loadIndirect words 0]))
    (hlist : m.stack[offset.toNat]? = some list)
    (hindex : Evaluates p time (m.at_ (m.ip + 1) (m.stack.push list)) code #[index])
    (hheap : Address.isHeap list = true) (hin : m.HasElement list index)
    (helement : ListBlock.element list index words.toUInt32 = .ok address)
    (hspans : m.heap.Spans address words.toNat) :
    Evaluates p time m (elementCode offset code words ++ [.ofByteShort .loadIndirect words 0])
      (Words.run m.heap.words (address - Address.heapBit).toNat words.toNat) := by
  have hload : P.code[m.ip]? = some (.ofByteShort .loadGlobal 1 (UInt16.ofNat offset.toNat)) := by
    rw [UInt16.ofNat_toNat]
    exact hi.left.head
  have hi' : P.HoldsAt (m.ip + 1) (code ++ [.ofBytes .listIndex words 0 0]) :=
    @Chunk.HoldsAt.right P m.ip [.ofByteShort .loadGlobal 1 offset] _ hi.left
  have hlast := hi.right.head
  rw [length_elementCode] at hlast
  have hplace : Address.isHeap address = true := (ListBlock.isHeap_element helement).trans hheap
  rw [Evaluates, List.length_append, length_elementCode, List.length_singleton]
  rw [Evaluates, show (m.at_ (m.ip + 1) (m.stack.push list)).stack ++ #[index] =
    (m.stack.push list).push index from Array.append_singleton] at hindex
  -- the list, the index, the address and the words, one after the other
  have h₁ : Leads p time 1 (m.at_ m.ip m.stack) (m.at_ (m.ip + 1) (m.stack.push list)) :=
    leads_loadGlobal hP hload offset.toNat_lt hlist
  have h₂ := (h₁.trans hindex).trans (leads_listIndex (m := m) hP hi'.right.head hheap hin helement)
  have h₃ := h₂.trans (leads_loadIndirect (m := m) hP
    (by rwa [← Nat.add_assoc, ← Nat.add_assoc] at hlast) hplace hspans)
  have hip : (m.at_ (m.ip + 1) (m.stack.push list)).ip + code.length + 1 + 1 =
      m.ip + (1 + code.length + 1 + 1) := by
    show m.ip + 1 + code.length + 1 + 1 = _
    omega
  rwa [hip] at h₃

/-- A value is stored through the address of an element. -/
theorem writes_element {ws : Array Word} (hP : p.chunks[m.chunk]? = some P)
    (hi : P.code[m.ip]? = some (.ofByteShort .storeIndirect words 0))
    (hstack : m.stack = S.push address ++ ws) (hws : ws.size = words.toNat)
    (hheap : Address.isHeap address = true) (h : Leads p time 1 m m') :
    m'.stack = S ∧ m'.heap = m.heap.put (address - Address.heapBit).toNat ws.toList ∧
      m.heap.Spans address words.toNat := by
  obtain ⟨m₁, hx, -, hend⟩ :=
    execute_succ hP hi (Instruction.opcode?_ofByteShort .storeIndirect words 0) rfl h.execute
  cases hend
  rw [Instruction.a_ofByteShort, Instruction.short_ofByteShort] at hx
  obtain ⟨base, w, place, m₂, hbase, hoffset, hstore, rfl⟩ :=
    storeIndirect_eq_ok (m := { m with ip := m.ip + 1 }) hstack hws hx
  obtain ⟨rfl, rfl⟩ := Array.push_eq_push.mp hbase
  obtain rfl : address = place := Except.ok.inj ((offset_zero address).symm.trans hoffset)
  have hfew : 0 + ws.size < 4294967296 := by
    have := words.toNat_lt
    omega
  have hspans := spans_of_storeRun hheap hfew hstore
  rw [← Array.size_push] at hstore
  obtain rfl := storeRun_of_isHeap (m := { m with ip := m.ip + 1 }) hheap hstack (Nat.zero_add _)
    (by omega) hstore
  refine ⟨?_, rfl, fun j hj => hspans j (Nat.zero_le j) (by omega)⟩
  show m.stack.shrink S.size = S
  rw [hstack, push_append, Words.shrink_append]

end Exec

/-! ### The code of an assignment -/

/-- Whatever has been laid out keeps its layout. -/
theorem TypeTable.Later.keeps {t t' : TypeTable} (h : t.Later t') : t.Keeps t' := by
  refine ⟨h.size_le, fun id hid => ?_⟩
  have hlt := lt_size_of_complete hid
  have hs : t.structure? id = some t.structures[id] := Array.getElem?_eq_getElem hlt
  have hs' : t'.structures[id]? = t.structures[id]? := (h.structures hs).trans hs.symm
  simp only [layoutAt, at_, Array.getD_eq_getD_getElem?, hs']

namespace Compiler

/-- A literal or the name of a variable stands at an index of the tokens, between brackets. -/
structure IndexAt (c : Compiler) (k : Nat) : Prop where
  value : ∃ token, c.tokens[k]? = some token ∧ c.Plain token
  closes : c.kindAt (k + 1) = .symbol .rightBracket

/-- An index after the list of the global variable at an offset: `c` is the state in front of the
bracket, and `c'` the one behind it. -/
structure Indexes (n : Nat) (ty : Ty) (offset : Nat) (c c' : Compiler) : Prop where
  index : c.IndexAt (c.cursor + 1)
  run : Access.index (productions n) (.place ⟨.list ty, .global, offset⟩) c =
    .ok (.place (.atAddress ty), c')

variable {c c' : Compiler}

theorem Plain.congr {token : Token} (h : c.Plain token) (hscopes : c'.scopes = c.scopes)
    (hscope : c'.scope = c.scope) : c'.Plain token := by
  rw [Plain] at h ⊢
  rwa [hscopes, hscope]

theorem cursor_mapBuilder (c : Compiler) (f : Builder → Builder) :
    (c.mapBuilder f).cursor = c.cursor := by
  rw [mapBuilder]
  split <;> rfl

/-- The code of an index: that of the list's word, that of the index, and the instruction that
computes the address. -/
theorem Indexes.code {n offset : Nat} {ty : Ty} (h : c.Indexes n ty offset c') :
    ∃ (at_ : UInt16) (code : List Instruction) (words : UInt8), at_.toNat = offset ∧
      Pushing 1 code ∧ c.types.wordLength ty = .ok words.toNat ∧
      c.Appends (elementCode at_ code words) c' := by
  obtain ⟨⟨⟨token, htoken, hplain⟩, hcloses⟩, hrun⟩ := h
  obtain ⟨bracket, c₁, hadvance, h₁⟩ := CompileM.bind_eq_ok hrun
  obtain ⟨o, c₂, hderef, h₂⟩ := CompileM.bind_eq_ok h₁
  have hlt : c.cursor < c.tokens.size := by
    have := (Array.getElem?_eq_some_iff.mp htoken).1
    omega
  rw [CompileM.advance_eq (Array.getElem?_eq_getElem hlt)] at hadvance
  cases hadvance
  obtain ⟨rfl, rfl⟩ := CompileM.deref_eq_self (fun _ => Ty.noConfusion) hderef
  obtain ⟨_, c₃, hload, h₃⟩ := CompileM.bind_eq_ok h₂
  obtain ⟨-, one, at_, hone, hat, rfl⟩ := CompileM.load_eq_ok hload
  obtain rfl : one = 1 := UInt8.toNat_inj.mp (Except.ok.inj hone).symm
  obtain ⟨size, c₄, hsize, h₄⟩ := CompileM.bind_eq_ok h₃
  obtain ⟨words, c₅, hbyte, h₅⟩ := CompileM.bind_eq_ok h₄
  obtain ⟨rfl, hn⟩ := CompileM.wordsOf_eq_ok hsize
  obtain ⟨rfl, hwords⟩ := CompileM.byte_eq_ok hbyte
  obtain ⟨_, c₆, hindex, h₆⟩ := CompileM.bind_eq_ok h₅
  -- the index, which is read behind the code of the list's word
  obtain ⟨value, _, hcurrent, h₇⟩ := CompileM.bind_eq_ok hindex
  obtain ⟨ty', c₇, hexpression, h₈⟩ := CompileM.bind_eq_ok h₇
  obtain ⟨_, c₈, hexpect, hconsume⟩ := CompileM.bind_eq_ok h₈
  cases hcurrent
  have hpast : c.Appends [] c.past := .on c { c.reader with cursor := c.cursor + 1 }
  have hlist := hpast.trans (.push c.past (.ofByteShort .loadGlobal 1 at_))
  have hcursor : (c.past.mapBuilder (·.push (.ofByteShort .loadGlobal 1 at_))).cursor =
      c.cursor + 1 := cursor_mapBuilder _ _
  have hends : (c.past.mapBuilder (·.push (.ofByteShort .loadGlobal 1 at_))).kindAt
      (c.cursor + 1 + 1) ∈ Expression.ends := by
    rw [kindAt, tokens_mapBuilder]
    exact List.mem_of_getElem? (i := 3) (congrArg some hcloses.symm)
  cases n with
  | zero => exact absurd hexpression (Fails.failFuel _ _ _)
  | succ n =>
    obtain ⟨k, code, hk, hpushing, happends⟩ := Expression.read_plain
      ⟨token, by rw [hcursor, tokens_mapBuilder]; exact htoken,
        hplain.congr hlist.scopes hlist.scope⟩ (hcursor ▸ hends) hexpression
    obtain ⟨rfl, rfl⟩ :=
      CompileM.expectType_eq_ok hexpect
    obtain rfl : k = 1 := (Except.ok.inj hk).symm
    obtain ⟨_, c₉, hclose, hreturn⟩ := CompileM.bind_eq_ok hconsume
    obtain ⟨⟨r, rfl⟩, -⟩ := Reads.consume _ _ c₈.reader _ c₉ hclose
    cases hreturn
    cases h₆
    have hwhole := ((hlist.trans happends).trans (.on c₈ r)).trans
      (.push (c₈.on r) (.ofBytes .listIndex words 0 0))
    have htypes : (c.past.mapBuilder (·.push (.ofByteShort .loadGlobal 1 at_))).types = c.types :=
      hlist.types
    refine ⟨at_, code, words, hat, hpushing, by rw [hwords, ← htypes]; exact hn, ?_⟩
    rwa [List.append_nil, List.nil_append, List.append_assoc] at hwhole

end Compiler

/-- An assignment ends with a store through the address of its target. -/
theorem Statement.assign_stores {n : Nat} {ty : Ty} {token : Token} {c c' : Compiler}
    (h : assign (productions n) (.place (.atAddress ty)) token c = .ok ((), c')) :
    ∃ words : UInt8, c'.types.wordLength ty = .ok words.toNat ∧
      c'.code.getLast? = some (.ofByteShort .storeIndirect words 0) ∧ c.types.Later c'.types := by
  have hlater := ((tracks_assign (productions_instantiate n).later.track (Walk.good_free _) token
    token).respects c () c' h).types
  obtain ⟨sign, c₁, hadvance, h₁⟩ := CompileM.bind_eq_ok h
  obtain ⟨target, c₂, htarget, h₂⟩ := CompileM.bind_eq_ok h₁
  obtain ⟨value, c₃, hcurrent, h₃⟩ := CompileM.bind_eq_ok h₂
  obtain ⟨ty', c₄, hexpression, h₄⟩ := CompileM.bind_eq_ok h₃
  obtain ⟨_, c₅, hexpect, hstore⟩ := CompileM.bind_eq_ok h₄
  cases htarget
  obtain ⟨words, offset, hwords, hoffset, rfl⟩ := CompileM.store_eq_ok hstore
  obtain rfl : offset = 0 := UInt16.toNat_inj.mp hoffset
  have happends := Compiler.Appends.push c₅
    (.ofByteShort (Place.atAddress ty).storage.storeOp words 0)
  rw [happends.types, happends.code, List.getLast?_concat]
  rw [happends.types] at hlater
  exact ⟨words, hwords, rfl, hlater⟩

/-! ### What is read after an assignment -/

/-- Words that lie in the arena end before it does. -/
theorem Heap.Spans.le_size {h : Heap} {address : Word} {words : Nat} (hs : h.Spans address words)
    (hheap : Address.isHeap address = true) (hpos : 0 < words) (hfew : words < 4294967296) :
    (address - Address.heapBit).toNat + words ≤ h.size := by
  obtain ⟨place, hplace, hlt⟩ := hs (words - 1) (by omega)
  have hindex := (Exec.offset_heap hheap (by omega) hplace).1
  omega

/-- What has been written is read again. -/
theorem run_put {h : Heap} {address : Word} {ws : Array Word} (hs : h.Spans address ws.size)
    (hheap : Address.isHeap address = true) (hfew : ws.size < 4294967296) :
    Words.run (h.put (address - Address.heapBit).toNat ws.toList).words
      (address - Address.heapBit).toNat ws.size = ws := by
  obtain hnone | hpos := Nat.eq_zero_or_pos ws.size
  · rw [hnone, Words.run_zero, Array.eq_empty_of_size_eq_zero hnone]
  · have hle := hs.le_size hheap hpos hfew
    have hrun := @Words.run_write h.words _ ws.toList hle
    rwa [Array.length_toList, Array.toArray_toList] at hrun

/-- Words somewhere else are as they were. -/
theorem run_put_apart {h : Heap} {address other : Word} {ws : Array Word}
    (hapart : Address.Apart ws.size address other) (hheap : Address.isHeap address = true)
    (hother : Address.isHeap other = true) :
    Words.run (h.put (address - Address.heapBit).toNat ws.toList).words
      (other - Address.heapBit).toNat ws.size =
        Words.run h.words (other - Address.heapBit).toNat ws.size := by
  have hroom := Address.isHeap_iff.mp hheap
  have hroom' := Address.isHeap_iff.mp hother
  refine Words.run_eq_run fun j hj => Words.getElem?_write_of_outside ?_
  rw [Array.length_toList, Address.toNat_sub_heapBit hheap, Address.toNat_sub_heapBit hother]
  rw [Address.Apart] at hapart
  omega

/-- The value of an assignment to an element arrives where the element was when its address was
computed, however the machine came from there to the store.  If the variable still holds the same
list then, the index that is computed next gives the same, and the list still has such an element,
the element is read as that value.  If the variable holds a list that lies elsewhere, its element is
read as it was before the store: the assignment is lost. -/
theorem kept_until_moved {n n' offset : Nat} {ty ty' : Ty} {token token' : Token}
    {c c₁ c₂ d d₁ d₂ : Compiler} {p : Program} {P P₁ P₂ : Chunk} {time : Float}
    {m m₁ mₑ m₂ : Machine} {S ws : Array Word} {address : Word}
    (htarget : c.Indexes n ty offset c₁)
    (hassign : Statement.assign (productions n) (.place (.atAddress ty)) token c₁ = .ok ((), c₂))
    (hagain : d.Indexes n' ty offset d₁)
    (hload : CompileM.load (.place (.atAddress ty)) token' d₁ = .ok (ty', d₂))
    (hlater : c₂.types.Later d.types)
    (hP : p.chunks[m.chunk]? = some P) (hcode : P.HoldsAt m.ip (c₁.code.drop c.code.length))
    (hfirst : Exec.Leads p time (c₁.code.length - c.code.length) m m₁)
    (haddress : m₁.stack.back? = some address)
    (hstack : mₑ.stack = S.push address ++ ws) (hws : c₂.types.wordLength ty = .ok ws.size)
    (hP₁ : p.chunks[mₑ.chunk]? = some P₁) (hstore : P₁.code[mₑ.ip]? = c₂.code.getLast?)
    (hlast : Exec.Leads p time 1 mₑ m₂)
    (hP₂ : p.chunks[m₂.chunk]? = some P₂) (hcode₂ : P₂.HoldsAt m₂.ip (d₂.code.drop d.code.length)) :
    ∃ (at_ : UInt16) (words : UInt8) (code code' : List Instruction) (list index : Word),
      c₁.code.drop c.code.length = elementCode at_ code words ∧
      d₁.code.drop d.code.length = elementCode at_ code' words ∧
      m.stack[offset]? = some list ∧
      Exec.Puts p time (m.at_ (m.ip + 1) (m.stack.push list)) code index ∧
      ListBlock.element list index words.toUInt32 = .ok address ∧
      (Address.isHeap list = true →
        m₂.stack = S ∧
        m₂.heap = mₑ.heap.put (address - Address.heapBit).toNat ws.toList ∧
        (S[offset]? = some list →
          Exec.Evaluates p time (m₂.at_ (m₂.ip + 1) (S.push list)) code' #[index] →
          m₂.HasElement list index →
            Exec.Evaluates p time m₂ (d₂.code.drop d.code.length) ws) ∧
        (∀ list' address', S[offset]? = some list' → Address.isHeap list' = true →
          Exec.Evaluates p time (m₂.at_ (m₂.ip + 1) (S.push list')) code' #[index] →
          m₂.HasElement list' index →
          ListBlock.element list' index words.toUInt32 = .ok address' →
          m₂.heap.Spans address' ws.size → Address.Apart ws.size address address' →
            Exec.Evaluates p time m₂ (d₂.code.drop d.code.length)
              (Words.run mₑ.heap.words (address' - Address.heapBit).toNat ws.size))) := by
  obtain ⟨at_, code, words, hat, hpushing, hwords, happends⟩ := htarget.code
  obtain ⟨at', code', words', hat', hpushing', hwords', happends'⟩ := hagain.code
  obtain ⟨words₂, hwords₂, hgetLast, htypes⟩ := Statement.assign_stores hassign
  obtain ⟨-, words₃, zero, hwords₃, hzero, rfl⟩ := CompileM.load_eq_ok hload
  -- the type has one size throughout, and the variable one offset
  obtain rfl : at' = at_ := UInt16.toNat_inj.mp (hat'.trans hat.symm)
  rw [happends.types] at htypes
  have hkeep := TypeTable.wordLength_keep htypes.keeps hwords
  obtain rfl : words₂ = words := UInt8.toNat_inj.mp (Except.ok.inj (hwords₂.symm.trans hkeep))
  have hkeep' := TypeTable.wordLength_keep hlater.keeps hwords₂
  obtain rfl : words' = words₂ := UInt8.toNat_inj.mp (Except.ok.inj (hwords'.symm.trans hkeep'))
  rw [happends'.types] at hwords₃
  obtain rfl : words₃ = words' := UInt8.toNat_inj.mp (Except.ok.inj (hwords₃.symm.trans hkeep'))
  obtain rfl : zero = 0 := UInt16.toNat_inj.mp hzero
  have hsize : ws.size = words₃.toNat := Except.ok.inj (hws.symm.trans hwords₂)
  have hfew := words₃.toNat_lt
  -- the codes of the target, of the element, and of its value
  have hfirstCode : c₁.code.drop c.code.length = elementCode at' code words₃ := by
    rw [happends.code, List.drop_left]
  have hagainCode : d₁.code.drop d.code.length = elementCode at' code' words₃ := by
    rw [happends'.code, List.drop_left]
  have hreadCode : (d₁.mapBuilder (·.push (.ofByteShort .loadIndirect words₃ 0))).code.drop
      d.code.length = elementCode at' code' words₃ ++ [.ofByteShort .loadIndirect words₃ 0] := by
    rw [(Compiler.Appends.push d₁ _).code, happends'.code, List.append_assoc, List.drop_left]
  have hcount : c₁.code.length - c.code.length = (elementCode at' code words₃).length := by
    rw [happends.code, List.length_append, Nat.add_sub_cancel_left]
  have hreads :
      (d₁.mapBuilder (·.push (.ofByteShort (Place.atAddress ty).storage.loadOp words₃ 0))).code =
        (d₁.mapBuilder (·.push (.ofByteShort .loadIndirect words₃ 0))).code := rfl
  rw [hreads, hreadCode] at hcode₂ ⊢
  rw [hfirstCode] at hcode
  rw [hcount] at hfirst
  obtain ⟨list, index, a, hlist, hputs, helement, htop⟩ :=
    Exec.element_of_leads hpushing hP hcode hfirst
  rw [htop, Array.back?_push] at haddress
  obtain rfl : a = address := Option.some.inj haddress
  refine ⟨at', words₃, code, code', list, index, hfirstCode, hagainCode, hat ▸ hlist, hputs,
    helement, fun hheap => ?_⟩
  have hplace : Address.isHeap a = true := (ListBlock.isHeap_element helement).trans hheap
  obtain ⟨hbase, hheap₂, hspans⟩ :=
    Exec.writes_element hP₁ (hstore.trans hgetLast) hstack hsize hplace hlast
  refine ⟨hbase, hheap₂, fun hsame hindex hin => ?_,
    fun list' a' hmoved hheap' hindex hin helement' hspans' hapart => ?_⟩
  · have hspans₂ : m₂.heap.Spans a words₃.toNat := by
      rw [hheap₂, Heap.Spans, Heap.size_put]
      exact hspans
    have hvalue := Exec.evaluates_element hP₂ hcode₂ (by rw [hbase, hat]; exact hsame)
      (by rw [hbase]; exact hindex) hheap hin helement hspans₂
    rwa [hheap₂, ← hsize, run_put (hsize ▸ hspans) hplace (by omega)] at hvalue
  · have hplace' : Address.isHeap a' = true := (ListBlock.isHeap_element helement').trans hheap'
    have hvalue := Exec.evaluates_element hP₂ hcode₂ (by rw [hbase, hat]; exact hmoved)
      (by rw [hbase]; exact hindex) hheap' hin helement' (hsize ▸ hspans')
    rwa [hheap₂, ← hsize, run_put_apart hapart hplace hplace'] at hvalue

/-- A list of one element, and a function that appends another. -/
def growingModule : String :=
  "var xs = Int[]\nfunction grow() returns Int\n    xs.push(9)\n    return 7\nxs.push(1)\n"

/-- An assignment that calls the function, and a look at the element. -/
def growingAssignment : String :=
  "xs[0] = grow()\nvar r = xs[0]\n"

/-- The state of the compilation in front of the bracket of the assignment. -/
def growingTarget : Compiler :=
  match addSource .start "lists" growingModule, tokenize "main" growingAssignment with
  | .ok c, .ok tokens => { c.atModule "main" tokens with cursor := 1 }
  | _, _ => .start

/-- The state of the compilation in front of the bracket of the next statement. -/
def lookedAt (c : Compiler) : Compiler :=
  { c with cursor := 13 }

/-- A check of the machine that a run has come to, if it goes on from there. -/
def Exec.ranTo (x : EStateM.Result Fault Machine Bool) (q : Machine → Bool) : Bool :=
  match x with
  | .ok false m => q m
  | _ => false

theorem Exec.exists_of_ranTo {x : EStateM.Result Fault Machine Bool} {q : Machine → Bool}
    (h : ranTo x q = true) : ∃ m, x = .ok false m ∧ q m = true := by
  cases x with
  | error f m => cases h
  | ok ended m =>
    cases ended with
    | true => cases h
    | false => exact ⟨m, rfl, h⟩

/-- Whether an index that is a literal stands behind the cursor. -/
def Compiler.literalIndex (c : Compiler) : Bool :=
  c.tokens[c.cursor + 1]?.any (fun token => decide (token.kind = .integer)) &&
    decide (c.kindAt (c.cursor + 2) = .symbol .rightBracket)

theorem Compiler.indexAt_of_literalIndex {c : Compiler} (h : c.literalIndex = true) :
    c.IndexAt (c.cursor + 1) := by
  rw [literalIndex, Bool.and_eq_true] at h
  obtain ⟨token, htoken, hkind⟩ := (Option.any_eq_true _ _).mp h.1
  refine ⟨⟨token, htoken, ?_⟩, of_decide_eq_true h.2⟩
  rw [Plain, of_decide_eq_true hkind]
  trivial

/-- The list, which is the first global variable. -/
def growingList : Operand :=
  .place ⟨.list .int, .global, 0⟩

/-- The code of the address of its first element. -/
def firstElement : List Instruction :=
  elementCode 0 [.ofImmediate .pushImmediate 0] 1

theorem index_of_elementCode {at_ at' : UInt16} {code code' : List Instruction} {words words' : UInt8}
    (h : elementCode at_ code words = elementCode at' code' words') : code = code' :=
  (List.append_inj' (List.cons.inj h).2 rfl).1

theorem Chunk.holdsAt_of_extract {P : Chunk} {ip : Nat} {code : List Instruction}
    (h : P.code.extract ip (ip + code.length) = code.toArray) : P.HoldsAt ip code := by
  intro j hj
  have hget := congrArg (fun xs => xs[j]?) h
  have hboth : j < min (ip + code.length) P.code.size - ip ∧ P.code[ip + j]? = some code[j] := by
    simpa [Array.getElem?_extract, hj] using hget
  rw [hboth.2, List.getElem?_eq_getElem hj]

/-- The literal is the same wherever it is computed. -/
theorem Exec.evaluates_zero {p : Program} {P : Chunk} {m : Machine} {words : UInt8} {at_ : UInt16}
    {rest : List Instruction} (hP : p.chunks[m.chunk]? = some P)
    (hi : P.HoldsAt m.ip (elementCode at_ [.ofImmediate .pushImmediate 0] words ++ rest))
    (s : Array Word) :
    Evaluates p 0 (m.at_ (m.ip + 1) s) [.ofImmediate .pushImmediate 0] #[0] := by
  have hliteral : P.code[m.ip + 1]? = some (.ofImmediate .pushImmediate 0) :=
    hi 1 (Nat.succ_lt_succ (Nat.succ_pos _))
  exact leads_pushImmediate (m := m) hP hliteral (by decide) (by decide)

/-- Both lines address the element by the same code. -/
theorem compiles_growingAssignment : ∃ c₁ c₂ d₁ d₂ : Compiler,
    growingTarget.Indexes 2 .int 0 c₁ ∧
    Statement.assign (productions 2) (.place (.atAddress .int)) c₁.current c₁ = .ok ((), c₂) ∧
    (lookedAt c₂).Indexes 2 .int 0 d₁ ∧
    CompileM.load (.place (.atAddress .int)) d₁.current d₁ = .ok (.int, d₂) ∧
    c₁.code.drop growingTarget.code.length = firstElement ∧
    c₂.code.getLast? = some (.ofByteShort .storeIndirect 1 0) ∧
    d₁.code.drop (lookedAt c₂).code.length = firstElement ∧
    d₂.code.drop (lookedAt c₂).code.length = firstElement ++ [.ofByteShort .loadIndirect 1 0] := by
  have hcheck : ((Access.index (productions 2) growingList growingTarget).toOption.any fun r₁ =>
      decide (r₁.1 = .place (.atAddress .int)) && growingTarget.literalIndex &&
      decide (r₁.2.code.drop growingTarget.code.length = firstElement) &&
      (Statement.assign (productions 2) (.place (.atAddress .int)) r₁.2.current r₁.2).toOption.any
        fun r₂ => (lookedAt r₂.2).literalIndex &&
        decide (r₂.2.code.getLast? = some (.ofByteShort .storeIndirect 1 0)) &&
        (Access.index (productions 2) growingList (lookedAt r₂.2)).toOption.any fun r₃ =>
          decide (r₃.1 = .place (.atAddress .int)) &&
          decide (r₃.2.code.drop (lookedAt r₂.2).code.length = firstElement) &&
          (CompileM.load (.place (.atAddress .int)) r₃.2.current r₃.2).toOption.any fun r₄ =>
            decide (r₄.1 = .int) && decide (r₄.2.code.drop (lookedAt r₂.2).code.length =
              firstElement ++ [.ofByteShort .loadIndirect 1 0])) = true := by
    decide +kernel
  obtain ⟨⟨o₁, c₁⟩, htarget, hcheck⟩ := exists_of_any hcheck
  simp only [Bool.and_eq_true, decide_eq_true_eq] at hcheck
  obtain ⟨⟨⟨rfl, hindex⟩, hcode₁⟩, hcheck⟩ := hcheck
  obtain ⟨⟨⟨⟩, c₂⟩, hassign, hcheck⟩ := exists_of_any hcheck
  simp only [Bool.and_eq_true, decide_eq_true_eq] at hcheck
  obtain ⟨⟨hindex', hgetLast⟩, hcheck⟩ := hcheck
  obtain ⟨⟨o₃, d₁⟩, hagain, hcheck⟩ := exists_of_any hcheck
  simp only [Bool.and_eq_true, decide_eq_true_eq] at hcheck
  obtain ⟨⟨rfl, hcode₃⟩, hcheck⟩ := hcheck
  obtain ⟨⟨ty, d₂⟩, hload, hcheck⟩ := exists_of_any hcheck
  simp only [Bool.and_eq_true, decide_eq_true_eq] at hcheck
  obtain ⟨rfl, hcode₄⟩ := hcheck
  have hI₁ : growingTarget.Indexes 2 .int 0 c₁ := ⟨Compiler.indexAt_of_literalIndex hindex, htarget⟩
  have hI₂ : (lookedAt c₂).Indexes 2 .int 0 d₁ := ⟨Compiler.indexAt_of_literalIndex hindex', hagain⟩
  exact ⟨c₁, c₂, d₁, d₂, hI₁, hassign, hI₂, hload, hcode₁, hgetLast, hcode₃, hcode₄⟩

/-- The machine comes to the assignment, computes the address, calls the function and stores what
that gives. -/
theorem runs_growingAssignment : ∃ (p : Program) (P : Chunk) (m m₁ mₑ m₂ : Machine),
    compileModules [("lists", growingModule), ("main", growingAssignment)] = .ok p ∧
    p.chunks[0]? = some P ∧ P.HoldsAt 4 firstElement ∧
    P.code[8]? = some (.ofByteShort .storeIndirect 1 0) ∧
    P.HoldsAt 9 (firstElement ++ [.ofByteShort .loadIndirect 1 0]) ∧
    Exec.Leads p 0 3 m m₁ ∧ Exec.Leads p 0 6 m₁ mₑ ∧ Exec.Leads p 0 1 mₑ m₂ ∧
    (m.chunk = 0 ∧ m.ip = 4 ∧ m.stack = #[Address.ofHeap 0]) ∧
    m₁.stack = #[Address.ofHeap 0, Address.ofHeap 2] ∧
    (mₑ.chunk = 0 ∧ mₑ.ip = 8 ∧ mₑ.stack = #[Address.ofHeap 0, Address.ofHeap 2, 7]) ∧
    m₂.chunk = 0 ∧ m₂.ip = 9 ∧ m₂.heap.words[0]? = some 2 := by
  have hcheck : ((compileModules [("lists", growingModule), ("main", growingAssignment)]).toOption.any
      fun p => ((Machine.new {}).boot p).toOption.any fun m₀ => p.chunks[0]?.any fun P =>
        decide (P.code.extract 4 7 = firstElement.toArray) &&
        decide (P.code[8]? = some (.ofByteShort .storeIndirect 1 0)) &&
        decide (P.code.extract 9 13 =
          (firstElement ++ [Instruction.ofByteShort .loadIndirect 1 0]).toArray) &&
        decide ((m₀.run 4 0).2.chunk = 0 ∧ (m₀.run 4 0).2.ip = 4 ∧
          (m₀.run 4 0).2.stack = #[Address.ofHeap 0]) &&
        Exec.ranTo (Exec.execute p 0 3 (m₀.run 4 0).2) fun m₁ =>
          decide (m₁.stack = #[Address.ofHeap 0, Address.ofHeap 2]) &&
          Exec.ranTo (Exec.execute p 0 6 m₁) fun mₑ =>
            decide (mₑ.chunk = 0 ∧ mₑ.ip = 8 ∧
              mₑ.stack = #[Address.ofHeap 0, Address.ofHeap 2, 7]) &&
            Exec.ranTo (Exec.execute p 0 1 mₑ) fun m₂ =>
              decide (m₂.chunk = 0 ∧ m₂.ip = 9 ∧ m₂.heap.words[0]? = some 2)) = true := by
    decide +kernel
  obtain ⟨p, hcompile, hcheck⟩ := exists_of_any hcheck
  obtain ⟨m₀, -, hcheck⟩ := exists_of_any hcheck
  obtain ⟨P, hP, hcheck⟩ := (Option.any_eq_true _ _).mp hcheck
  simp only [Bool.and_eq_true, decide_eq_true_eq] at hcheck
  obtain ⟨⟨⟨⟨hfirst, hstore⟩, hread⟩, hbegin⟩, hcheck⟩ := hcheck
  obtain ⟨m₁, hran₁, hcheck⟩ := Exec.exists_of_ranTo hcheck
  simp only [Bool.and_eq_true, decide_eq_true_eq] at hcheck
  obtain ⟨haddress, hcheck⟩ := hcheck
  obtain ⟨mₑ, hran₂, hcheck⟩ := Exec.exists_of_ranTo hcheck
  simp only [Bool.and_eq_true, decide_eq_true_eq] at hcheck
  obtain ⟨hvalue, hcheck⟩ := hcheck
  obtain ⟨m₂, hran₃, hcheck⟩ := Exec.exists_of_ranTo hcheck
  exact ⟨p, P, _, m₁, mₑ, m₂, hcompile, hP, Chunk.holdsAt_of_extract hfirst, hstore,
    Chunk.holdsAt_of_extract hread, Exec.leads_of_execute hran₁, Exec.leads_of_execute hran₂,
    Exec.leads_of_execute hran₃, hbegin, haddress, hvalue, of_decide_eq_true hcheck⟩

theorem kept_of_growingModule : ∃ (c₁ c₂ d₁ d₂ : Compiler) (p : Program) (P : Chunk)
    (m m₁ mₑ m₂ : Machine),
    growingTarget.Indexes 2 .int 0 c₁ ∧
    Statement.assign (productions 2) (.place (.atAddress .int)) c₁.current c₁ = .ok ((), c₂) ∧
    (lookedAt c₂).Indexes 2 .int 0 d₁ ∧
    CompileM.load (.place (.atAddress .int)) d₁.current d₁ = .ok (.int, d₂) ∧
    compileModules [("lists", growingModule), ("main", growingAssignment)] = .ok p ∧
    p.chunks[0]? = some P ∧ Exec.Leads p 0 3 m m₁ ∧ Exec.Leads p 0 6 m₁ mₑ ∧
    Exec.Leads p 0 1 mₑ m₂ ∧
    m₁.stack = #[Address.ofHeap 0, Address.ofHeap 2] ∧
    mₑ.stack = #[Address.ofHeap 0, Address.ofHeap 2, 7] ∧
    Exec.Evaluates p 0 m₂ (d₂.code.drop (lookedAt c₂).code.length) #[7] := by
  obtain ⟨c₁, c₂, d₁, d₂, hI₁, hassign, hI₂, hload, hcode₁, hgetLast, hcode₃, hcode₄⟩ :=
    compiles_growingAssignment
  obtain ⟨p, P, m, m₁, mₑ, m₂, hcompile, hP, hfirst, hstore, hread, hleads₁, hleads₂, hleads₃,
    ⟨hchunk, hip, hstack⟩, hstack₁, ⟨hchunkₑ, hipₑ, hstackₑ⟩, hchunk₂, hip₂, hlength⟩ :=
    runs_growingAssignment
  have hcount : c₁.code.length - growingTarget.code.length = 3 := by
    rw [← List.length_drop, hcode₁]
    rfl
  have hP₁ : p.chunks[m.chunk]? = some P := hchunk ▸ hP
  have hP₂ : p.chunks[m₂.chunk]? = some P := hchunk₂ ▸ hP
  have hholds₁ : P.HoldsAt m.ip (c₁.code.drop growingTarget.code.length) := by
    rw [hcode₁, hip]
    exact hfirst
  have hholds₂ : P.HoldsAt m₂.ip (d₂.code.drop (lookedAt c₂).code.length) := by
    rw [hcode₄, hip₂]
    exact hread
  have hpending : mₑ.stack = #[Address.ofHeap 0].push (Address.ofHeap 2) ++ #[7] := hstackₑ
  obtain ⟨at_, words, code, code', list, index, hfirst, hagain, hlist, ⟨mᵢ, hleadsᵢ, hputs⟩, -,
      hrest⟩ :=
    kept_until_moved hI₁ hassign hI₂ hload (.refl _) hP₁ hholds₁ (hcount ▸ hleads₁)
      (congrArg Array.back? hstack₁) hpending rfl (hchunkₑ ▸ hP)
      (by rw [hipₑ, hstore, hgetLast]) hleads₃ hP₂ hholds₂
  obtain rfl : code = [.ofImmediate .pushImmediate 0] :=
    index_of_elementCode (hfirst.symm.trans hcode₁)
  obtain rfl : code' = [.ofImmediate .pushImmediate 0] :=
    index_of_elementCode (hagain.symm.trans hcode₃)
  obtain rfl : Address.ofHeap 0 = list := by
    rw [hstack] at hlist
    exact Option.some.inj hlist
  -- the literal is zero, before the assignment and after it
  obtain rfl : 0 = index := by
    have hcode : P.HoldsAt m.ip
        (elementCode at_ [.ofImmediate .pushImmediate 0] words ++ []) := by
      rw [List.append_nil, ← hfirst]
      exact hholds₁
    have hzero := Exec.evaluates_zero hP₁ hcode (m.stack.push (Address.ofHeap 0))
    have hsame := congrArg Machine.stack (hzero.sub hleadsᵢ (Nat.le_refl _))
    rw [hputs] at hsame
    exact (Array.push_eq_push.mp hsame).1
  obtain ⟨-, -, hkept, -⟩ := hrest (by decide)
  rw [hcode₄] at hholds₂
  have hvalue := hkept rfl (Exec.evaluates_zero hP₂ hholds₂ _) ⟨2, hlength, rfl⟩
  exact ⟨c₁, c₂, d₁, d₂, p, P, m, m₁, mₑ, m₂, hI₁, hassign, hI₂, hload, hcompile, hP, hleads₁, hleads₂,
    hleads₃, hstack₁, hstackₑ, hvalue⟩

/-- The same with a list that is full when the function appends to it. -/
def fullList : List (String × String) :=
  [("lists", growingModule ++ "xs.push(2)\nxs.push(3)\nxs.push(4)\n"), ("main", growingAssignment)]

/-- Then the list moves.  The seven that the function gives is written to the block that has been
freed, and the element is still one. -/
theorem lost_when_moved : ∃ (p : Program) (m₁ m₂ : Machine),
    compileModules fullList = .ok p ∧
    (Machine.new {}).boot p = .ok m₁ ∧
    (m₁.run 16 0).2.stack = #[Address.ofHeap 0, Address.ofHeap 2] ∧
    (m₁.run 22 0).2.stack = #[Address.ofHeap 6, Address.ofHeap 2, 7] ∧
    (m₁.run 22 0).2.run 6 0 = (.ok .halted, m₂) ∧ m₂.stack = #[Address.ofHeap 6, 1] := by
  have hcheck : ((compileModules fullList).toOption.any fun p =>
      ((Machine.new {}).boot p).toOption.any fun m₁ =>
        decide ((m₁.run 16 0).2.stack = #[Address.ofHeap 0, Address.ofHeap 2]) &&
        decide ((m₁.run 22 0).2.stack = #[Address.ofHeap 6, Address.ofHeap 2, 7]) &&
        decide (((m₁.run 22 0).2.run 6 0).1.toOption = some .halted) &&
        decide (((m₁.run 22 0).2.run 6 0).2.stack = #[Address.ofHeap 6, 1])) = true := by
    decide +kernel
  obtain ⟨p, hcompile, hcheck⟩ := exists_of_any hcheck
  obtain ⟨m₁, hboot, hcheck⟩ := exists_of_any hcheck
  simp only [Bool.and_eq_true, decide_eq_true_eq] at hcheck
  obtain ⟨⟨⟨haddress, hvalue⟩, hresult⟩, hafter⟩ := hcheck
  obtain ⟨m₂, hrun⟩ := Machine.run_eq_of_toOption hresult
  rw [hrun] at hafter
  exact ⟨p, m₁, m₂, hcompile, hboot, haddress, hvalue, hrun, hafter⟩

end WordScript
