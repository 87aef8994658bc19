/-
The values of literals and variables.

A literal or a variable is an expression whose value can be told from the machine before
its code has run: it is the number that is written, the words of the variable or, for a
reference, the words that it refers to.  The code puts these words on the stack, whatever
has been put there in the meantime.

* `Compiler.value?` — the value of a literal or a variable in a machine;
* `Compiler.Gives` — code that puts words on the stack and changes nothing else;
* `Expression.gives_of_read` — the code of such an expression gives its value.

Design notes: a string literal is left out, since its code may take a block from the
heap.  So are the words that are put on the stack afterwards: a reference that refers to
them has no value.
-/
import WordScript.Proofs.FieldWords
import WordScript.Proofs.PointerAccess

namespace WordScript

/-! ### Words in a machine -/

namespace Machine

/-- So many words behind an address, from the `k`-th one on. -/
def wordsAt? (m : Machine) (address : Word) : Nat → Nat → Option (List Word)
  | _, 0 => some []
  | k, n + 1 =>
    match Address.offset address (UInt32.ofNat k) with
    | .error _ => none
    | .ok place => (m.wordAt? place).bind fun w => (m.wordsAt? address (k + 1) n).map (w :: ·)

/-- Where a variable lies on the stack. -/
def slot (m : Machine) (v : Variable) : Nat :=
  if v.global then v.offset else m.fp + v.offset

theorem slot_at_ (m : Machine) (ip : Nat) (stack : Array Word) (v : Variable) :
    (m.at_ ip stack).slot v = m.slot v :=
  rfl

/-- The words of a variable, those that it refers to if it is a reference. -/
def wordsOf? (m : Machine) (t : TypeTable) (v : Variable) : Option (Array Word) :=
  match v.ty with
  | .reference ty =>
    (m.stack[m.slot v]?).bind fun a => (m.wordsAt? a 0 (t.words ty)).map List.toArray
  | ty =>
    if m.slot v + t.words ty ≤ m.stack.size then
      some (Words.run m.stack (m.slot v) (t.words ty))
    else none

variable {m m' : Machine} {a : Word} {k n : Nat} {ws : List Word} {above : Array Word}

theorem length_of_wordsAt? (h : m.wordsAt? a k n = some ws) : ws.length = n := by
  induction n generalizing k ws with
  | zero =>
    cases h
    rfl
  | succ n ih =>
    rw [wordsAt?] at h
    split at h
    · cases h
    · obtain ⟨w, -, h⟩ := Option.bind_eq_some_iff.mp h
      obtain ⟨rest, hrest, rfl⟩ := Option.map_eq_some_iff.mp h
      rw [List.length_cons, ih hrest]

/-- A word that is there is there under more words. -/
theorem load_of_wordAt? {w : Word} (h : m.wordAt? a = some w) (hheap : m'.heap = m.heap)
    (hstack : m'.stack = m.stack ++ above) : Exec.load a m' = .ok w m' := by
  rw [wordAt?] at h
  rw [Exec.load]
  split at h
  · rename_i hisHeap
    rw [if_pos hisHeap, Exec.heapRead, Heap.read, hheap, h]
  · rename_i hisHeap
    have hlt := (Array.getElem?_eq_some_iff.mp h).1
    have hget : m'.stack[a.toNat]? = some w := by
      rw [hstack, Array.getElem?_append_left hlt, h]
    simp only [if_neg hisHeap, hget]

/-- The words behind an address are read onto the stack. -/
theorem loadRun_of_wordsAt? (h : m.wordsAt? a k n = some ws) (hheap : m'.heap = m.heap)
    (hstack : m'.stack = m.stack ++ above) :
    Exec.loadRun a k n m' = .ok () { m' with stack := m'.stack ++ ws.toArray } := by
  induction n generalizing k ws m' above with
  | zero =>
    cases h
    rw [Array.append_empty]
    rfl
  | succ n ih =>
    rw [wordsAt?] at h
    split at h
    · cases h
    · rename_i place hplace
      obtain ⟨w, hword, h⟩ := Option.bind_eq_some_iff.mp h
      obtain ⟨rest, hrest, rfl⟩ := Option.map_eq_some_iff.mp h
      have hload := load_of_wordAt? hword hheap hstack
      have hpush : Exec.pushWord w m' = .ok () { m' with stack := m'.stack.push w } := rfl
      have hnext : Exec.loadRun a (k + 1) n { m' with stack := m'.stack.push w } = _ :=
        ih hrest hheap
          (show m'.stack.push w = m.stack ++ above.push w by rw [Array.append_push, ← hstack])
      rw [Exec.loadRun, Exec.bind_of_ok (Exec.lift_ok hplace m'), Exec.bind_of_ok hload,
        Exec.bind_of_ok hpush, hnext, List.toArray_cons, ← Array.append_assoc, ← Array.append_singleton]

end Machine

/-- The value that a literal or a variable has in a machine. -/
def Compiler.value? (c : Compiler) (m : Machine) (kind : TokenKind) (lexeme : String) :
    Option (Array Word) :=
  match kind with
  | .integer => (Literal.integer? lexeme).map fun w => #[w]
  | .float => some #[Literal.float lexeme]
  | .keyword .true => some #[1]
  | .keyword .false => some #[0]
  | .identifier => (c.scopes.lookupVariable? c.scope lexeme).bind (m.wordsOf? c.types)
  | _ => none

/-- Only what is on the stack and in the heap counts, and where the frame begins. -/
theorem Machine.wordsAt?_congr {m m' : Machine} (hstack : m'.stack = m.stack)
    (hheap : m'.heap = m.heap) (a : Word) (k n : Nat) : m'.wordsAt? a k n = m.wordsAt? a k n := by
  induction n generalizing k with
  | zero => rfl
  | succ n ih =>
    rw [wordsAt?, wordsAt?]
    split
    · rfl
    · rw [ih, wordAt?, wordAt?, hstack, hheap]

namespace Compiler

variable {c c' : Compiler} {m m' : Machine} {token : Token} {ws : Array Word}

theorem plain_of_value? (h : c.value? m token.kind token.lexeme = some ws) :
    c.Plain token := by
  unfold value? at h
  rw [Plain]
  split at h
  case h_5 hkind =>
    obtain ⟨v, hv, -⟩ := Option.bind_eq_some_iff.mp h
    simp only [hkind]
    exact ⟨v, hv⟩
  case h_6 => cases h
  all_goals
    rename_i hkind
    simp only [hkind]

theorem value?_congr (htypes : c'.types = c.types) (hscopes : c'.scopes = c.scopes)
    (hscope : c'.scope = c.scope) (hstack : m'.stack = m.stack) (hheap : m'.heap = m.heap)
    (hfp : m'.fp = m.fp) (kind : TokenKind) (lexeme : String) :
    c'.value? m' kind lexeme = c.value? m kind lexeme := by
  have hwords : m'.wordsOf? c'.types = m.wordsOf? c.types := by
    funext v
    have hslot : m'.slot v = m.slot v := by rw [Machine.slot, Machine.slot, hfp]
    rw [Machine.wordsOf?, Machine.wordsOf?, hslot, hstack, htypes]
    split
    · simp only [Machine.wordsAt?_congr hstack hheap]
    · rfl
  unfold value?
  rw [hscopes, hscope, hwords]

/-- The number of the next instruction. -/
def here (c : Compiler) : Nat :=
  c.builder.code.code.size

/-- The code that has been added from one state of the compilation to the other puts words on the
stack of the machine and changes nothing else, whatever lies above the words that the machine has. -/
structure Gives (c c' : Compiler) (m : Machine) (ws : Array Word) : Prop where
  adds : c.builder.code.Extends c'.builder.code
  leads : ∀ {p : Program} {P : Chunk} {m' : Machine} (time : Float) (above : Array Word),
    p.chunks[m'.chunk]? = some P → P.Holds c.builder.code c'.builder.code →
    m'.heap = m.heap → m'.fp = m.fp →
    ∃ n, Exec.Leads p time n (m'.at_ c.here (m.stack ++ above))
      (m'.at_ c'.here (m.stack ++ above ++ ws))

variable {i : Instruction} {P : Chunk} {c₀ : Chunk}

@[simp] theorem here_push (c : Compiler) (i : Instruction) :
    (c.mapBuilder (·.push i)).here = c.here + 1 := by
  rw [here, builder_mapBuilder]
  exact Array.size_push i

theorem extends_push (c : Compiler) (i : Instruction) :
    c.builder.code.Extends (c.mapBuilder (·.push i)).builder.code := by
  refine ⟨?_, ?_⟩
  · rw [builder_mapBuilder, Builder.push, Array.toList_push]
    exact List.prefix_append _ _
  · rw [builder_mapBuilder]
    exact List.prefix_refl _

/-- Where the last instruction of the code stands. -/
theorem getElem?_of_holds_push (h : P.Holds c₀ (c.mapBuilder (·.push i)).builder.code)
    (hc : c₀.Extends c.builder.code) : P.code[c.here]? = some i := by
  have hlt : c.here < (c.mapBuilder (·.push i)).here := by
    rw [here_push]
    exact Nat.lt_succ_self _
  refine (h.code _ hc.size_le hlt).trans ?_
  rw [builder_mapBuilder]
  exact Array.getElem?_push_size

/-- Nothing is emitted when a token is taken. -/
theorem Gives.of_past (h : c.past.Gives c' m ws) : c.Gives c' m ws :=
  ⟨h.adds, h.leads⟩

/-- An instruction that puts words on the stack. -/
theorem gives_push (hleads : ∀ {p : Program} {P : Chunk} {m' : Machine} {ip : Nat} (time : Float)
    (above : Array Word), p.chunks[m'.chunk]? = some P → P.code[ip]? = some i → m'.heap = m.heap →
    m'.fp = m.fp → Exec.Leads p time 1 (m'.at_ ip (m.stack ++ above))
      (m'.at_ (ip + 1) (m.stack ++ above ++ ws))) :
    c.Gives (c.mapBuilder (·.push i)) m ws := by
  refine ⟨extends_push c i, fun time above hP hholds hheap hfp => ⟨1, ?_⟩⟩
  rw [here_push]
  exact hleads time above hP (getElem?_of_holds_push hholds (.refl _)) hheap hfp

/-- The words behind an address take its place. -/
theorem Gives.behind {c₁ : Compiler} {a : Word} {words : UInt8} {l : List Word}
    (h : c.Gives c₁ m #[a]) (hl : m.wordsAt? a 0 words.toNat = some l) :
    c.Gives (c₁.mapBuilder (·.push (.ofByteShort .loadIndirect words 0))) m l.toArray := by
  refine ⟨h.adds.trans (extends_push c₁ _), fun {p P m'} time above hP hholds hheap hfp => ?_⟩
  obtain ⟨n, hfirst⟩ := h.leads time above hP (hholds.left (extends_push c₁ _)) hheap hfp
  have hi := getElem?_of_holds_push hholds h.adds
  refine ⟨n + 1, hfirst.trans ?_⟩
  rw [here_push, Array.append_singleton]
  refine Exec.leads_of_perform hP hi (Instruction.opcode?_ofByteShort _ _ _) rfl ?_
  have hload := Machine.loadRun_of_wordsAt? hl
    (show (m'.at_ (c₁.here + 1) (m.stack ++ above)).heap = m.heap from hheap) rfl
  rw [Instruction.short_ofByteShort, Instruction.a_ofByteShort,
    Exec.bind_of_ok (Exec.popWord_push m' _ _ a),
    Exec.bind_of_ok (Exec.lift_ok (Exec.offset_zero a) _), hload]
  rfl

end Compiler

namespace CompileM

open Compiler

variable {c c' : Compiler} {m : Machine} {token : Token} {w : Word} {ws : Array Word}

theorem addConstant_eq_ok {index : UInt16} (h : addConstant w token c = .ok (index, c')) :
    c'.builder.code.code = c.builder.code.code ∧
      c.builder.code.constants.toList <+: c'.builder.code.constants.toList ∧
      c'.builder.code.constants[index.toNat]? = some w := by
  obtain ⟨found, c₁, hfound, hrest⟩ := bind_eq_ok h
  obtain ⟨rfl, rfl⟩ : c.builder.code.constants.findIdx? (· == w) = found ∧ c = c₁ := by
    cases hfound
    exact ⟨rfl, rfl⟩
  cases hfind : c.builder.code.constants.findIdx? (· == w) with
  | some k =>
    rw [hfind] at hrest
    obtain ⟨rfl, hk⟩ := short_eq_ok hrest
    obtain ⟨hlt, hw, -⟩ := Array.findIdx?_eq_some_iff_getElem.mp hfind
    refine ⟨rfl, List.prefix_refl _, ?_⟩
    rw [hk, Array.getElem?_eq_getElem hlt, eq_of_beq hw]
  | none =>
    rw [hfind] at hrest
    obtain ⟨size, c₂, hsize, h₁⟩ := bind_eq_ok hrest
    obtain ⟨_, c₃, hpush, hshort⟩ := bind_eq_ok h₁
    cases hsize
    cases hpush
    obtain ⟨rfl, hk⟩ := short_eq_ok hshort
    rw [builder_mapBuilder, hk]
    refine ⟨rfl, ?_, ?_⟩
    · show _ <+: (c.builder.code.constants ++ #[w]).toList
      rw [Array.toList_append]
      exact List.prefix_append _ _
    · show (c.builder.code.constants ++ #[w])[_]? = _
      rw [← Array.push_eq_append, Array.getElem?_push_size]

theorem gives_of_emitConstant (h : emitConstant w token c = .ok ((), c')) : c.Gives c' m #[w] := by
  obtain ⟨index, c₁, hconstant, hemit⟩ := bind_eq_ok h
  obtain ⟨hcode, hconstants, hw⟩ := addConstant_eq_ok hconstant
  cases hemit
  have hadds : c.builder.code.Extends c₁.builder.code :=
    ⟨hcode ▸ List.prefix_refl _, hconstants⟩
  refine ⟨hadds.trans (extends_push c₁ _), fun time above hP hholds _ _ => ⟨1, ?_⟩⟩
  have hi := getElem?_of_holds_push hholds hadds
  have hhere : c.here = c₁.here := (congrArg Array.size hcode).symm
  have hlt := (Array.getElem?_eq_some_iff.mp hw).1
  rw [here_push, hhere, Array.append_singleton]
  refine Exec.leads_loadConstant (k := index.toNat) hP ?_ index.toNat_lt ?_
  · rwa [UInt16.ofNat_toNat]
  · have hheld := (hholds.left (extends_push c₁ _)).constants
    rw [Chunk.getElem?_of_extends hheld hlt, hw]

theorem gives_of_immediate {v : Int} (hlo : Instruction.immediateMin ≤ v)
    (hhi : v ≤ Instruction.immediateMax) :
    c.Gives (c.mapBuilder (·.push (.ofImmediate .pushImmediate v))) m #[Word.ofInt v] := by
  refine gives_push fun time above hP hi _ _ => ?_
  rw [Array.append_singleton]
  exact Exec.leads_pushImmediate hP hi hlo hhi

theorem gives_of_emitInteger (h : emitInteger w.toInt token c = .ok ((), c')) :
    c.Gives c' m #[w] := by
  rw [emitInteger] at h
  split at h
  · rename_i hbounds
    cases h
    have hgives := gives_of_immediate (c := c) (m := m) hbounds.1 hbounds.2
    rwa [Word.ofInt_toInt] at hgives
  · rw [Word.ofInt_toInt] at h
    exact gives_of_emitConstant h

end CompileM

/-! ### Variables -/

namespace Exec

variable {p : Program} {P : Chunk} {time : Float} {m : Machine} {ip k : Nat} {S w : Array Word}
  {v : Variable} {words : UInt8} {offset : UInt16}

/-- Words of a variable are put on the stack. -/
theorem leads_loadSlot (hP : p.chunks[m.chunk]? = some P)
    (hi : P.code[ip]? = some (.ofByteShort (Place.ofVariable v).storage.loadOp words offset))
    (hoffset : offset.toNat = v.offset + k) (hin : m.slot v + k + words.toNat ≤ S.size) :
    Leads p time 1 (m.at_ ip S) (m.at_ (ip + 1) (S ++ Words.run S (m.slot v + k) words.toNat)) := by
  rw [Machine.slot] at hin ⊢
  rw [Place.ofVariable] at hi
  split at hin
  · rename_i hglobal
    rw [if_pos hglobal] at hi ⊢
    refine leads_of_perform hP hi (Instruction.opcode?_ofByteShort _ _ _) rfl ?_
    rw [Instruction.short_ofByteShort, Instruction.a_ofByteShort, hoffset]
    exact pushRun_eq hin
  · rename_i hframe
    rw [if_neg hframe] at hi ⊢
    refine leads_of_perform hP hi (Instruction.opcode?_ofByteShort _ _ _) rfl ?_
    rw [Instruction.short_ofByteShort, Instruction.a_ofByteShort, hoffset, Nat.add_assoc]
    rw [Nat.add_assoc m.fp] at hin
    exact pushRun_eq hin

/-- The value on top of the stack is stored into a variable. -/
theorem leads_storeSlot (hP : p.chunks[m.chunk]? = some P)
    (hi : P.code[ip]? = some (.ofByteShort (Place.ofVariable v).storage.storeOp words offset))
    (hoffset : offset.toNat = v.offset) (hw : w.size = words.toNat)
    (hin : m.slot v + w.size ≤ S.size) :
    Leads p time 1 (m.at_ ip (S ++ w)) (m.at_ (ip + 1) (Words.write S (m.slot v) w.toList)) := by
  rw [Machine.slot] at hin ⊢
  rw [Place.ofVariable] at hi
  split at hin
  · rename_i hglobal
    rw [if_pos hglobal] at hi ⊢
    refine leads_of_perform hP hi (Instruction.opcode?_ofByteShort _ _ _) rfl ?_
    rw [Instruction.short_ofByteShort, Instruction.a_ofByteShort, hoffset, ← hw]
    exact popInto_append m (ip + 1) hin
  · rename_i hframe
    rw [if_neg hframe] at hi ⊢
    refine leads_of_perform hP hi (Instruction.opcode?_ofByteShort _ _ _) rfl ?_
    rw [Instruction.short_ofByteShort, Instruction.a_ofByteShort, hoffset, ← hw]
    exact popInto_append m (ip + 1) hin

end Exec

/-- An instruction that loads words of a variable, from the `k`-th one on. -/
theorem Compiler.gives_loadSlot {c : Compiler} {m : Machine} {v : Variable} {words : UInt8}
    {offset : UInt16} {k : Nat} (hoffset : offset.toNat = v.offset + k)
    (hin : m.slot v + k + words.toNat ≤ m.stack.size) :
    c.Gives (c.mapBuilder
        (·.push (.ofByteShort (Place.ofVariable v).storage.loadOp words offset))) m
      (Words.run m.stack (m.slot v + k) words.toNat) := by
  refine gives_push fun {p P m' ip} time above hP hi _ hfp => ?_
  have hslot : m'.slot v = m.slot v := by rw [Machine.slot, Machine.slot, hfp]
  have hleads : Exec.Leads p time 1 (m'.at_ ip (m.stack ++ above)) _ :=
    Exec.leads_loadSlot hP hi hoffset (by
      rw [hslot, Array.size_append]
      omega)
  rwa [hslot, Words.run_append_left _ _ hin] at hleads

namespace CompileM

open Compiler

variable {c c' : Compiler} {m : Machine} {token : Token} {ws : Array Word}

/-- The code of a variable that is taken as it is. -/
theorem gives_of_load {v : Variable} {ty : Ty}
    (h : load (.place (.ofVariable v)) token c = .ok (ty, c'))
    (hin : m.slot v + c.types.words v.ty ≤ m.stack.size) :
    ty = v.ty ∧ c.Gives c' m (Words.run m.stack (m.slot v) (c.types.words v.ty)) := by
  obtain ⟨rfl, words, offset, hwords, hoffset, rfl⟩ := load_eq_ok h
  have hwords : c.types.words v.ty = words.toNat := TypeTable.words_of_wordLength hwords
  rw [hwords] at hin ⊢
  exact ⟨rfl, gives_loadSlot (k := 0) hoffset hin⟩

/-- The code of a variable: that of its words, or of the words that it refers to. -/
theorem gives_of_variable {v : Variable} {o : Operand} {c₁ : Compiler} {ty : Ty} {token' : Token}
    (hoperand : variableOperand v token c = .ok (o, c₁)) (hload : load o token' c₁ = .ok (ty, c'))
    (hvalue : m.wordsOf? c.types v = some ws) : c.Gives c' m ws ∧ ws.size = c.types.words ty := by
  rw [Machine.wordsOf?] at hvalue
  split at hvalue
  · rename_i inner hty
    obtain ⟨a, ha, hwords⟩ := Option.bind_eq_some_iff.mp hvalue
    obtain ⟨l, hl, rfl⟩ := Option.map_eq_some_iff.mp hwords
    simp only [variableOperand, hty] at hoperand
    obtain ⟨slot, c₂, hslot, hreturn⟩ := bind_eq_ok hoperand
    cases hreturn
    have hone : c.types.words v.ty = 1 := by rw [hty, TypeTable.words]
    have hlt := (Array.getElem?_eq_some_iff.mp ha).1
    -- a reference: its one word is the address of the words
    obtain ⟨-, haddress⟩ := gives_of_load hslot (by rw [hone]; exact hlt)
    rw [hone, Words.run_one ha] at haddress
    obtain ⟨rfl, words, offset, hsize, hoffset, rfl⟩ := load_eq_ok hload
    obtain rfl : offset = 0 := UInt16.toNat_inj.mp hoffset
    obtain ⟨-, _, _, -, -, rfl⟩ := load_eq_ok hslot
    rw [types_mapBuilder] at hsize
    have hsize : c.types.words ty = words.toNat := TypeTable.words_of_wordLength hsize
    rw [hsize] at hl
    refine ⟨haddress.behind hl, ?_⟩
    rw [List.size_toArray, Machine.length_of_wordsAt? hl]
    exact hsize.symm
  · rename_i hplain
    split at hvalue
    · rename_i hin
      cases hvalue
      rw [variableOperand_eq hplain] at hoperand
      cases hoperand
      obtain ⟨rfl, hgives⟩ := gives_of_load hload hin
      exact ⟨hgives, Words.size_run hin⟩
    · cases hvalue

end CompileM

/-! ### Expressions -/

namespace Expression

open CompileM Compiler

variable {g : Productions} {c c' : Compiler} {m : Machine} {token : Token} {ws : Array Word}

/-- A literal other than a string has a value once it has been compiled, and so has a variable whose
words are there. -/
theorem exists_value? {o : Operand} (htoken : c.tokens[c.cursor]? = some token)
    (hplain : c.Plain token) (hstring : token.kind ≠ .string)
    (hwords : ∀ v, c.scopes.lookupVariable? c.scope token.lexeme = some v →
      (m.wordsOf? c.types v).isSome)
    (hprimary : primary g c = .ok (o, c')) : ∃ ws, c.value? m token.kind token.lexeme = some ws := by
  rw [Plain] at hplain
  unfold value?
  split at hplain
  -- an integer that is too large has no value, but is not compiled either
  case h_1 hkind =>
    obtain ⟨t, c₀, hcurrent, hrest⟩ := bind_eq_ok hprimary
    cases hcurrent
    rw [current_eq htoken] at hrest
    simp only [hkind] at hrest ⊢
    obtain ⟨_, c₂, -, h₂⟩ := bind_eq_ok hrest
    cases hliteral : Literal.integer? token.lexeme with
    | none =>
      rw [hliteral] at h₂
      exact absurd h₂ (Fails.fail _ _ _ _ _)
    | some w => exact ⟨_, rfl⟩
  case h_3 hkind => exact absurd hkind hstring
  case h_6 hkind =>
    obtain ⟨v, hv⟩ := hplain
    obtain ⟨ws, hws⟩ := Option.isSome_iff_exists.mp (hwords v hv)
    simp only [hkind]
    exact ⟨ws, Option.bind_eq_some_iff.mpr ⟨v, hv, hws⟩⟩
  case h_7 => exact hplain.elim
  all_goals
    rename_i hkind
    simp only [hkind]
    exact ⟨_, rfl⟩

/-- The name of a variable. -/
theorem primary_of_variable {v : Variable} {o : Operand} (htoken : c.tokens[c.cursor]? = some token)
    (hkind : token.kind = .identifier)
    (hv : c.scopes.lookupVariable? c.scope token.lexeme = some v)
    (hprimary : primary g c = .ok (o, c')) : variableOperand v token c.past = .ok (o, c') := by
  obtain ⟨t, c₀, hcurrent, hrest⟩ := bind_eq_ok hprimary
  cases hcurrent
  rw [current_eq htoken] at hrest
  simp only [hkind] at hrest
  obtain ⟨t, c₁, hname, hlookup⟩ := bind_eq_ok hrest
  cases hname
  rw [current_eq htoken, ask_bind, hv] at hlookup
  obtain ⟨_, c₂, hadvance, hoperand⟩ := bind_eq_ok hlookup
  rw [advance_eq htoken] at hadvance
  cases hadvance
  exact hoperand

/-- The code of a literal or a variable that is a whole expression puts its value on the stack. -/
theorem gives_of_read {ty : Ty} (htoken : c.tokens[c.cursor]? = some token)
    (hvalue : c.value? m token.kind token.lexeme = some ws) (hends : c.kindAt (c.cursor + 1) ∈ ends)
    (hread : read g .or c = .ok (ty, c')) : c.Gives c' m ws ∧ ws.size = c.types.words ty := by
  obtain ⟨o, c₁, hprimary, hload⟩ := read_of_plain htoken (plain_of_value? hvalue) hends hread
  obtain ⟨t, c₀, hcurrent, hrest⟩ := bind_eq_ok hprimary
  cases hcurrent
  rw [current_eq htoken] at hrest
  unfold value? at hvalue
  -- one case for each kind of token that has a value
  split at hvalue
  case h_1 hkind =>
    obtain ⟨w, hliteral, rfl⟩ := Option.map_eq_some_iff.mp hvalue
    simp only [hkind] at hrest
    obtain ⟨_, c₂, hadvance, h₂⟩ := bind_eq_ok hrest
    rw [advance_eq htoken] at hadvance
    cases hadvance
    rw [hliteral] at h₂
    obtain ⟨_, c₃, hemit, hreturn⟩ := bind_eq_ok h₂
    cases hreturn
    cases hload
    exact ⟨.of_past (gives_of_emitInteger hemit), rfl⟩
  case h_2 hkind =>
    cases hvalue
    simp only [hkind] at hrest
    obtain ⟨_, c₂, hadvance, h₂⟩ := bind_eq_ok hrest
    rw [advance_eq htoken] at hadvance
    cases hadvance
    obtain ⟨_, c₃, hemit, hreturn⟩ := bind_eq_ok h₂
    cases hreturn
    cases hload
    exact ⟨.of_past (gives_of_emitConstant hemit), rfl⟩
  case h_5 hkind =>
    obtain ⟨v, hv, hwords⟩ := Option.bind_eq_some_iff.mp hvalue
    have hoperand := primary_of_variable htoken hkind hv hprimary
    obtain ⟨hgives, hsize⟩ := gives_of_variable hoperand hload hwords
    exact ⟨.of_past hgives, hsize⟩
  case h_6 => cases hvalue
  all_goals
    rename_i hkind
    cases hvalue
    simp only [hkind] at hrest
    obtain ⟨_, c₂, hadvance, h₂⟩ := bind_eq_ok hrest
    rw [advance_eq htoken] at hadvance
    cases hadvance
    obtain ⟨_, c₃, hemit, hreturn⟩ := bind_eq_ok h₂
    cases hemit
    cases hreturn
    cases hload
    exact ⟨.of_past (gives_of_immediate (by decide) (by decide)), rfl⟩

end Expression

end WordScript
