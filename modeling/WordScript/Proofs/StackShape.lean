/-
The shape of the stack at every instruction.

Code of one pass has a static stack: at each instruction of a chunk the number of
words above the base of the frame is known, whichever way control came there.  A
chunk has a shape if there is such a height for every instruction and each
instruction finds the words it needs.

* `ChunkShape`, `Linkage` — what chunks and host functions take from the stack and
  leave there, as far as their callers rely on it;
* `Instruction.pops`, `Instruction.pushes` — the words that an instruction takes
  and leaves;
* `Instruction.Fits` — an instruction between the heights around it;
* `Chunk.Shaped` — heights for a whole chunk that control cannot leave at its end.

A shape looks at nothing but the code, so it is kept when more chunks are linked
(`Instruction.Fits.mono`).
-/
import WordScript.Program.Verify

namespace WordScript

/-- The words that a call takes from the stack and the words that it leaves there. -/
structure CallShape where
  parameters : Nat
  returns : Nat
deriving Repr, DecidableEq

/-- The shape of a call to a chunk, and how many words at the bottom of the stack the chunk may
address. -/
structure ChunkShape extends CallShape where
  globals : Nat
deriving Repr, DecidableEq

/-- The shapes of the chunks and host functions by number.  The chunk that is run first has no
callers, and so no shape of a call. -/
structure Linkage where
  chunks : List (Option ChunkShape) := []
  externals : List CallShape := []

namespace Linkage

/-- More chunks and host functions; those that were there keep their shapes. -/
structure Le (L L' : Linkage) : Prop where
  chunks : L.chunks <+: L'.chunks
  externals : L.externals <+: L'.externals

namespace Le

theorem refl (L : Linkage) : L.Le L :=
  ⟨List.prefix_refl _, List.prefix_refl _⟩

theorem trans {L₁ L₂ L₃ : Linkage} (h₁ : L₁.Le L₂) (h₂ : L₂.Le L₃) : L₁.Le L₃ :=
  ⟨h₁.chunks.trans h₂.chunks, h₁.externals.trans h₂.externals⟩

theorem chunk {L L' : Linkage} (h : L.Le L') {k : Nat} {s : Option ChunkShape}
    (hk : L.chunks[k]? = some s) : L'.chunks[k]? = some s := by
  obtain ⟨hlt, rfl⟩ := List.getElem?_eq_some_iff.mp hk
  exact List.prefix_iff_getElem?.mp h.chunks k hlt

theorem external {L L' : Linkage} (h : L.Le L') {k : Nat} {s : CallShape}
    (hk : L.externals[k]? = some s) : L'.externals[k]? = some s := by
  obtain ⟨hlt, rfl⟩ := List.getElem?_eq_some_iff.mp hk
  exact List.prefix_iff_getElem?.mp h.externals k hlt

end Le

end Linkage

/-- The words at the bottom of the stack that a chunk may address when its frame has `height` words.
The first chunk has the bottom of the stack in its own frame. -/
def reach (shape : Option ChunkShape) (height : Nat) : Nat :=
  match shape with
  | none => height
  | some s => s.globals

/-- The words of the frame when a chunk is entered. -/
def entryHeight (shape : Option ChunkShape) : Nat :=
  match shape with
  | none => 0
  | some s => s.parameters

namespace Opcode

/-- Operations that only work on memory. -/
def isPlain : Opcode → Bool
  | halt | yield | jump | jumpIfFalse | call | return_ => false
  | _ => true

/-- Control may pass to the next instruction. -/
def fallsThrough : Opcode → Bool
  | halt | return_ | jump => false
  | _ => true

/-- Control may pass to a target. -/
def jumps : Opcode → Bool
  | jump | jumpIfFalse => true
  | _ => false

/-- Control passes to the next instruction, unless there is a fault. -/
def isStraight (op : Opcode) : Bool :=
  op.fallsThrough && !op.jumps

end Opcode

namespace Instruction

/-- The words that an instruction takes from the stack. -/
def pops (i : Instruction) : Opcode → Nat
  | .yield | .jumpIfFalse | .loadIndirect | .offsetAddress | .negateInt | .negateFloat | .not
  | .intToFloat | .floatToInt | .freeHeap | .listLength | .listFree => 1
  | .indexAddress | .listIndex | .addInt | .subtractInt | .multiplyInt | .divideInt | .moduloInt
  | .addFloat | .subtractFloat | .multiplyFloat | .divideFloat | .lessInt | .lessEqualInt
  | .greaterInt | .greaterEqualInt | .lessFloat | .lessEqualFloat | .greaterFloat
  | .greaterEqualFloat | .and | .or => 2
  | .call | .callExternal | .return_ | .duplicate | .storeVariable | .storeGlobal | .select
  | .storeTop => i.a.toNat
  | .storeIndirect | .listPush => i.a.toNat + 1
  | .equal | .notEqual => i.a.toNat + i.a.toNat
  | .pop | .new => i.short.toNat
  | .halt | .jump | .pushImmediate | .loadConstant | .loadHeapConstant | .pushZero
  | .loadVariable | .loadGlobal | .addressOf | .listNew => 0

/-- The words that an instruction leaves on the stack. -/
def pushes (L : Linkage) (i : Instruction) : Opcode → Nat
  | .halt | .yield | .jump | .jumpIfFalse | .return_ | .pop | .storeVariable | .storeGlobal
  | .storeTop | .storeIndirect | .freeHeap | .listPush | .listFree => 0
  | .call =>
    match L.chunks[i.short.toNat]? with
    | some (some s) => s.returns
    | _ => 0
  | .callExternal =>
    match L.externals[i.short.toNat]? with
    | some s => s.returns
    | none => 0
  | .pushZero => i.short.toNat
  | .duplicate => i.a.toNat + i.a.toNat
  | .loadVariable | .loadGlobal | .loadIndirect => i.a.toNat
  | .select => i.c.toNat
  | _ => 1

/-- What an instruction needs besides the words it takes, when the frame has `height` words. -/
def Admits (L : Linkage) (shape : Option ChunkShape) (constants : Array Word) (height : Nat)
    (i : Instruction) : Opcode → Prop
  | .call => ∃ s, L.chunks[i.short.toNat]? = some (some s) ∧ i.a.toNat = s.parameters ∧
      s.globals ≤ reach shape (height - i.a.toNat)
  | .callExternal => ∃ s, L.externals[i.short.toNat]? = some s ∧ i.a.toNat = s.parameters
  | .return_ => ∃ s, shape = some s ∧ i.a.toNat = s.returns
  | .loadConstant => i.short.toNat < constants.size
  | .loadHeapConstant => ∃ payload, constants[i.short.toNat]? = some payload ∧
      i.short.toNat + (1 + payload.toNat) ≤ constants.size
  | .loadVariable => i.short.toNat + i.a.toNat ≤ height
  | .storeVariable => i.short.toNat + i.a.toNat ≤ height - i.a.toNat
  | .loadGlobal => i.short.toNat + i.a.toNat ≤ reach shape height
  | .storeGlobal => i.short.toNat + i.a.toNat ≤ reach shape (height - i.a.toNat)
  | .select => i.b.toNat + i.c.toNat ≤ i.a.toNat
  | .storeTop => i.a.toNat ≤ i.short.toNat ∧ i.a.toNat + i.short.toNat ≤ height
  | _ => True

/-- The place `at_` has the height `height` and is one of the first `n + 1` places. -/
def Lands (heights : Nat → Nat) (n : Nat) (at_ : Int) (height : Nat) : Prop :=
  ∃ k : Nat, at_ = k ∧ k ≤ n ∧ heights k = height

/-- An instruction at `ip` finds what it needs, and the place after it has the height that it leaves.
Control stays among the first `n + 1` places. -/
structure Passes (L : Linkage) (shape : Option ChunkShape) (constants : Array Word)
    (heights : Nat → Nat) (n ip : Nat) (i : Instruction) (op : Opcode) : Prop where
  opcode : i.opcode? = some op
  pops_le : i.pops op ≤ heights ip
  admits : i.Admits L shape constants (heights ip) op
  next : op.fallsThrough = true →
    ip < n ∧ heights (ip + 1) = heights ip - i.pops op + i.pushes L op

/-- An instruction at `ip` fits between the heights around it: it passes, and so does control when
it jumps. -/
structure Fits (L : Linkage) (shape : Option ChunkShape) (constants : Array Word)
    (heights : Nat → Nat) (n ip : Nat) (i : Instruction) (op : Opcode) : Prop extends
    Passes L shape constants heights n ip i op where
  target : op.jumps = true → Lands heights n (i.target ip) (heights ip - i.pops op)

end Instruction

namespace Chunk

/-- Heights for every instruction of a chunk, from which control never leaves the chunk. -/
structure Shaped (L : Linkage) (shape : Option ChunkShape) (c : Chunk) (heights : Nat → Nat) :
    Prop where
  nonempty : 0 < c.code.size
  entry : heights 0 = entryHeight shape
  fits : ∀ (ip : Nat) (i : Instruction), c.code[ip]? = some i →
    ∃ op, i.Fits L shape c.constants heights (c.code.size - 1) ip op
  last : ∀ (i : Instruction) (op : Opcode), c.code.back? = some i → i.opcode? = some op →
    op.jumps = false

end Chunk

end WordScript
