/-
One instruction.

An instruction is fetched, the instruction pointer moves past it, and its
operation acts on the machine.  Control either goes on or stops: at a halt, at a
yield, and at a return without a caller.

* `Exec.perform` — the effect of each operation;
* `Machine.step` — fetch and perform.
-/
import WordScript.Machine.List

namespace WordScript

/-- Whether control goes on after an instruction. -/
inductive Flow where
  | next
  | stop
deriving Repr, DecidableEq

namespace Exec

/-- Jumps inside a chunk of `length` instructions. -/
def jump (i : Instruction) (length : Nat) : Exec Unit := fun m =>
  let target : Int := m.ip + i.signedShort
  if target < 0 ∨ length < target then .error (.invalidProgram (.jumpOutside target)) m
  else .ok () { m with ip := target.toNat }

/-- Calls a chunk of the program. -/
def call (p : Program) (i : Instruction) : Exec Unit := do
  let chunk := i.short.toNat
  if p.chunks.size ≤ chunk then throw (.invalidChunk chunk)
  let m ← get
  if m.config.maxCallDepth ≤ m.frames.size then throw (.callDepthExceeded m.config.maxCallDepth)
  let fp ← top i.a.toNat
  modify fun m => { m with frames := m.frames.push ⟨m.chunk, m.ip, m.fp⟩, chunk, ip := 0, fp }

/-- Moves the result down to the base of the frame and goes back to the caller, if there is one. -/
def return_ (i : Instruction) : Exec Flow := do
  let words := i.a.toNat
  let at_ ← top words
  if at_ < (← get).fp then throw .stackUnderflow
  modify fun m => { m with stack := Words.moveDown m.stack at_ m.fp words }
  modifyGet fun m =>
    match m.frames.back? with
    | none => (.stop, { m with state := .halt })
    | some caller =>
      (.next, { m with
        frames := m.frames.pop, chunk := caller.chunk, ip := caller.ip, fp := caller.fp })

/-- Calls a host function. -/
def callExternal (p : Program) (i : Instruction) : Exec Unit := do
  let index := i.short.toNat
  match (← get).externals[index]? with
  | some f => f.run
  | none => throw (.unboundExternal index (p.externals[index]?.getD ""))

/-- The heap copy of a string constant; it is made when it is first asked for. -/
def heapConstant (c : Chunk) (index : UInt16) : Exec Word := do
  let m ← get
  match m.heapConstants.lookup (m.chunk, index) with
  | some address => return address
  | none =>
    let start := index.toNat
    match c.constants[start]? with
    | none => throw (.invalidProgram (.heapConstantOutOfRange start))
    | some payload =>
      let words := 1 + payload.toNat
      if c.constants.size < start + words then
        throw (.invalidProgram (.heapConstantOutOfRange start))
      let address ← allocateBlock (Words.run c.constants start words)
      modify fun m =>
        { m with heapConstants := ((m.chunk, index), address) :: m.heapConstants }
      return address

/-- Reads `count` words at consecutive addresses onto the stack. -/
def loadRun (address : Word) : Nat → Nat → Exec Unit
  | _, 0 => return
  | k, count + 1 => do
    let w ← load (← lift (Address.offset address (UInt32.ofNat k)))
    pushWord w
    loadRun address (k + 1) count

/-- Writes `count` words of the stack from `at_` on to consecutive addresses. -/
def storeRun (address : Word) (at_ : Nat) : Nat → Nat → Exec Unit
  | _, 0 => return
  | k, count + 1 => do
    let w := ((← get).stack[at_ + k]?).getD 0
    store (← lift (Address.offset address (UInt32.ofNat k))) w
    storeRun address at_ (k + 1) count

/-- Keeps a part of the value on top of the stack. -/
def select (total offset words : Nat) : Exec Unit := do
  if total < offset + words then throw (.invalidProgram .selectPastValue)
  let at_ ← top total
  modify fun m => { m with stack := Words.moveDown m.stack (at_ + offset) at_ words }

/-- Pops a value into a run further down the stack. -/
def storeTop (words depth : Nat) : Exec Unit := do
  let at_ ← top words
  let base ← below at_ depth
  if at_ < base + words then throw (.invalidProgram .storeOverlapsValue)
  popInto base words

/-- Writes the value on top of the stack through the address below it. -/
def storeIndirect (words : Nat) (offset : Word) : Exec Unit := do
  let at_ ← top words
  let slot ← below at_ 1
  let address ← lift (Address.offset (((← get).stack[slot]?).getD 0) offset)
  storeRun address at_ 0 words
  truncate slot

/-- An operation on two words. -/
@[inline] def binary (f : Word → Word → Word) : Exec Unit := do
  let b ← popWord
  let a ← popWord
  pushWord (f a b)

/-- An operation on two floating-point numbers. -/
@[inline] def binaryFloat (f : Float32 → Float32 → Float32) : Exec Unit :=
  binary fun a b => Word.ofFloat (f a.toFloat b.toFloat)

/-- A comparison of two signed integers. -/
@[inline] def compareInt (f : Int32 → Int32 → Bool) : Exec Unit :=
  binary fun a b => Word.ofBool (f a.toInt32 b.toInt32)

/-- A comparison of two floating-point numbers. -/
@[inline] def compareFloat (f : Float32 → Float32 → Bool) : Exec Unit :=
  binary fun a b => Word.ofBool (f a.toFloat b.toFloat)

/-- A division of signed integers; the quotient goes toward zero. -/
@[inline] def divide (f : Int32 → Int32 → Int32) : Exec Unit := do
  let b ← popWord
  let a ← popWord
  if b = 0 then throw .divisionByZero
  pushWord (f a.toInt32 b.toInt32).toUInt32

/-- An operation on one word. -/
@[inline] def unary (f : Word → Word) : Exec Unit := do
  let a ← popWord
  pushWord (f a)

/-- Compares the two values of `words` words on top of the stack. -/
def equal (words : Nat) (expected : Bool) : Exec Unit := do
  let right ← top words
  let left ← below right words
  let x ← stackRun left words
  let y ← stackRun right words
  truncate left
  pushWord (Word.ofBool ((x == y) == expected))

/-- Moves the value on top of the stack to a new heap block and pushes its address. -/
def newBlock (words : Nat) : Exec Unit := do
  let at_ ← top words
  let index ← allocate words
  let value ← stackRun at_ words
  heapStore index value.toList
  truncate at_
  pushWord (Address.ofHeap index)

/-- Frees the block that the slot on the stack points to and empties the slot. -/
def freeBlock (words : Nat) : Exec Unit := do
  let slot ← popWord
  let pointer ← load slot
  if pointer ≠ 0 then
    deallocate (← lift (Address.heapIndex pointer)) words
    store slot 0

/-- Suspends the machine for a number of seconds from `time` on. -/
def suspend (time : Float) : Exec Unit := do
  let duration ← popWord
  modify fun m => { m with resumeAt := time + duration.toFloat.toFloat, state := .yield }

/-- The address of an element of a span of `length` elements. -/
def indexSpan (elementWords length : Word) : Exec Unit := do
  let index ← popWord
  let address ← popWord
  lift (Address.checkIndex index length)
  pushWord (← lift (Address.offset address (index * elementWords)))

/-- Runs an effect after which control goes on. -/
@[inline] def continuing (x : Exec Unit) : Exec Flow := do
  x
  return .next

/-- The effect of an instruction of the chunk `c` at host time `time`. -/
def perform (p : Program) (c : Chunk) (time : Float) (i : Instruction) (op : Opcode) : Exec Flow :=
  match op with
  | .halt => do
    modify fun m => { m with state := .halt }
    return .stop
  | .yield => do
    suspend time
    return .stop
  | .jump => continuing (jump i c.code.size)
  | .jumpIfFalse => continuing do
    let condition ← popWord
    if condition = 0 then jump i c.code.size
  | .call => continuing (call p i)
  | .return_ => return_ i
  | .callExternal => continuing (callExternal p i)
  | .pushImmediate => continuing (pushWord (Word.ofInt i.immediate))
  | .loadConstant => continuing do
    match c.constants[i.short.toNat]? with
    | some w => pushWord w
    | none => throw (.invalidProgram (.constantOutOfRange i.short.toNat))
  | .loadHeapConstant => continuing do
    let address ← heapConstant c i.short
    pushWord address
  | .pushZero => continuing (pushWords (Array.replicate i.short.toNat 0))
  | .pop => continuing do
    let at_ ← top i.short.toNat
    truncate at_
  | .duplicate => continuing do
    let at_ ← top i.a.toNat
    pushRun at_ i.a.toNat
  | .loadVariable => continuing do
    let fp := (← get).fp
    pushRun (fp + i.short.toNat) i.a.toNat
  | .storeVariable => continuing do
    let fp := (← get).fp
    popInto (fp + i.short.toNat) i.a.toNat
  | .loadGlobal => continuing (pushRun i.short.toNat i.a.toNat)
  | .storeGlobal => continuing (popInto i.short.toNat i.a.toNat)
  | .select => continuing (select i.a.toNat i.b.toNat i.c.toNat)
  | .storeTop => continuing (storeTop i.a.toNat i.short.toNat)
  | .addressOf => continuing do
    let fp := (← get).fp
    let base := if i.a = 0 then fp else 0
    pushWord (UInt32.ofNat (base + i.short.toNat))
  | .loadIndirect => continuing do
    let address ← popWord
    let address ← lift (Address.offset address i.short.toUInt32)
    loadRun address 0 i.a.toNat
  | .storeIndirect => continuing (storeIndirect i.a.toNat i.short.toUInt32)
  | .offsetAddress => continuing do
    let address ← popWord
    pushWord (← lift (Address.offset address i.short.toUInt32))
  | .indexAddress => continuing (indexSpan i.a.toUInt32 i.short.toUInt32)
  | .addInt => continuing (binary (· + ·))
  | .subtractInt => continuing (binary (· - ·))
  | .multiplyInt => continuing (binary (· * ·))
  | .divideInt => continuing (divide (· / ·))
  | .moduloInt => continuing (divide (· % ·))
  | .negateInt => continuing (unary (0 - ·))
  | .addFloat => continuing (binaryFloat (· + ·))
  | .subtractFloat => continuing (binaryFloat (· - ·))
  | .multiplyFloat => continuing (binaryFloat (· * ·))
  | .divideFloat => continuing (binaryFloat (· / ·))
  | .negateFloat => continuing (unary fun a => Word.ofFloat (-a.toFloat))
  | .lessInt => continuing (compareInt fun a b => a < b)
  | .lessEqualInt => continuing (compareInt fun a b => a ≤ b)
  | .greaterInt => continuing (compareInt fun a b => b < a)
  | .greaterEqualInt => continuing (compareInt fun a b => b ≤ a)
  | .lessFloat => continuing (compareFloat fun a b => a < b)
  | .lessEqualFloat => continuing (compareFloat fun a b => a ≤ b)
  | .greaterFloat => continuing (compareFloat fun a b => b < a)
  | .greaterEqualFloat => continuing (compareFloat fun a b => b ≤ a)
  | .equal => continuing (equal i.a.toNat true)
  | .notEqual => continuing (equal i.a.toNat false)
  | .and => continuing (binary fun a b => Word.ofBool (a.toBool && b.toBool))
  | .or => continuing (binary fun a b => Word.ofBool (a.toBool || b.toBool))
  | .not => continuing (unary fun a => Word.ofBool (!a.toBool))
  | .intToFloat => continuing (unary fun a => Word.ofFloat a.toInt32.toFloat32)
  | .floatToInt => continuing (unary fun a => a.toFloat.toInt32.toUInt32)
  | .new => continuing (newBlock i.short.toNat)
  | .freeHeap => continuing (freeBlock i.short.toNat)
  | .listNew => continuing do
    let list ← newList i.a.toUInt32 i.short.toUInt32
    pushWord list
  | .listPush => continuing (pushList i.a.toUInt32)
  | .listLength => continuing do
    let list ← popWord
    let length ← lengthList list
    pushWord length
  | .listIndex => continuing (indexList i.a.toUInt32)
  | .listFree => continuing (freeList i.a.toUInt32)

/-- Fetches the next instruction and moves past it. -/
def fetch (p : Program) : Exec (Chunk × Instruction) := fun m =>
  match p.chunks[m.chunk]? with
  | none => .error (.invalidChunk m.chunk) m
  | some c =>
    match c.code[m.ip]? with
    | none => .error (.invalidProgram (.ranPastEnd c.name)) m
    | some i => .ok (c, i) { m with ip := m.ip + 1 }

/-- Executes one instruction at host time `time`. -/
def step (p : Program) (time : Float) : Exec Flow := do
  let (c, i) ← fetch p
  match i.opcode? with
  | some op => perform p c time i op
  | none => throw (.invalidOpcode i.opcodeByte)

/-- Executes instructions until control stops; `false` if it has not after `fuel` of them. -/
def execute (p : Program) (time : Float) : Nat → Exec Bool
  | 0 => return false
  | fuel + 1 => do
    match ← step p time with
    | .stop => return true
    | .next => execute p time fuel

end Exec

end WordScript
