/-
The state of the machine and its memory.

One stack of words holds every frame; a frame is an index into it.  Heap blocks
live in an arena of their own.  An address is a word whose top bit says which of
the two it points into, so that one word can point anywhere.

Execution is a state transformer that keeps the state when it faults: what an
instruction has done before its fault stays done.

* `Exec` — execution with faults;
* `Exec.load`, `Exec.store` — words at addresses;
* `Exec.popWord`, `pushWord`, `top` — the stack.
-/
import WordScript.Machine.Native
import WordScript.Program.StringBlock

namespace WordScript

/-- Limits and initial sizes of a machine. -/
structure MachineConfig where
  initialStackWords : Nat := 1024
  initialHeapWords : Nat := 1024
  maxHeapWords : Nat := 16777216
  maxCallDepth : Nat := 1000
  freeListScanLimit : Nat := 16
deriving Repr, DecidableEq

/-- Whether the machine runs, waits for the clock, or has stopped. -/
inductive ExecutionState where
  | running
  | yield
  | halt
deriving Repr, DecidableEq

/-- A caller that waits for its callee: where it goes on and where its frame begins. -/
structure Frame where
  chunk : Nat
  ip : Nat
  fp : Nat
deriving Repr, DecidableEq

/-- The machine.  `log` holds the lines that host functions have written. -/
structure Machine where
  config : MachineConfig
  program : Option Program := none
  state : ExecutionState := .halt
  stack : Array Word := #[]
  heap : Heap
  frames : Array Frame := #[]
  chunk : Nat := 0
  ip : Nat := 0
  fp : Nat := 0
  externals : Array Native := #[]
  resumeAt : Float := 0
  /-- heap copies of string constants, by chunk and place in the pool -/
  heapConstants : List ((Nat × UInt16) × Word) := []
  log : Array String := #[]

/-- The heap of a machine before anything is allocated. -/
def MachineConfig.emptyHeap (c : MachineConfig) : Heap :=
  Heap.empty c.maxHeapWords c.freeListScanLimit

/-- A machine that has not been booted. -/
def Machine.new (config : MachineConfig) : Machine :=
  { config, heap := config.emptyHeap }

/-- Execution: a state transformer that may fault and then keeps what it has done. -/
abbrev Exec := EStateM Fault Machine

namespace Address

/-- The bit that marks heap addresses. -/
def heapBit : Word := 0x80000000

/-- Whether an address points into the heap. -/
def isHeap (address : Word) : Bool :=
  heapBit ≤ address

/-- The address of a heap index: the index with its top bit set. -/
def ofHeap (index : Nat) : Word :=
  let w := UInt32.ofNat index
  if w < heapBit then w + heapBit else w

/-- The heap index of an address. -/
def heapIndex (address : Word) : Except Fault Nat :=
  if isHeap address then .ok (address - heapBit).toNat else .error (.addressOutOfBounds address)

/-- An address moved by an offset; it stays in the part of memory it points into. -/
def offset (address by_ : Word) : Except Fault Word :=
  let result := address + by_
  if address.toNat + by_.toNat ≥ 4294967296 then .error (.addressOutOfBounds address)
  else if isHeap result != isHeap address then .error (.addressOutOfBounds result)
  else .ok result

/-- Checks an index against a length. -/
def checkIndex (index length : Word) : Except Fault Unit :=
  if index.toInt < 0 ∨ length ≤ index then .error (.indexOutOfBounds index.toInt length.toNat)
  else .ok ()

end Address

namespace Exec

/-- A result that does not touch the machine. -/
@[inline] def lift {α : Type} (r : Except Fault α) : Exec α := fun m =>
  match r with
  | .ok a => .ok a m
  | .error f => .error f m

/-- Hands out a heap block and gives its index. -/
def allocate (length : Nat) : Exec Nat := fun m =>
  let length := Heap.blockLength length
  match m.heap.placement length with
  | .ok p => .ok p.index { m with heap := m.heap.place length p }
  | .error e => .error (.heap e) m

/-- Takes a heap block back. -/
def deallocate (index length : Nat) : Exec Unit := fun m =>
  match m.heap.deallocate index length with
  | .ok heap => .ok () { m with heap }
  | .error e => .error (.heap e) m

/-- Reads a heap word. -/
def heapRead (index : Nat) : Exec Word := fun m =>
  match m.heap.read index with
  | .ok w => .ok w m
  | .error e => .error (.heap e) m

/-- Reads a run of heap words. -/
def heapSlice (index length : Nat) : Exec (Array Word) := fun m =>
  match m.heap.slice index length with
  | .ok ws => .ok ws m
  | .error e => .error (.heap e) m

/-- Writes a run of heap words. -/
def heapStore (index : Nat) (ws : List Word) : Exec Unit := fun m =>
  if m.heap.inBounds index ws.length then .ok () { m with heap := m.heap.put index ws }
  else .error (.heap (.outOfBounds index ws.length)) m

/-- Writes a heap word. -/
def heapWrite (index : Nat) (w : Word) : Exec Unit :=
  heapStore index [w]

/-- Allocates a block for some words and gives its address. -/
def allocateBlock (ws : Array Word) : Exec Word := do
  let index ← allocate ws.size
  heapStore index ws.toList
  return Address.ofHeap index

/-- Pushes a word. -/
@[inline] def pushWord (w : Word) : Exec Unit := fun m =>
  .ok () { m with stack := m.stack.push w }

/-- Pushes a run of words. -/
def pushWords (ws : Array Word) : Exec Unit := fun m =>
  .ok () { m with stack := m.stack ++ ws }

/-- Pops a word. -/
@[inline] def popWord : Exec Word := fun m =>
  match m.stack.back? with
  | some w => .ok w { m with stack := m.stack.pop }
  | none => .error .stackUnderflow m

/-- The index of the first of the top `words` words. -/
def top (words : Nat) : Exec Nat := fun m =>
  if words ≤ m.stack.size then .ok (m.stack.size - words) m else .error .stackUnderflow m

/-- The difference of two stack indices, if there is room. -/
def below (at_ depth : Nat) : Exec Nat :=
  if depth ≤ at_ then return at_ - depth else throw .stackUnderflow

/-- Drops everything from a stack index on. -/
def truncate (size : Nat) : Exec Unit := fun m =>
  .ok () { m with stack := m.stack.shrink size }

/-- The run of stack words at an index. -/
def stackRun (index count : Nat) : Exec (Array Word) := fun m =>
  .ok (Words.run m.stack index count) m

/-- Pushes a copy of the run of words at an index. -/
def pushRun (base words : Nat) : Exec Unit := fun m =>
  if base + words ≤ m.stack.size then
    .ok () { m with stack := m.stack ++ Words.run m.stack base words }
  else .error (.addressOutOfBounds (UInt32.ofNat base)) m

/-- Pops the top words into the run at an index. -/
def popInto (base words : Nat) : Exec Unit := do
  let at_ ← top words
  if at_ < base + words then throw (.addressOutOfBounds (UInt32.ofNat base))
  let moved ← stackRun at_ words
  modify fun m => { m with stack := (Words.write m.stack base moved.toList).shrink at_ }

/-- The word at an address. -/
def load (address : Word) : Exec Word := fun m =>
  if Address.isHeap address then heapRead (address - Address.heapBit).toNat m
  else
    match m.stack[address.toNat]? with
    | some w => .ok w m
    | none => .error (.addressOutOfBounds address) m

/-- Replaces the word at an address. -/
def store (address value : Word) : Exec Unit := fun m =>
  if Address.isHeap address then heapWrite (address - Address.heapBit).toNat value m
  else if address.toNat < m.stack.size then
    .ok () { m with stack := m.stack.setIfInBounds address.toNat value }
  else .error (.addressOutOfBounds address) m

/-- The text of the string block at a heap address. -/
def readString (address : Word) : Exec String := do
  let index ← lift (Address.heapIndex address)
  let payload ← heapRead index
  let words ← heapSlice (index + 1) payload.toNat
  return StringBlock.decode words.toList

/-- Makes a string block on the heap and gives its address. -/
def allocString (text : String) : Exec Word :=
  allocateBlock (StringBlock.encode text)

/-- Writes a line of output. -/
def print (line : String) : Exec Unit := fun m =>
  .ok () { m with log := m.log.push line }

end Exec

namespace Exec

/-- Carries out an effect and gives its failure as a result, for a host function to see. -/
def observe {α : Type} (x : Exec α) : Exec (Except HostFault α) := fun m =>
  match x m with
  | .ok a m' => .ok (.ok a) m'
  | .error f m' => .ok (.error f.toHost) m'

end Exec

/-- Carries out what a host function asks for. -/
def Helper.run : (helper : Helper) → Exec helper.Answer
  | push w => Exec.pushWord w
  | pop => Exec.popWord
  | readWord address => Exec.load address
  | writeWord address value => Exec.store address value
  | readString address => Exec.readString address
  | allocString text => Exec.allocString text
  | print line => Exec.print line

/-- Runs a host function on the machine. -/
def Native.run : Native → Exec Unit
  | .done => return
  | .raise fault => throw fault.fault
  | .call helper next => do
    let answer ← Exec.observe helper.run
    (next answer).run

end WordScript
