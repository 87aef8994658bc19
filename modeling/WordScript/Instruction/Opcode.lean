/-
The operations of the machine.

Every operation has a byte that stands for it, a mnemonic and a format for the
three operand bytes after it.

* `Opcode.ofByte?_byte`, `Opcode.byte_of_ofByte?` — a byte stands for at most one
  operation, and every operation has one.
-/
namespace WordScript

/-- How the three bytes after the opcode are read. -/
inductive OperandFormat where
  /-- no operands -/
  | none
  /-- three separate bytes -/
  | bytes
  /-- a byte, then an unsigned 16-bit number -/
  | byteShort
  /-- a signed 16-bit number, in the last two bytes -/
  | signedShort
  /-- one signed 24-bit number -/
  | immediate
deriving Repr, DecidableEq

/-- The operations. -/
inductive Opcode where
  -- control flow
  | halt | yield | jump | jumpIfFalse | call | return_ | callExternal
  -- the stack
  | pushImmediate | loadConstant | loadHeapConstant | pushZero | pop | duplicate | loadVariable
  | storeVariable | loadGlobal | storeGlobal | select | storeTop
  -- addresses
  | addressOf | loadIndirect | storeIndirect | offsetAddress | indexAddress
  -- integers
  | addInt | subtractInt | multiplyInt | divideInt | moduloInt | negateInt
  -- floating-point numbers
  | addFloat | subtractFloat | multiplyFloat | divideFloat | negateFloat
  -- comparison
  | lessInt | lessEqualInt | greaterInt | greaterEqualInt | lessFloat | lessEqualFloat
  | greaterFloat | greaterEqualFloat | equal | notEqual
  -- truth values and conversion
  | and | or | not | intToFloat | floatToInt
  -- the heap
  | new | freeHeap | listNew | listPush | listLength | listIndex | listFree
deriving Repr, DecidableEq

namespace Opcode

/-- The byte that stands for an operation. -/
def byte : Opcode → UInt8
  | halt => 0x00
  | yield => 0x01
  | jump => 0x02
  | jumpIfFalse => 0x03
  | call => 0x04
  | return_ => 0x05
  | callExternal => 0x06
  | pushImmediate => 0x10
  | loadConstant => 0x11
  | loadHeapConstant => 0x12
  | pushZero => 0x13
  | pop => 0x14
  | duplicate => 0x15
  | loadVariable => 0x16
  | storeVariable => 0x17
  | loadGlobal => 0x18
  | storeGlobal => 0x19
  | select => 0x1A
  | storeTop => 0x1B
  | addressOf => 0x20
  | loadIndirect => 0x21
  | storeIndirect => 0x22
  | offsetAddress => 0x23
  | indexAddress => 0x24
  | addInt => 0x30
  | subtractInt => 0x31
  | multiplyInt => 0x32
  | divideInt => 0x33
  | moduloInt => 0x34
  | negateInt => 0x35
  | addFloat => 0x38
  | subtractFloat => 0x39
  | multiplyFloat => 0x3A
  | divideFloat => 0x3B
  | negateFloat => 0x3C
  | lessInt => 0x40
  | lessEqualInt => 0x41
  | greaterInt => 0x42
  | greaterEqualInt => 0x43
  | lessFloat => 0x44
  | lessEqualFloat => 0x45
  | greaterFloat => 0x46
  | greaterEqualFloat => 0x47
  | equal => 0x48
  | notEqual => 0x49
  | and => 0x50
  | or => 0x51
  | not => 0x52
  | intToFloat => 0x53
  | floatToInt => 0x54
  | new => 0x60
  | freeHeap => 0x61
  | listNew => 0x62
  | listPush => 0x63
  | listLength => 0x64
  | listIndex => 0x65
  | listFree => 0x66

/-- The operation that a byte stands for. -/
def ofByte? : UInt8 → Option Opcode
  | 0x00 => some halt
  | 0x01 => some yield
  | 0x02 => some jump
  | 0x03 => some jumpIfFalse
  | 0x04 => some call
  | 0x05 => some return_
  | 0x06 => some callExternal
  | 0x10 => some pushImmediate
  | 0x11 => some loadConstant
  | 0x12 => some loadHeapConstant
  | 0x13 => some pushZero
  | 0x14 => some pop
  | 0x15 => some duplicate
  | 0x16 => some loadVariable
  | 0x17 => some storeVariable
  | 0x18 => some loadGlobal
  | 0x19 => some storeGlobal
  | 0x1A => some select
  | 0x1B => some storeTop
  | 0x20 => some addressOf
  | 0x21 => some loadIndirect
  | 0x22 => some storeIndirect
  | 0x23 => some offsetAddress
  | 0x24 => some indexAddress
  | 0x30 => some addInt
  | 0x31 => some subtractInt
  | 0x32 => some multiplyInt
  | 0x33 => some divideInt
  | 0x34 => some moduloInt
  | 0x35 => some negateInt
  | 0x38 => some addFloat
  | 0x39 => some subtractFloat
  | 0x3A => some multiplyFloat
  | 0x3B => some divideFloat
  | 0x3C => some negateFloat
  | 0x40 => some lessInt
  | 0x41 => some lessEqualInt
  | 0x42 => some greaterInt
  | 0x43 => some greaterEqualInt
  | 0x44 => some lessFloat
  | 0x45 => some lessEqualFloat
  | 0x46 => some greaterFloat
  | 0x47 => some greaterEqualFloat
  | 0x48 => some equal
  | 0x49 => some notEqual
  | 0x50 => some and
  | 0x51 => some or
  | 0x52 => some not
  | 0x53 => some intToFloat
  | 0x54 => some floatToInt
  | 0x60 => some new
  | 0x61 => some freeHeap
  | 0x62 => some listNew
  | 0x63 => some listPush
  | 0x64 => some listLength
  | 0x65 => some listIndex
  | 0x66 => some listFree
  | _ => Option.none

/-- The format of the operands. -/
def format : Opcode → OperandFormat
  | return_ | duplicate | select | equal | notEqual | listPush | listIndex | listFree => .bytes
  | call | callExternal | loadConstant | loadHeapConstant | pushZero | pop | loadVariable
  | storeVariable | loadGlobal | storeGlobal | storeTop | addressOf | loadIndirect
  | storeIndirect | offsetAddress | indexAddress | new | freeHeap | listNew => .byteShort
  | jump | jumpIfFalse => .signedShort
  | pushImmediate => .immediate
  | _ => .none

/-- The name of an operation. -/
def mnemonic : Opcode → String
  | halt => "Halt"
  | yield => "Yield"
  | jump => "Jump"
  | jumpIfFalse => "JumpIfFalse"
  | call => "Call"
  | return_ => "Return"
  | callExternal => "CallExternal"
  | pushImmediate => "PushImmediate"
  | loadConstant => "LoadConstant"
  | loadHeapConstant => "LoadHeapConstant"
  | pushZero => "PushZero"
  | pop => "Pop"
  | duplicate => "Duplicate"
  | loadVariable => "LoadVariable"
  | storeVariable => "StoreVariable"
  | loadGlobal => "LoadGlobal"
  | storeGlobal => "StoreGlobal"
  | select => "Select"
  | storeTop => "StoreTop"
  | addressOf => "AddressOf"
  | loadIndirect => "LoadIndirect"
  | storeIndirect => "StoreIndirect"
  | offsetAddress => "OffsetAddress"
  | indexAddress => "IndexAddress"
  | addInt => "AddInt"
  | subtractInt => "SubtractInt"
  | multiplyInt => "MultiplyInt"
  | divideInt => "DivideInt"
  | moduloInt => "ModuloInt"
  | negateInt => "NegateInt"
  | addFloat => "AddFloat"
  | subtractFloat => "SubtractFloat"
  | multiplyFloat => "MultiplyFloat"
  | divideFloat => "DivideFloat"
  | negateFloat => "NegateFloat"
  | lessInt => "LessInt"
  | lessEqualInt => "LessEqualInt"
  | greaterInt => "GreaterInt"
  | greaterEqualInt => "GreaterEqualInt"
  | lessFloat => "LessFloat"
  | lessEqualFloat => "LessEqualFloat"
  | greaterFloat => "GreaterFloat"
  | greaterEqualFloat => "GreaterEqualFloat"
  | equal => "Equal"
  | notEqual => "NotEqual"
  | and => "And"
  | or => "Or"
  | not => "Not"
  | intToFloat => "IntToFloat"
  | floatToInt => "FloatToInt"
  | new => "New"
  | freeHeap => "FreeHeap"
  | listNew => "ListNew"
  | listPush => "ListPush"
  | listLength => "ListLength"
  | listIndex => "ListIndex"
  | listFree => "ListFree"

/-- Every operation, in the order of the bytes. -/
def all : List Opcode :=
  [halt, yield, jump, jumpIfFalse, call, return_, callExternal, pushImmediate, loadConstant,
   loadHeapConstant, pushZero, pop, duplicate, loadVariable, storeVariable, loadGlobal,
   storeGlobal, select, storeTop, addressOf, loadIndirect, storeIndirect, offsetAddress,
   indexAddress, addInt, subtractInt, multiplyInt, divideInt, moduloInt, negateInt, addFloat,
   subtractFloat, multiplyFloat, divideFloat, negateFloat, lessInt, lessEqualInt, greaterInt,
   greaterEqualInt, lessFloat, lessEqualFloat, greaterFloat, greaterEqualFloat, equal, notEqual,
   and, or, not, intToFloat, floatToInt, new, freeHeap, listNew, listPush, listLength, listIndex,
   listFree]

@[simp] theorem ofByte?_byte (op : Opcode) : ofByte? op.byte = some op := by
  cases op <;> rfl

/-- Whether the byte of the operation that a byte stands for is that byte. -/
private def ownByte (n : Fin 256) : Bool :=
  (ofByte? (UInt8.ofFin n)).all fun op => op.byte == UInt8.ofFin n

private theorem ownByte_all : ∀ n : Fin 256, ownByte n = true := by decide +kernel

theorem byte_of_ofByte? {b : UInt8} {op : Opcode} (h : ofByte? b = some op) : op.byte = b := by
  have := ownByte_all b.toFin
  simpa [ownByte, h] using this

end Opcode

end WordScript
