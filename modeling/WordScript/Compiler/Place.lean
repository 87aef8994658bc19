/-
Places and operands.

A place is where a value of some type is kept.  Places in the current frame and
among the global variables are known by their offset and cost nothing until they
are loaded or stored.  Once an address has to be computed when the program runs,
it lies on the stack, and the place is dynamic: that address and an offset.

An operand is a place that can still be assigned to, or a value that has been
computed onto the stack.

* `CompileM.load`, `store`, `addressOf` — code for places;
* `CompileM.select` — a part of an operand.
-/
import WordScript.Compiler.Emit

namespace WordScript

/-- Where the offset of a place counts from. -/
inductive Storage where
  /-- the base of the current frame -/
  | frame
  /-- the bottom of the stack -/
  | global
  /-- the address on top of the stack -/
  | dynamic
deriving Repr, DecidableEq

/-- A place for a value of a type. -/
structure Place where
  ty : Ty
  storage : Storage
  offset : Nat
deriving Repr, DecidableEq

namespace Place

/-- The place at the address on top of the stack. -/
def atAddress (ty : Ty) : Place :=
  ⟨ty, .dynamic, 0⟩

/-- The place of a variable. -/
def ofVariable (v : Variable) : Place :=
  ⟨v.ty, if v.global then .global else .frame, v.offset⟩

/-- Whether the place needs an address on the stack. -/
def isDynamic (p : Place) : Bool :=
  p.storage == .dynamic

end Place

/-- A place, or a value on the stack. -/
inductive Operand where
  | place (p : Place)
  | value (ty : Ty)
deriving Repr, DecidableEq

namespace Operand

/-- The type of an operand. -/
def ty : Operand → Ty
  | place p => p.ty
  | value t => t

end Operand

namespace CompileM

/-- Puts the value of an operand on the stack. -/
def load (operand : Operand) (token : Token) : CompileM Ty := do
  match operand with
  | .value ty => return ty
  | .place p =>
    let words ← byte (← wordsOf p.ty token) token "loaded value"
    let offset ← short p.offset token "variable offset"
    let op : Opcode :=
      match p.storage with
      | .frame => .loadVariable
      | .global => .loadGlobal
      | .dynamic => .loadIndirect
    emit (.ofByteShort op words offset)
    return p.ty

/-- Takes a value off the stack into a place; the address of a dynamic place lies below it. -/
def store (p : Place) (token : Token) : CompileM Unit := do
  let words ← byte (← wordsOf p.ty token) token "stored value"
  let offset ← short p.offset token "variable offset"
  let op : Opcode :=
    match p.storage with
    | .frame => .storeVariable
    | .global => .storeGlobal
    | .dynamic => .storeIndirect
  emit (.ofByteShort op words offset)

/-- Puts the address of a place on the stack. -/
def addressOf (p : Place) (token : Token) : CompileM Unit := do
  let offset ← short p.offset token "variable offset"
  match p.storage with
  | .frame => emit (.ofByteShort .addressOf 0 offset)
  | .global => emit (.ofByteShort .addressOf 1 offset)
  | .dynamic => if 0 < offset then emit (.ofByteShort .offsetAddress 0 offset)

/-- The place of an operand, which must not be a mere value. -/
def placeOf (operand : Operand) (token : Token) (what : String) : CompileM Place :=
  match operand with
  | .place p => return p
  | .value _ => fail token (.notAssignable ("this " ++ what))

/-- Drops what an operand has put on the stack. -/
def discard (operand : Operand) (token : Token) : CompileM Unit := do
  match operand with
  | .place p => if p.isDynamic then emitPop 1 token
  | .value ty => emitPop (← wordsOf ty token) token

/-- Follows a pointer: its value is the address of what it points to. -/
def deref (operand : Operand) (token : Token) : CompileM Operand := do
  match operand.ty with
  | .pointer inner =>
    let _ ← load operand token
    return .place (.atAddress inner)
  | _ => return operand

/-- The part of type `ty` that begins `offset` words into an operand. -/
def select (operand : Operand) (offset : Nat) (ty : Ty) (token : Token) : CompileM Operand := do
  match operand with
  | .place p => return .place { p with ty, offset := p.offset + offset }
  | .value whole =>
    let total ← byte (← wordsOf whole token) token "selected value"
    let words ← byte (← wordsOf ty token) token "selected value"
    let offset ← byte offset token "selected value"
    emit (.ofBytes .select total offset words)
    return .value ty

/-- The operand of a variable.  A reference is followed right away, so that its name stands for
what it refers to. -/
def variableOperand (v : Variable) (token : Token) : CompileM Operand := do
  let slot := Place.ofVariable v
  match v.ty with
  | .reference inner =>
    let _ ← load (.place slot) token
    return .place (.atAddress inner)
  | _ => return .place slot

end CompileM

end WordScript
