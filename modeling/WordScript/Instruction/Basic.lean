/-
Instructions of four bytes.

The first byte is the opcode; the other three are operands in the opcode's
format, 16-bit operands with the low byte first.  Any four bytes are an
instruction, valid or not, so that programs from outside can be looked at before
they are trusted.

* `Instruction.ofBytes`, `ofByteShort`, `ofSigned`, `ofImmediate` — one
  constructor for each format;
* `Instruction.short`, `signedShort`, `immediate` — the operands read back.
-/
import WordScript.Instruction.Opcode
import WordScript.Text.Pad
import WordScript.Word

namespace WordScript

/-- Four bytes: the opcode and three operand bytes. -/
structure Instruction where
  opcodeByte : UInt8
  a : UInt8
  b : UInt8
  c : UInt8
deriving Repr, DecidableEq, Inhabited

namespace Instruction

/-- An instruction without operands. -/
def ofOpcode (op : Opcode) : Instruction :=
  ⟨op.byte, 0, 0, 0⟩

/-- An instruction with three byte operands. -/
def ofBytes (op : Opcode) (a b c : UInt8) : Instruction :=
  ⟨op.byte, a, b, c⟩

/-- An instruction with a byte and a 16-bit operand. -/
def ofByteShort (op : Opcode) (byte : UInt8) (short : UInt16) : Instruction :=
  ⟨op.byte, byte, short.toUInt8, (short >>> 8).toUInt8⟩

/-- The low 16 bits of an integer. -/
def lowShort (value : Int) : UInt16 :=
  UInt16.ofNat (value % 65536).toNat

/-- An instruction with a signed 16-bit operand. -/
def ofSigned (op : Opcode) (value : Int) : Instruction :=
  ofByteShort op 0 (lowShort value)

/-- An instruction with a signed 24-bit operand; higher bits are lost. -/
def ofImmediate (op : Opcode) (value : Int) : Instruction :=
  let raw := (value % 16777216).toNat
  ⟨op.byte, UInt8.ofNat raw, UInt8.ofNat (raw / 256), UInt8.ofNat (raw / 65536)⟩

/-- The least signed 24-bit number. -/
def immediateMin : Int := -8388608

/-- The greatest signed 24-bit number. -/
def immediateMax : Int := 8388607

/-- The operation, if the first byte stands for one. -/
def opcode? (i : Instruction) : Option Opcode :=
  Opcode.ofByte? i.opcodeByte

/-- The last two bytes as an unsigned number. -/
def short (i : Instruction) : UInt16 :=
  i.b.toUInt16 ||| (i.c.toUInt16 <<< 8)

/-- The last two bytes as a signed number. -/
def signedShort (i : Instruction) : Int :=
  if i.short.toNat < 32768 then i.short.toNat else i.short.toNat - 65536

/-- All four bytes as one word, the opcode lowest. -/
def raw (i : Instruction) : Word :=
  Word.ofBytes i.opcodeByte i.a i.b i.c

/-- The operand bytes as one signed number. -/
def immediate (i : Instruction) : Int :=
  let n := i.a.toNat + 256 * i.b.toNat + 65536 * i.c.toNat
  if n < 8388608 then n else n - 16777216

/-- The same instruction with its last two bytes replaced by a displacement. -/
def withSigned (i : Instruction) (value : Int) : Instruction :=
  let short := lowShort value
  { i with b := short.toUInt8, c := (short >>> 8).toUInt8 }

/-- The instruction as its mnemonic and operands. -/
def text (i : Instruction) : String :=
  match i.opcode? with
  | none => "<invalid " ++ Text.hexadecimal 2 i.opcodeByte.toNat ++ ">"
  | some op =>
    match op.format with
    | .none => op.mnemonic
    | .bytes =>
      op.mnemonic ++ "(" ++ toString i.a.toNat ++ ", " ++ toString i.b.toNat ++ ", "
        ++ toString i.c.toNat ++ ")"
    | .byteShort =>
      op.mnemonic ++ "(" ++ toString i.a.toNat ++ ", " ++ toString i.short.toNat ++ ")"
    | .signedShort => op.mnemonic ++ "(" ++ toString i.signedShort ++ ")"
    | .immediate => op.mnemonic ++ "(" ++ toString i.immediate ++ ")"

end Instruction

end WordScript
