/-
Programs as bytes.

A number is written in groups of seven bits, the low group first, every byte but
the last with its high bit set.  A sequence is its length and then its elements;
a text is a sequence of bytes; an instruction is its four bytes.  A program is
its chunks, its entry point and the names of its externals.

Each writer has its reader beside it.  A reader takes what it needs off the front
and leaves the rest alone, so whatever follows a program is ignored.

* `Encoding.varint`, `Encoding.readVarint` — numbers;
* `Program.toBytes`, `Program.ofBytes` — programs.
-/
import WordScript.Program.Basic
import WordScript.Text.Utf8

namespace WordScript

/-- Why bytes are not the encoding of a program. -/
inductive DecodeError where
  | unexpectedEnd
  | badVarint
  | badUtf8
deriving Repr, DecidableEq

namespace DecodeError

/-- The wording of an error. -/
def message : DecodeError → String
  | unexpectedEnd => "Hit the end of buffer, expected more data"
  | badVarint =>
    "Found a varint that didn't terminate. Is the usize too big for this platform?"
  | badUtf8 => "Tried to parse invalid utf-8"

end DecodeError

namespace Encoding

/-- A reader takes a value off the front of a byte sequence. -/
abbrev Reader := StateT (List UInt8) (Except DecodeError)

/-- A number in groups of seven bits, the low group first. -/
def varint (n : Nat) : List UInt8 :=
  if n < 128 then [n.toUInt8] else (n % 128 + 128).toUInt8 :: varint (n / 128)
termination_by n
decreasing_by omega

/-- Takes one byte. -/
def readByte : Reader UInt8
  | [] => .error .unexpectedEnd
  | b :: bs => .ok (b, bs)

/-- Reads the groups of a number.  At most `groups` more may come, the last of them no greater than
`lastMax`; the value so far is `value`, and the next group counts `scale` times. -/
def readGroups (lastMax : UInt8) : Nat → Nat → Nat → Reader Nat
  | 0, _, _ => throw .badVarint
  | groups + 1, scale, value => do
    let b ← readByte
    let value := value + b.toNat % 128 * scale
    if b < 128 then
      if groups = 0 ∧ lastMax < b then throw .badVarint else return value
    else readGroups lastMax groups (scale * 128) value

/-- Reads a number of 32 bits. -/
def readWord : Reader Word := do
  return (← readGroups 0x0F 5 1 0).toUInt32

/-- Reads a number of 64 bits. -/
def readSize : Reader Nat :=
  readGroups 0x01 10 1 0

/-- Reads `count` values after those in `done`. -/
def readMany {α : Type} (one : Reader α) : Nat → Array α → Reader (Array α)
  | 0, done => return done
  | count + 1, done => do
    let x ← one
    readMany one count (done.push x)

/-- Reads a length and that many values. -/
def readArray {α : Type} (one : Reader α) : Reader (Array α) := do
  readMany one (← readSize) #[]

/-- Takes a number of bytes at once. -/
def readBytes (count : Nat) : Reader (List UInt8) := fun bytes =>
  let (taken, rest) := bytes.splitAt count
  if taken.length < count then .error .unexpectedEnd else .ok (taken, rest)

/-- A text as its length in bytes and its bytes. -/
def text (s : String) : List UInt8 :=
  let bytes := Utf8.encode s
  varint bytes.length ++ bytes

/-- Reads a text. -/
def readText : Reader String := do
  let bytes ← readBytes (← readSize)
  match Utf8.decode? bytes with
  | some s => return s
  | none => throw .badUtf8

/-- The four bytes of an instruction. -/
def instruction (i : Instruction) : List UInt8 :=
  [i.opcodeByte, i.a, i.b, i.c]

/-- Reads an instruction. -/
def readInstruction : Reader Instruction := do
  return ⟨← readByte, ← readByte, ← readByte, ← readByte⟩

/-- A sequence as its length and its elements. -/
def array {α : Type} (one : α → List UInt8) (xs : Array α) : List UInt8 :=
  varint xs.size ++ xs.toList.flatMap one

/-- The bytes of a chunk. -/
def chunk (c : Chunk) : List UInt8 :=
  text c.name ++ array instruction c.code ++ array (fun w => varint w.toNat) c.constants

/-- Reads a chunk. -/
def readChunk : Reader Chunk := do
  return ⟨← readText, ← readArray readInstruction, ← readArray readWord⟩

/-- Reads a program. -/
def readProgram : Reader Program := do
  return ⟨← readArray readChunk, (← readSize).toUInt64, ← readArray readText⟩

end Encoding

namespace Program

/-- The bytes of a program. -/
def toBytes (p : Program) : List UInt8 :=
  Encoding.array Encoding.chunk p.chunks ++ Encoding.varint p.entryPoint.toNat
    ++ Encoding.array Encoding.text p.externals

/-- The program at the front of a byte sequence. -/
def ofBytes (bytes : List UInt8) : Except DecodeError Program :=
  (Encoding.readProgram bytes).map Prod.fst

end Program

end WordScript
