/-
Operands survive their encoding.

An instruction is built from an opcode and operands in one of five formats and
read back byte by byte.  Every reader gives back what the builder was given,
within the range of its format:

* `Instruction.short_ofByteShort` — unsigned 16-bit operands, always;
* `Instruction.signedShort_withSigned` — displacements from `-2 ^ 15` to
  `2 ^ 15 - 1`, also when they replace an earlier one;
* `Instruction.immediate_ofImmediate` — immediates from `-2 ^ 23` to `2 ^ 23 - 1`.

The opcode is never touched by its operands.
-/
import WordScript.Instruction.Basic

namespace WordScript.Instruction

/-! ### The opcode -/

@[simp] theorem opcode?_ofOpcode (op : Opcode) : (ofOpcode op).opcode? = some op :=
  Opcode.ofByte?_byte op

@[simp] theorem opcode?_ofBytes (op : Opcode) (a b c : UInt8) :
    (ofBytes op a b c).opcode? = some op :=
  Opcode.ofByte?_byte op

@[simp] theorem opcode?_ofByteShort (op : Opcode) (a : UInt8) (s : UInt16) :
    (ofByteShort op a s).opcode? = some op :=
  Opcode.ofByte?_byte op

@[simp] theorem opcode?_ofSigned (op : Opcode) (d : Int) : (ofSigned op d).opcode? = some op :=
  Opcode.ofByte?_byte op

@[simp] theorem opcode?_ofImmediate (op : Opcode) (v : Int) :
    (ofImmediate op v).opcode? = some op :=
  Opcode.ofByte?_byte op

@[simp] theorem opcode?_withSigned (i : Instruction) (d : Int) :
    (i.withSigned d).opcode? = i.opcode? := rfl

/-! ### Bytes -/

@[simp] theorem a_ofBytes (op : Opcode) (a b c : UInt8) : (ofBytes op a b c).a = a := rfl

@[simp] theorem b_ofBytes (op : Opcode) (a b c : UInt8) : (ofBytes op a b c).b = b := rfl

@[simp] theorem c_ofBytes (op : Opcode) (a b c : UInt8) : (ofBytes op a b c).c = c := rfl

@[simp] theorem a_ofByteShort (op : Opcode) (a : UInt8) (s : UInt16) :
    (ofByteShort op a s).a = a := rfl

@[simp] theorem a_withSigned (i : Instruction) (d : Int) : (i.withSigned d).a = i.a := rfl

/-! ### 16-bit operands -/

/-- The two bytes of a 16-bit number, put together again. -/
theorem or_shiftLeft_bytes (s : UInt16) :
    s.toUInt8.toUInt16 ||| ((s >>> 8).toUInt8.toUInt16 <<< 8) = s := by
  apply UInt16.toNat_inj.mp
  have hs : s.toNat < 65536 := s.toNat_lt
  have hlow : s.toNat % 2 ^ 8 < 2 ^ 8 := Nat.mod_lt _ (by decide)
  have hhigh : ((s >>> 8).toUInt8.toUInt16 <<< 8).toNat = (s.toNat / 256) <<< 8 := by
    simp only [UInt16.toNat_shiftLeft, UInt8.toNat_toUInt16, UInt16.toNat_toUInt8,
      UInt16.toNat_shiftRight, Nat.shiftRight_eq_div_pow, Nat.shiftLeft_eq]
    show s.toNat / 2 ^ 8 % 2 ^ 8 * 2 ^ 8 % 2 ^ 16 = s.toNat / 256 * 2 ^ 8
    omega
  rw [UInt16.toNat_or, hhigh, UInt8.toNat_toUInt16, UInt16.toNat_toUInt8, Nat.or_comm,
    ← Nat.shiftLeft_add_eq_or_of_lt hlow, Nat.shiftLeft_eq]
  omega

@[simp] theorem short_ofByteShort (op : Opcode) (a : UInt8) (s : UInt16) :
    (ofByteShort op a s).short = s :=
  or_shiftLeft_bytes s

@[simp] theorem short_withSigned (i : Instruction) (d : Int) :
    (i.withSigned d).short = lowShort d :=
  or_shiftLeft_bytes _

theorem toNat_lowShort (d : Int) : ((lowShort d).toNat : Int) = d % 65536 := by
  have h₁ : 0 ≤ d % 65536 := Int.emod_nonneg _ (by decide)
  have h₂ : d % 65536 < 65536 := Int.emod_lt_of_pos _ (by decide)
  rw [lowShort, UInt16.toNat_ofNat']
  omega

/-- A displacement that fits is read back. -/
theorem signedShort_withSigned (i : Instruction) {d : Int} (lo : -32768 ≤ d) (hi : d ≤ 32767) :
    (i.withSigned d).signedShort = d := by
  have h := toNat_lowShort d
  rw [signedShort, short_withSigned]
  split <;> omega

theorem signedShort_ofSigned (op : Opcode) {d : Int} (lo : -32768 ≤ d) (hi : d ≤ 32767) :
    (ofSigned op d).signedShort = d :=
  signedShort_withSigned (ofOpcode op) lo hi

/-! ### Immediates -/

/-- An immediate that fits is read back. -/
theorem immediate_ofImmediate (op : Opcode) {v : Int} (lo : immediateMin ≤ v)
    (hi : v ≤ immediateMax) : (ofImmediate op v).immediate = v := by
  simp only [immediateMin, immediateMax] at lo hi
  have h₁ : 0 ≤ v % 16777216 := Int.emod_nonneg _ (by decide)
  have h₂ : v % 16777216 < 16777216 := Int.emod_lt_of_pos _ (by decide)
  simp only [immediate, ofImmediate, UInt8.toNat_ofNat']
  generalize hr : (v % 16777216).toNat = r
  have hbytes : r % 2 ^ 8 + 256 * (r / 256 % 2 ^ 8) + 65536 * (r / 65536 % 2 ^ 8) = r := by
    omega
  rw [hbytes]
  split <;> omega

end WordScript.Instruction
