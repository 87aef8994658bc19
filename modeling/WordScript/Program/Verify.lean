/-
Structural checks of a program.

A program passes if its entry point names a chunk and every chunk passes: each
first byte is an opcode, jumps stay inside the chunk or at its very end, called
chunks and externals exist, constants lie in the pool, and the last instruction
cannot fall through.  The first offence in the order of the chunks, and inside a
chunk in the order of the instructions, is reported.

* `Program.verify` — the check;
* `Program.verify_eq_ok_iff` — it succeeds exactly when every chunk's check does.
-/
import WordScript.Program.Basic

namespace WordScript

/-- Why a program is not fit to be run. -/
inductive VerifyError where
  | missingEntry (entryPoint : Nat)
  | invalidOpcode (chunk ip : Nat) (byte : UInt8)
  | jumpOutOfRange (chunk ip : Nat) (target : Int)
  | unknownChunk (chunk ip : Nat) (callee : UInt16)
  | unknownExternal (chunk ip : Nat) (index : UInt16)
  | constantOutOfRange (chunk ip : Nat) (index : Nat)
  | missingTerminator (chunk : Nat)
deriving Repr, DecidableEq

namespace VerifyError

/-- An instruction's place, as messages give it. -/
def place (chunk ip : Nat) : String :=
  toString chunk ++ ":" ++ toString ip ++ ": "

/-- The wording of an error. -/
def message : VerifyError → String
  | missingEntry e => "entry point " ++ toString e ++ " does not name a chunk"
  | invalidOpcode c ip byte =>
    place c ip ++ "invalid opcode " ++ Text.hexadecimal 2 byte.toNat
  | jumpOutOfRange c ip target =>
    place c ip ++ "jump lands outside the chunk (target " ++ toString target ++ ")"
  | unknownChunk c ip callee =>
    place c ip ++ "call to missing chunk " ++ toString callee.toNat
  | unknownExternal c ip index =>
    place c ip ++ "call to missing external " ++ toString index.toNat
  | constantOutOfRange c ip index =>
    place c ip ++ "constant " ++ toString index ++ " is outside the pool"
  | missingTerminator c => "chunk " ++ toString c ++ " can run past its last instruction"

end VerifyError

namespace Instruction

/-- Where a jump at `ip` lands. -/
def target (i : Instruction) (ip : Nat) : Int :=
  ip + 1 + i.signedShort

/-- Whether control cannot pass to the next instruction. -/
def terminates (i : Instruction) : Bool :=
  match i.opcode? with
  | some .halt | some .return_ | some .jump => true
  | _ => false

end Instruction

namespace Program

/-- Checks that `words` constants from `index` lie in the pool. -/
def checkConstants (c : Chunk) (k ip index words : Nat) : Except VerifyError Unit :=
  if c.constants.size < index + words then .error (.constantOutOfRange k ip index) else .ok ()

/-- Checks the instruction at `ip` of the chunk `c`, which has the number `k`. -/
def checkInstruction (p : Program) (k : Nat) (c : Chunk) (ip : Nat) (i : Instruction) :
    Except VerifyError Unit :=
  match i.opcode? with
  | none => .error (.invalidOpcode k ip i.opcodeByte)
  | some .jump | some .jumpIfFalse =>
    let target := i.target ip
    if target < 0 ∨ c.code.size < target then .error (.jumpOutOfRange k ip target) else .ok ()
  | some .call =>
    if i.short.toNat < p.chunks.size then .ok () else .error (.unknownChunk k ip i.short)
  | some .callExternal =>
    if i.short.toNat < p.externals.size then .ok () else .error (.unknownExternal k ip i.short)
  | some .loadConstant => checkConstants c k ip i.short.toNat 1
  | some .loadHeapConstant =>
    let payload := (c.constants[i.short.toNat]?.getD 0).toNat
    checkConstants c k ip i.short.toNat (payload + 1)
  | some _ => .ok ()

/-- Checks the instructions of a list, the first of which stands at `ip`. -/
def checkCode (p : Program) (k : Nat) (c : Chunk) : Nat → List Instruction → Except VerifyError Unit
  | _, [] => .ok ()
  | ip, i :: is =>
    match p.checkInstruction k c ip i with
    | .error e => .error e
    | .ok () => p.checkCode k c (ip + 1) is

/-- Whether the last instruction of the chunk cannot fall through. -/
def endsClosed (c : Chunk) : Bool :=
  c.code.back?.any Instruction.terminates

/-- Checks the chunk with the number `k`. -/
def checkChunk (p : Program) (k : Nat) (c : Chunk) : Except VerifyError Unit :=
  match p.checkCode k c 0 c.code.toList with
  | .error e => .error e
  | .ok () => if endsClosed c then .ok () else .error (.missingTerminator k)

/-- Checks the chunks of a list, the first of which has the number `k`. -/
def checkChunks (p : Program) : Nat → List Chunk → Except VerifyError Unit
  | _, [] => .ok ()
  | k, c :: cs =>
    match p.checkChunk k c with
    | .error e => .error e
    | .ok () => p.checkChunks (k + 1) cs

/-- Checks a whole program. -/
def verify (p : Program) : Except VerifyError Unit :=
  match p.entry? with
  | none => .error (.missingEntry p.entryPoint.toNat)
  | some _ => p.checkChunks 0 p.chunks.toList

theorem checkCode_eq_ok_iff {p : Program} {k : Nat} {c : Chunk} {is : List Instruction} {ip : Nat} :
    p.checkCode k c ip is = .ok () ↔
      ∀ (j : Nat) (i : Instruction), is[j]? = some i → p.checkInstruction k c (ip + j) i = .ok () := by
  induction is generalizing ip with
  | nil => simp [checkCode]
  | cons i is ih =>
    rw [checkCode]
    split
    · next e he =>
      simp only [reduceCtorEq, false_iff]
      intro h
      have := h 0 i (by simp)
      simp [he] at this
    · next he =>
      rw [ih]
      constructor
      · intro h j i' hj
        cases j with
        | zero => simp at hj; subst hj; simpa using he
        | succ j =>
          have := h j i' (by simpa using hj)
          rwa [Nat.add_assoc, Nat.add_comm 1 j] at this
      · intro h j i' hj
        have := h (j + 1) i' (by simpa using hj)
        rwa [← Nat.add_assoc, Nat.add_right_comm] at this

theorem checkChunks_eq_ok_iff {p : Program} {cs : List Chunk} {k : Nat} :
    p.checkChunks k cs = .ok () ↔
      ∀ (j : Nat) (c : Chunk), cs[j]? = some c → p.checkChunk (k + j) c = .ok () := by
  induction cs generalizing k with
  | nil => simp [checkChunks]
  | cons c cs ih =>
    rw [checkChunks]
    split
    · next e he =>
      simp only [reduceCtorEq, false_iff]
      intro h
      have := h 0 c (by simp)
      simp [he] at this
    · next he =>
      rw [ih]
      constructor
      · intro h j c' hj
        cases j with
        | zero => simp at hj; subst hj; simpa using he
        | succ j =>
          have := h j c' (by simpa using hj)
          rwa [Nat.add_assoc, Nat.add_comm 1 j] at this
      · intro h j c' hj
        have := h (j + 1) c' (by simpa using hj)
        rwa [← Nat.add_assoc, Nat.add_right_comm] at this

/-- A program passes exactly when its entry point names a chunk and every chunk passes. -/
theorem verify_eq_ok_iff {p : Program} :
    p.verify = .ok () ↔
      p.entry?.isSome ∧ ∀ (k : Nat) (c : Chunk), p.chunks[k]? = some c →
        p.checkChunk k c = .ok () := by
  unfold verify
  split
  · next h => simp [h]
  · next h => rw [checkChunks_eq_ok_iff]; simp [h]

end Program

end WordScript
