/-
Programs as readable text.

Every instruction has a line with its number, its mnemonic in a column and its
operands; jumps show where they land, calls the name of the callee, constants
their value.  A line that some jump lands on is marked.
-/
import WordScript.Decimal.Shortest
import WordScript.Program.StringBlock
import WordScript.Program.Verify
import WordScript.Text.Quoted

namespace WordScript

namespace Instruction

/-- Whether the instruction may jump. -/
def isJump (i : Instruction) : Bool :=
  i.opcode? == some .jump || i.opcode? == some .jumpIfFalse

/-- The line that a jump at `ip` points to; one before the chunk is shown as the first. -/
def shownTarget (i : Instruction) (ip : Nat) : Nat :=
  (i.target ip).toNat

/-- The operands in the opcode's format. -/
def operands (i : Instruction) (op : Opcode) : String :=
  match op.format with
  | .none => ""
  | .bytes =>
    toString i.a.toNat ++ " " ++ toString i.b.toNat ++ " " ++ toString i.c.toNat
  | .byteShort => toString i.a.toNat ++ " " ++ toString i.short.toNat
  | .signedShort => Text.signed i.signedShort
  | .immediate => toString i.immediate

end Instruction

namespace Chunk

/-- The lines that jumps of the chunk point to. -/
def jumpTargets (c : Chunk) : List Nat :=
  (c.code.toList.zipIdx.filter fun (i, _) => i.isJump).map fun (i, ip) => i.shownTarget ip

/-- The text of the string block at `index` of the pool, as far as the pool reaches. -/
def stringConstant (c : Chunk) (index : Nat) : String :=
  match c.constants[index]? with
  | none => "<missing>"
  | some length =>
    StringBlock.decode (c.constants.extract (index + 1) (index + 1 + length.toNat)).toList

end Chunk

namespace Program

/-- The column of mnemonics. -/
def mnemonicColumn (op : Opcode) : String :=
  Text.alignLeft 18 op.mnemonic

/-- A call with its callee's name. -/
def callText (i : Instruction) (op : Opcode) (callee : Option String) : String :=
  mnemonicColumn op ++ toString i.short.toNat ++ " params=" ++ toString i.a.toNat ++ " ; "
    ++ callee.getD "<missing>"

/-- The text of the instruction at `ip` of a chunk. -/
def instructionText (p : Program) (c : Chunk) (ip : Nat) (i : Instruction) : String :=
  match i.opcode? with
  | none => "??? " ++ Text.hexadecimal 2 i.opcodeByte.toNat
  | some .jump => jumpText .jump
  | some .jumpIfFalse => jumpText .jumpIfFalse
  | some .call => callText i .call (p.chunks[i.short.toNat]?.map Chunk.name)
  | some .callExternal => callText i .callExternal p.externals[i.short.toNat]?
  | some .loadConstant =>
    mnemonicColumn .loadConstant ++ toString i.short.toNat ++ " ; " ++
      match c.constants[i.short.toNat]? with
      | some w => toString w.toInt ++ " / " ++ Decimal.text32 w
      | none => "<missing>"
  | some .loadHeapConstant =>
    mnemonicColumn .loadHeapConstant ++ toString i.short.toNat ++ " ; "
      ++ Text.quoted (c.stringConstant i.short.toNat)
  | some op => mnemonicColumn op ++ i.operands op
where
  /-- A jump with its displacement and where it lands. -/
  jumpText (op : Opcode) : String :=
    mnemonicColumn op ++ Text.signed i.signedShort ++ " (→ "
      ++ Text.zeroPadded 4 (i.shownTarget ip) ++ ")"

/-- The lines of one instruction, marked if a jump lands on it. -/
def instructionLines (p : Program) (c : Chunk) (marked : Bool) (ip : Nat) (i : Instruction) :
    String :=
  (if marked then "      ┌──────────────────────────────────\n" else "")
    ++ Text.zeroPadded 4 ip ++ " " ++ (if marked then "► " else "  ")
    ++ p.instructionText c ip i ++ "\n"

/-- One line for each instruction of a chunk. -/
def chunkText (p : Program) (c : Chunk) : String :=
  let targets := c.jumpTargets
  String.join (c.code.toList.zipIdx.map fun (i, ip) =>
    p.instructionLines c (targets.contains ip) ip i)

/-- The rule above and below the head of a chunk. -/
def rule : String := "════════════════════════════════════════\n"

/-- The names of the externals, if there are any. -/
def externalsText (p : Program) : String :=
  if p.externals.isEmpty then ""
  else
    "externals:\n" ++ String.join (p.externals.toList.zipIdx.map fun (name, k) =>
      "  [" ++ toString k ++ "] " ++ name ++ "\n") ++ "\n"

/-- The whole program as readable text. -/
def disassembly (p : Program) : String :=
  "=== BYTECODE PROGRAM ===\n\n" ++ p.externalsText ++
    String.join (p.chunks.toList.zipIdx.map fun (c, k) =>
      rule
        ++ " [" ++ toString k ++ "] " ++ c.name
        ++ (if k = p.entryPoint.toNat then " (entry)" else "") ++ "\n"
        ++ " " ++ toString c.code.size ++ " instructions, "
        ++ toString c.constants.size ++ " constant words\n"
        ++ rule ++ p.chunkText c ++ "\n")

end Program

end WordScript
