/-
How often each operation occurs in a program.

The ten most frequent operations are listed, the most frequent first and equally
frequent ones by name, with their share of all instructions.
-/
import WordScript.Decimal.Fixed
import WordScript.Program.Basic

namespace WordScript

namespace Program

/-- The name under which an instruction is counted. -/
def countedAs (i : Instruction) : String :=
  match i.opcode? with
  | some op => op.mnemonic
  | none => "<invalid>"

/-- The names that occur and how often they do. -/
def frequencies (p : Program) : List (String × Nat) :=
  let names := p.chunks.toList.flatMap fun c => c.code.toList.map countedAs
  let all := "<invalid>" :: Opcode.all.map Opcode.mnemonic
  (all.map fun name => (name, names.count name)).filter fun (_, n) => 0 < n

/-- The order of the list: frequent names first, then by name. -/
def precedes (x y : String × Nat) : Bool :=
  y.2 < x.2 || (x.2 == y.2 && x.1 ≤ y.1)

/-- A share as a percentage with one decimal place. -/
def percentage (count total : Nat) : String :=
  Text.alignRight 5 ' '
    (Decimal.oneDecimal (Float.ofNat count / Float.ofNat (max total 1) * 100.0))

/-- The statistics of a program. -/
def statistics (p : Program) : String :=
  let total := p.instructionCount
  let listed := (p.frequencies.mergeSort precedes).take 10
  "=== BYTECODE STATISTICS ===\n\n"
    ++ "Chunks:        " ++ toString p.chunks.size ++ "\n"
    ++ "Externals:     " ++ toString p.externals.size ++ "\n"
    ++ "Instructions:  " ++ toString total ++ "\n\n"
    ++ "Op frequency:\n"
    ++ String.join (listed.map fun (name, count) =>
      "  " ++ Text.alignLeft 18 name ++ " " ++ Text.alignRight 4 ' ' (toString count)
        ++ " (" ++ percentage count total ++ "%)\n")

end Program

end WordScript
