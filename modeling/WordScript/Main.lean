/-
The console program.

Everything it does is decided by `Command` and `Session`; here files are read and
output is written.
-/
import WordScript.Console.Session

namespace WordScript

/-- Why the system refuses a file, by the number of its error, which may be given negated. -/
def refusal (code : UInt32) (e : IO.Error) : ReadError :=
  match (if code < 0x80000000 then code else 0 - code) with
  | 2 => .notFound
  | 20 => .notFolder
  | 21 => .isFolder
  | 36 => .nameTooLong
  | _ => .other (toString e)

/-- The text of a file. -/
def readScript (file : String) : IO (Except ReadError String) := do
  try
    let bytes ← IO.FS.readBinFile file
    match String.fromUTF8? bytes with
    | some text => return .ok text
    | none => return .error .notUtf8
  catch e =>
    match e with
    | .noFileOrDirectory _ code _ | .inappropriateType _ code _ | .invalidArgument _ code _ =>
      return .error (refusal code e)
    | _ => return .error (.other (toString e))

/-- Writes out an answer and goes on until the end. -/
partial def converse (fuel : Nat) : Reply → IO UInt32
  | .done r => do
    IO.print r.stdout
    IO.eprint r.stderr
    return UInt32.ofNat r.exit
  | .open_ output s => do
    IO.print output
    converse fuel (s.turn fuel)

end WordScript

open WordScript in
/-- The console. -/
def main (args : List String) : IO UInt32 := do
  let command := Command.ofArguments args
  let source ← match command.file? with
    | some file => readScript file
    | none => pure (.ok "")
  converse 1000000 (command.start source)
