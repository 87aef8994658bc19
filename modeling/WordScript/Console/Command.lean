/-
The arguments of the console.

Flags may stand anywhere.  The first argument that is not a flag names the
script; flags that mean nothing are passed over.

* `Command.ofArguments` — what the arguments ask for;
* `Command.usageText` — the help.
-/
import WordScript.Console.Path
import WordScript.Token.Listing

namespace WordScript

/-- What the console is asked to do. -/
inductive Command where
  /-- show the help and end with the exit code -/
  | usage (exit : Nat)
  /-- refuse a file that is no script -/
  | refuse (file : String)
  /-- list the tokens of a script -/
  | tokens (file : String) (style : ListingStyle)
  /-- run a script, after its disassembly if that is wanted -/
  | run (file : String) (disassemble : Bool)

namespace Command

/-- The lines of the help. -/
def usageLines : List String :=
  ["CINDER - embeddable scripting language",
   "",
   "Usage:",
   "  cinder <file.cn>            Run a script to completion",
   "  cinder --tokens <file.cn>   Show tokens only (--pretty hides layout tokens)",
   "  cinder --bc <file.cn>       Print the disassembly, then run",
   "  cinder --no-color           Plain token dump",
   "  cinder --help, -h           Show this help",
   "",
   "Scripts may declare these externals:",
   "  external function Print(String text)",
   "  external function PrintInt(Int value)",
   "  external function PrintFloat(Float value)",
   "  external function PrintBool(Bool value)",
   "",
   "Logging is controlled with RUST_LOG (default: warn)."]

/-- The help. -/
def usageText : String :=
  String.join (usageLines.map (· ++ "\n"))

/-- What the arguments ask for. -/
def ofArguments (args : List String) : Command :=
  if args.any fun a => a = "--help" || a = "-h" then usage 0
  else
    match args.find? fun a => !a.startsWith "-" with
    | none => usage (if args.isEmpty then 0 else 1)
    | some file =>
      if Path.extension? file ≠ some "cn" then refuse file
      else if args.contains "--tokens" then
        tokens file ⟨!args.contains "--no-color", !args.contains "--pretty"⟩
      else run file (args.contains "--bc" || args.contains "--bytecode")

end Command

end WordScript
