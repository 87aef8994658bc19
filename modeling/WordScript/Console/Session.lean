/-
What the console answers.

A script is run turn by turn under a clock of sixty turns a second, each turn
until the script halts, waits, or has used up the fuel of the turn.  What it
prints goes to standard output; an error goes to standard error and makes the
exit code one.  A panic makes it 101; the text that the system writes about it is
not part of the answer.

* `Command.start` — the answer to a command, or a session to go on with;
* `Session.turn` — the next turn;
* `Reply.finish` — a whole session.
-/
import WordScript.Build
import WordScript.Console.Command
import WordScript.Machine.Library
import WordScript.Machine.Run
import WordScript.Program.Disassembly

namespace WordScript

/-- How a call of the console ends. -/
structure Report where
  exit : Nat
  stdout : String := ""
  stderr : String := ""
deriving Repr, DecidableEq

/-- A script that runs, and the time of its next turn. -/
structure Session where
  machine : Machine
  time : Float

/-- An answer: the end, or output so far and a session to go on with. -/
inductive Reply where
  | done (report : Report)
  | open_ (output : String) (session : Session)

namespace Report

/-- An end with an error. -/
def failed (stdout message : String) : Report :=
  ⟨1, stdout, message ++ "\n"⟩

end Report

namespace Session

/-- The time between two turns. -/
def frameTime : Float := 1.0 / 60.0

/-- Lines as text. -/
def linesText (lines : Array String) : String :=
  lines.foldl (fun text line => text ++ line ++ "\n") ""

/-- The next turn of a session. -/
def turn (fuel : Nat) (s : Session) : Reply :=
  match s.machine.run fuel s.time with
  | (result, m) =>
    let output := linesText m.log
    let m := { m with log := #[] }
    match result with
    | .ok .halted => .done ⟨0, output, ""⟩
    | .ok .suspended => .open_ output ⟨m, s.time + frameTime⟩
    | .ok .outOfFuel => .open_ output ⟨m, s.time⟩
    | .ok .panicked => .done ⟨101, output, ""⟩
    | .error e => .done (.failed output e.message)

/-- A session for a program. -/
def start (p : Program) : Except MachineError Session :=
  match (Machine.new {}).boot p with
  | .error e => .error e
  | .ok m =>
    match m.bindExternals Library.console with
    | .error e => .error e
    | .ok m => .ok ⟨m, 0⟩

end Session

namespace Reply

/-- Goes on with an answer for at most `limit` turns; `before` was printed earlier. -/
def finish (fuel : Nat) : Nat → String → Reply → Option Report
  | _, before, .done r => some { r with stdout := before ++ r.stdout }
  | 0, _, .open_ _ _ => none
  | limit + 1, before, .open_ output s => finish fuel limit (before ++ output) (s.turn fuel)

end Reply

namespace Command

/-- The listing of the tokens of a script. -/
def listTokens (file source : String) (style : ListingStyle) : Report :=
  match tokenize file source with
  | .error e => .failed "" ((BuildError.scan e).render source)
  | .ok ts => ⟨0, style.listing ts, ""⟩

/-- The session of a script. -/
def runScript (file source : String) (disassemble : Bool) : Reply :=
  match compileSource file source with
  | .error e => .done (.failed "" (e.render source))
  | .ok p =>
    let listing := if disassemble then p.disassembly else ""
    match Session.start p with
    | .error e => .done (.failed listing e.message)
    | .ok s => .open_ listing s

/-- The file that a command reads. -/
def file? : Command → Option String
  | usage _ | refuse _ => none
  | tokens file _ | run file _ => some file

/-- The answer to a command whose file, if it reads one, has the given text. -/
def start (source : Except ReadError String) : Command → Reply
  | usage exit => .done ⟨exit, usageText, ""⟩
  | refuse file => .done (.failed "" ("Error: expected a .cn file, got " ++ file))
  | tokens file style =>
    match source with
    | .error e => .done (unreadable file e)
    | .ok text => .done (listTokens file text style)
  | run file disassemble =>
    match source with
    | .error e => .done (unreadable file e)
    | .ok text => runScript file text disassemble
where
  /-- The end for a file that cannot be read. -/
  unreadable (file : String) (e : ReadError) : Report :=
    .failed "" ("Failed to read '" ++ file ++ "': " ++ e.message)

/-- The whole answer to some arguments in a folder. -/
def answer (fuel limit : Nat) (folder : Folder) (args : List String) : Option Report :=
  let command := ofArguments args
  let source :=
    match command.file? with
    | some file => folder.read file
    | none => .ok ""
  (command.start source).finish fuel limit ""

end Command

end WordScript
