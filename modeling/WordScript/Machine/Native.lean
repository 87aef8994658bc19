/-
Host functions.

A host function acts on the machine only through a few helpers: it pushes and
pops words, reads and writes words at addresses, reads strings and makes new
ones, and writes a line of output.  A helper may fail.  The host function sees
that, and goes on, fails in the same way or reports a failure of its own.  It is
the tree of what it does next, so that what it may touch can be read off its type.

* `Helper`, `HostFault` — what a host function asks for, and how that may fail;
* `Native` — the tree of actions;
* `Native.pop`, `Native.readWord` — helpers whose failure is the failure of the
  host function;
* `ExternalTable` — host functions by name.
-/
import WordScript.Machine.Fault
import WordScript.Program.Basic
import WordScript.Text.Quoted

namespace WordScript

/-- The faults that a host function may meet or report. -/
inductive HostFault where
  | stackUnderflow
  | addressOutOfBounds (address : Word)
  | heap (error : HeapError)
  | external (message : String)
deriving Repr, DecidableEq

/-- The fault of the machine that a host function reports. -/
def HostFault.fault : HostFault → Fault
  | stackUnderflow => .stackUnderflow
  | addressOutOfBounds address => .addressOutOfBounds address
  | heap error => .heap error
  | external message => .external message

/-- A fault as a host function sees it.  No helper has any other fault than these. -/
def Fault.toHost : Fault → HostFault
  | .stackUnderflow => .stackUnderflow
  | .addressOutOfBounds address => .addressOutOfBounds address
  | .heap error => .heap error
  | .external message => .external message
  | fault => .external fault.message

/-- What a host function may ask of the machine. -/
inductive Helper where
  | push (w : Word)
  | pop
  | readWord (address : Word)
  | writeWord (address value : Word)
  | readString (address : Word)
  | allocString (text : String)
  | print (line : String)
deriving Repr, DecidableEq

/-- What a helper answers. -/
def Helper.Answer : Helper → Type
  | pop | readWord _ | allocString _ => Word
  | readString _ => String
  | push _ | writeWord _ _ | print _ => Unit

/-- A host function, as the actions it takes one after the other. -/
inductive Native where
  | done
  | raise (fault : HostFault)
  | call (helper : Helper) (next : Except HostFault helper.Answer → Native)

namespace Native

/-- Goes on with an answer, and fails as the helper has failed. -/
def orRaise {α : Type} (next : α → Native) : Except HostFault α → Native
  | .ok a => next a
  | .error fault => raise fault

/-- Fails with a message. -/
def fail (message : String) : Native :=
  raise (.external message)

/-- Pushes a word. -/
def push (w : Word) (next : Native) : Native :=
  call (.push w) (orRaise fun _ => next)

/-- Pops a word. -/
def pop (next : Word → Native) : Native :=
  call .pop (orRaise next)

/-- Reads the word at an address. -/
def readWord (address : Word) (next : Word → Native) : Native :=
  call (.readWord address) (orRaise next)

/-- Replaces the word at an address. -/
def writeWord (address value : Word) (next : Native) : Native :=
  call (.writeWord address value) (orRaise fun _ => next)

/-- Reads the string at an address. -/
def readString (address : Word) (next : String → Native) : Native :=
  call (.readString address) (orRaise next)

/-- Makes a string and goes on with its address. -/
def allocString (text : String) (next : Word → Native) : Native :=
  call (.allocString text) (orRaise next)

/-- Writes a line of output. -/
def print (line : String) (next : Native) : Native :=
  call (.print line) (orRaise fun _ => next)

end Native

instance : Inhabited Native := ⟨.done⟩

/-- Host functions by name. -/
structure ExternalTable where
  functions : List (String × Native) := []

namespace ExternalTable

/-- Enters a function; an earlier one of the same name is replaced. -/
def register (t : ExternalTable) (name : String) (f : Native) : ExternalTable :=
  ⟨t.functions.filter (fun entry => entry.1 != name) ++ [(name, f)]⟩

/-- The function with a name. -/
def find? (t : ExternalTable) (name : String) : Option Native :=
  t.functions.lookup name

/-- The functions in the order in which a program numbers its externals.  All missing names are
reported at once. -/
def bind (t : ExternalTable) (p : Program) : Except Fault (Array Native) :=
  let missing := p.externals.toList.filter fun name => (t.find? name).isNone
  if missing.isEmpty then .ok (p.externals.filterMap t.find?)
  else .error (.missingExternals missing)

/-- The names of the table in order, as diagnostics show them. -/
def summary (t : ExternalTable) : String :=
  let names := (t.functions.map Prod.fst).mergeSort (fun x y => x ≤ y)
  "ExternalTable \x7b functions: [" ++ ", ".intercalate (names.map Text.quoted) ++ "] \x7d"

end ExternalTable

end WordScript
