/-
Running programs under a host clock.

Booting verifies a program and resets the machine to the start of its entry
chunk.  A run executes until the program halts or yields; a machine that waits
for the clock is left alone until its time has come.  A fault stops the machine
and is reported with the pending calls.  A machine that panics does not return from
its run; what is left of it is stopped.  A drive is a sequence of runs with a clock
that advances by a fixed amount.

Execution takes fuel, one unit for each instruction; a run that uses it up is
told apart from one that stops.

* `Machine.boot`, `Machine.bindExternals`, `Machine.dispose` — before and after;
* `Machine.run` — one run;
* `Machine.drive` — a sequence of runs.
-/
import WordScript.Machine.Step

namespace WordScript

/-- How a run ends. -/
inductive RunResult where
  | halted
  | suspended
  | outOfFuel
  | panicked
deriving Repr, DecidableEq

namespace Machine

/-- Verifies a program and resets the machine to its start; bound host functions stay.  A program
that does not pass leaves the machine as it is. -/
def boot (m : Machine) (p : Program) : Except MachineError Machine :=
  match p.verify with
  | .error e => .error { fault := .verify e }
  | .ok () =>
    .ok { m with
      program := some p
      state := .running
      stack := #[]
      heap := m.config.emptyHeap
      frames := #[]
      chunk := p.entryPoint.toNat
      ip := 0
      fp := 0
      resumeAt := 0
      heapConstants := [] }

/-- Binds host functions by the names that the booted program gives them. -/
def bindExternals (m : Machine) (t : ExternalTable) : Except MachineError Machine :=
  match m.program with
  | none => .error { fault := .notBooted }
  | some p =>
    match t.bind p with
    | .error f => .error { fault := f }
    | .ok externals => .ok { m with externals }

/-- Drops the program and all memory. -/
def dispose (m : Machine) : Machine :=
  { m with
    program := none
    state := .halt
    stack := #[]
    heap := m.heap.clear
    frames := #[]
    heapConstants := [] }

/-- A pending call, as errors show it: an instruction pointer stands past its instruction. -/
def callText (p : Program) (chunk ip : Nat) : String :=
  (p.chunks[chunk]?.map Chunk.name).getD "<unknown>" ++ " @ " ++ toString (ip - 1)

/-- The pending calls, the outermost first. -/
def callStack (m : Machine) (p : Program) : List String :=
  m.frames.toList.map (fun f => callText p f.chunk f.ip) ++ [callText p m.chunk m.ip]

/-- The end of a run that breaks off: a fault is reported with the pending calls, an overflow is a
panic. -/
def brokenOff (m : Machine) (p : Program) : Fault → Except MachineError RunResult
  | .overflow => .ok .panicked
  | fault => .error { fault, callStack := m.callStack p }

theorem brokenOff_of_ne (m : Machine) (p : Program) {f : Fault} (h : f ≠ .overflow) :
    m.brokenOff p f = .error { fault := f, callStack := m.callStack p } := by
  cases f with
  | overflow => exact absurd rfl h
  | _ => rfl

theorem brokenOff_ne_outOfFuel (m : Machine) (p : Program) (f : Fault) :
    m.brokenOff p f ≠ .ok .outOfFuel := by
  cases f <;> exact fun h => by cases h

theorem fault_of_brokenOff {m : Machine} {p : Program} {f : Fault} {e : MachineError}
    (h : m.brokenOff p f = .error e) : e.fault = f := by
  cases f <;> cases h <;> rfl

/-- Executes from a running state; a fault stops the machine. -/
def resume (fuel : Nat) (time : Float) (p : Program) (m : Machine) :
    Except MachineError RunResult × Machine :=
  match Exec.execute p time fuel { m with state := .running } with
  | .ok false m => (.ok .outOfFuel, m)
  | .ok true m => (.ok (if m.state = .halt then .halted else .suspended), m)
  | .error fault m => (m.brokenOff p fault, { m with state := .halt })

/-- One run at host time `time`. -/
def run (fuel : Nat) (time : Float) (m : Machine) : Except MachineError RunResult × Machine :=
  match m.program with
  | none => (.error { fault := .notBooted }, m)
  | some p =>
    match m.state with
    | .halt => (.ok .halted, m)
    | .yield => if time < m.resumeAt then (.ok .suspended, m) else m.resume fuel time p
    | .running => m.resume fuel time p

/-- How a drive ends: after how many runs, and the result of the last one. -/
structure DriveResult where
  runs : Nat
  last : Except MachineError RunResult

/-- Runs again and again, each time `dt` later, until the program halts or faults or `limit` runs
have been made; `runs` have been made before. -/
def driveFrom (fuel : Nat) (dt : Float) (runs : Nat) : Nat → Float → Machine → DriveResult × Machine
  | 0, _, m => (⟨runs, .ok .suspended⟩, m)
  | limit + 1, time, m =>
    match m.run fuel time with
    | (.ok .suspended, m) => driveFrom fuel dt (runs + 1) limit (time + dt) m
    | (last, m) => (⟨runs + 1, last⟩, m)

/-- Runs at `start`, `start + dt` and so on, at most `limit` times. -/
def drive (fuel limit : Nat) (start dt : Float) (m : Machine) : DriveResult × Machine :=
  driveFrom fuel dt 0 limit start m

/-- The state of the machine in one line. -/
def summary (m : Machine) : String :=
  let state :=
    match m.state with
    | .running => "Running"
    | .yield => "Yield"
    | .halt => "Halt"
  "Machine \x7b state: " ++ state ++ ", chunk: " ++ toString m.chunk ++ ", ip: " ++ toString m.ip
    ++ ", fp: " ++ toString m.fp ++ ", stack: " ++ toString m.stack.size
    ++ ", heap: " ++ toString m.heap.size ++ ", frames: " ++ toString m.frames.size ++ " \x7d"

end Machine

end WordScript
