/-
The host clock only schedules.

A machine looks at the clock of its host in two places: a wait notes the time at
which the machine is to go on, and a run compares that time with the clock before it
executes anything.  No instruction sees either of them, so two machines that differ
in nothing but that time execute the same instructions and end in the same way.

* `Machine.Agrees` — machines that differ in nothing but the time to go on and the
  lines that were written before;
* `Exec.Alike` — effects that come to the same end on machines that agree;
* `Exec.sameEnd_execute` — what whole executions come to, whatever the clock shows;
* `Machine.executedRuns` — the runs of a drive that execute instructions;
* `agrees_of_drives` — drives under different clocks agree run by run.

Design notes: that an effect does not see the clock is known from what instructions do
to the machine, and only a wait is compared with a wait at another time.  Fuel is part
of a run here, so runs are followed in step until both have come to an end.
-/
import WordScript.Machine.Run
import WordScript.Proofs.Effects

namespace WordScript

/-- The machines have written the same lines since their logs were `l` and `l'`, and otherwise they
differ in nothing but the time at which they are to go on. -/
def Machine.Agrees (l l' : Array String) (m m' : Machine) : Prop :=
  ∃ time printed, m.log = l ++ printed ∧ m' = { m with resumeAt := time, log := l' ++ printed }

namespace Exec

/-- The results are the same, in machines that agree. -/
def SameEnd {α : Type} (l l' : Array String) :
    EStateM.Result Fault Machine α → EStateM.Result Fault Machine α → Prop
  | .ok a m, .ok a' m' => a = a' ∧ Machine.Agrees l l' m m'
  | .error f m, .error f' m' => f = f' ∧ Machine.Agrees l l' m m'
  | _, _ => False

/-- On machines that agree, the effects come to the same end. -/
def Alike {α : Type} (x y : Exec α) : Prop :=
  ∀ (l l' : Array String) (m m' : Machine), Machine.Agrees l l' m m' → SameEnd l l' (x m) (y m')

variable {α β : Type} {l l' : Array String}

theorem SameEnd.ok_or_error {x y : EStateM.Result Fault Machine α} (h : SameEnd l l' x y) :
    (∃ a m m', x = .ok a m ∧ y = .ok a m' ∧ Machine.Agrees l l' m m') ∨
      ∃ f m m', x = .error f m ∧ y = .error f m' ∧ Machine.Agrees l l' m m' := by
  cases x with
  | ok a m =>
    cases y with
    | ok a' m' =>
      obtain ⟨rfl, hm⟩ := h
      exact .inl ⟨a, m, m', rfl, rfl, hm⟩
    | error f' m' => exact h.elim
  | error f m =>
    cases y with
    | ok a' m' => exact h.elim
    | error f' m' =>
      obtain ⟨rfl, hm⟩ := h
      exact .inr ⟨f, m, m', rfl, rfl, hm⟩

namespace Alike

protected theorem pure (a : α) : Alike (pure a : Exec α) (pure a) :=
  fun _ _ _ _ h => ⟨rfl, h⟩

protected theorem throw (f : Fault) : Alike (throw f : Exec α) (throw f) :=
  fun _ _ _ _ h => ⟨rfl, h⟩

protected theorem bind {x y : Exec α} {f g : α → Exec β} (hx : Alike x y)
    (hf : ∀ a, Alike (f a) (g a)) : Alike (x >>= f) (y >>= g) := by
  intro l l' m m' h
  show SameEnd l l' (EStateM.bind x f m) (EStateM.bind y g m')
  obtain ⟨a, m₁, m₁', hxm, hym, h₁⟩ | ⟨e, m₁, m₁', hxm, hym, h₁⟩ :=
    (hx l l' m m' h).ok_or_error
  · rw [EStateM.bind, EStateM.bind, hxm, hym]
    exact hf a l l' m₁ m₁' h₁
  · rw [EStateM.bind, EStateM.bind, hxm, hym]
    exact ⟨rfl, h₁⟩

end Alike

/-- What an instruction does has nothing to do with the clock. -/
theorem Acts.alike {confined : Bool} {x : Exec α} (h : Acts confined x) : Alike x x := by
  rintro l l' m _ ⟨time, before, hlog, rfl⟩
  obtain ⟨r, m₁, printed, hx, -⟩ := h m
  have hm := hx m.resumeAt m.log
  have hm' := hx time (l' ++ before)
  have hagrees : Machine.Agrees l l' { m₁ with resumeAt := m.resumeAt, log := m.log ++ printed }
      { m₁ with resumeAt := time, log := l' ++ before ++ printed } :=
    ⟨time, before ++ printed, by rw [hlog, Array.append_assoc], by rw [Array.append_assoc]⟩
  rw [hm', show x m = _ from hm]
  cases r with
  | ok a => exact ⟨rfl, hagrees⟩
  | error f => exact ⟨rfl, hagrees⟩

/-! ### Instructions -/

variable {p : Program} {c : Chunk} {i : Instruction}

/-- A wait notes the time to go on and leaves everything else as a wait at another time does. -/
theorem alike_suspend (time time' : Float) : Alike (suspend time) (suspend time') := by
  have hpop : Acts false popWord := acts_popWord
  refine hpop.alike.bind fun duration => ?_
  -- the clock goes into the time to go on, where the machines may differ
  rintro l l' m _ ⟨time₀, printed, hlog, rfl⟩
  exact ⟨rfl, _, printed, hlog, rfl⟩

/-- Every operation does the same at any time. -/
theorem alike_perform (time time' : Float) (op : Opcode) :
    Alike (perform p c time i op) (perform p c time' i op) := by
  by_cases hyield : op = .yield
  · subst hyield
    exact (alike_suspend time time').bind fun _ => .pure _
  · -- no other operation is given the time
    have hsame : perform p c time i op = perform p c time' i op := by
      cases op <;> first | rfl | exact absurd rfl hyield
    have hacts : Acts false (perform p c time' i op) :=
      acts_perform time' hyield fun h => by cases h
    rw [hsame]
    exact hacts.alike

theorem alike_step (time time' : Float) : Alike (step p time) (step p time') := by
  refine acts_fetch.alike.bind fun fetched => ?_
  obtain ⟨c, i⟩ := fetched
  simp only
  cases i.opcode? with
  | some op => exact alike_perform time time' op
  | none => exact .throw _

/-- Executions that both come to an end come to the same end, whatever the clocks show and however
much fuel each of them has. -/
theorem sameEnd_execute (time time' : Float) :
    ∀ {fuel fuel' : Nat} {l l' : Array String} {m m' : Machine}, Machine.Agrees l l' m m' →
      (∀ m₁, execute p time fuel m ≠ .ok false m₁) →
      (∀ m₁, execute p time' fuel' m' ≠ .ok false m₁) →
      SameEnd l l' (execute p time fuel m) (execute p time' fuel' m') := by
  intro fuel
  -- in step over both amounts of fuel: neither execution runs out before the other has ended
  induction fuel with
  | zero =>
    intro fuel' l l' m m' _ hends
    exact absurd rfl (hends m)
  | succ fuel ih =>
    intro fuel' l l' m m' h hends hends'
    cases fuel' with
    | zero => exact absurd rfl (hends' m')
    | succ fuel' =>
      rw [execute] at hends hends' ⊢
      rw [execute]
      change ∀ m₁, EStateM.bind (step p time) _ m ≠ _ at hends
      change ∀ m₁, EStateM.bind (step p time') _ m' ≠ _ at hends'
      show SameEnd l l' (EStateM.bind (step p time) _ m) (EStateM.bind (step p time') _ m')
      obtain ⟨flow, m₁, m₁', hx, hx', h₁⟩ | ⟨f, m₁, m₁', hx, hx', h₁⟩ :=
        (alike_step (p := p) time time' l l' m m' h).ok_or_error
      · simp only [EStateM.bind, hx, hx'] at hends hends' ⊢
        cases flow with
        | stop => exact ⟨rfl, h₁⟩
        | next => exact ih h₁ hends hends'
      · simp only [EStateM.bind, hx, hx']
        exact ⟨rfl, h₁⟩

end Exec

/-! ### Runs -/

namespace Machine

/-- Whether a run at a time executes instructions.  A machine that has halted does not, and one that
waits does not before its time has come. -/
def executes (m : Machine) (time : Float) : Bool :=
  match m.state with
  | .halt => false
  | .yield => !decide (time < m.resumeAt)
  | .running => true

/-- The runs of a drive that execute instructions, each with its fuel and at its time: what they
return and the machine after them. -/
def executedRuns (m : Machine) : List (Nat × Float) → List (Except MachineError RunResult × Machine)
  | [] => []
  | (fuel, time) :: runs =>
    if m.executes time then m.run fuel time :: (m.run fuel time).2.executedRuns runs
    else (m.run fuel time).2.executedRuns runs

variable {l l' : Array String} {m m' : Machine} {time time' : Float} {fuel fuel' : Nat}

/-- A run that executes nothing leaves the machine alone, and does not run out of fuel. -/
theorem run_of_not_executes (h : m.executes time = false) :
    ∃ r, r ≠ .ok .outOfFuel ∧ m.run fuel time = (r, m) := by
  rw [run]
  cases m.program with
  | none => exact ⟨_, by simp, rfl⟩
  | some p =>
    simp only
    rw [executes] at h
    cases hstate : m.state with
    | halt => exact ⟨_, by simp, rfl⟩
    | running =>
      rw [hstate] at h
      cases h
    | yield =>
      rw [hstate] at h
      have hlt : time < m.resumeAt := by simpa using h
      exact ⟨.ok .suspended, by simp, if_pos hlt⟩

theorem ne_halt_of_executes (h : m.executes time = true) : m.state ≠ .halt := by
  intro hstate
  rw [executes, hstate] at h
  cases h

/-- A run that executes instructions goes on from the machine as it is. -/
theorem run_of_executes (h : m.executes time = true) {p : Program} (hp : m.program = some p) :
    m.run fuel time = m.resume fuel time p := by
  rw [run, hp]
  rw [executes] at h
  cases hstate : m.state with
  | halt =>
    rw [hstate] at h
    cases h
  | running => rfl
  | yield =>
    rw [hstate] at h
    have hlt : ¬time < m.resumeAt := by simpa using h
    simp only [if_neg hlt]

/-- Machines that agree return the same when they go on, if they return at all. -/
theorem Agrees.resume (h : Agrees l l' m m') {p : Program}
    (hr : (m.resume fuel time p).1 ≠ .ok .outOfFuel)
    (hr' : (m'.resume fuel' time' p).1 ≠ .ok .outOfFuel) :
    (m.resume fuel time p).1 = (m'.resume fuel' time' p).1 ∧
      Agrees l l' (m.resume fuel time p).2 (m'.resume fuel' time' p).2 := by
  have hstarted : Agrees l l' { m with state := .running } { m' with state := .running } := by
    obtain ⟨t, printed, hlog, rfl⟩ := h
    exact ⟨t, printed, hlog, rfl⟩
  rw [Machine.resume] at hr hr' ⊢
  rw [Machine.resume]
  -- the fuel is enough on both sides, so neither execution breaks off
  have hends : ∀ m₁, Exec.execute p time fuel { m with state := .running } ≠ .ok false m₁ := by
    intro m₁ hx
    rw [hx] at hr
    exact hr rfl
  have hends' : ∀ m₁, Exec.execute p time' fuel' { m' with state := .running } ≠ .ok false m₁ := by
    intro m₁ hx
    rw [hx] at hr'
    exact hr' rfl
  obtain ⟨stopped, m₁, m₁', hx, hx', h₁⟩ | ⟨f, m₁, m₁', hx, hx', h₁⟩ :=
    (Exec.sameEnd_execute time time' hstarted hends hends').ok_or_error
  · obtain ⟨t, printed, hlog, rfl⟩ := h₁
    rw [hx, hx']
    cases stopped with
    | false => exact absurd hx (hends m₁)
    | true => exact ⟨rfl, t, printed, hlog, rfl⟩
  · obtain ⟨t, printed, hlog, rfl⟩ := h₁
    rw [hx, hx']
    exact ⟨rfl, t, printed, hlog, rfl⟩

/-- Runs that execute instructions return the same on machines that agree, at whatever times. -/
theorem Agrees.run (h : Agrees l l' m m') (he : m.executes time = true)
    (he' : m'.executes time' = true)
    (hr : (m.run fuel time).1 ≠ .ok .outOfFuel) (hr' : (m'.run fuel' time').1 ≠ .ok .outOfFuel) :
    (m.run fuel time).1 = (m'.run fuel' time').1 ∧
      Agrees l l' (m.run fuel time).2 (m'.run fuel' time').2 := by
  have hprogram : m'.program = m.program := by
    obtain ⟨t, printed, -, rfl⟩ := h
    rfl
  cases hp : m.program with
  | none =>
    rw [Machine.run, Machine.run, hprogram, hp]
    exact ⟨rfl, h⟩
  | some p =>
    rw [run_of_executes he hp] at hr ⊢
    rw [run_of_executes he' (hprogram.trans hp)] at hr' ⊢
    exact h.resume hr hr'

/-- A drive goes on with a run that executes instructions, or there is none left. -/
theorem executedRuns_cases (m : Machine) (runs : List (Nat × Float)) :
    m.executedRuns runs = [] ∨ ∃ fuel time rest, m.executes time = true ∧
      m.executedRuns runs = m.run fuel time :: (m.run fuel time).2.executedRuns rest := by
  induction runs with
  | nil => exact .inl rfl
  | cons run runs ih =>
    obtain ⟨fuel, time⟩ := run
    rw [executedRuns]
    by_cases he : m.executes time = true
    · rw [if_pos he]
      exact .inr ⟨fuel, time, runs, he, rfl⟩
    · obtain ⟨r, -, hrun⟩ : ∃ r, r ≠ .ok .outOfFuel ∧ m.run fuel time = (r, m) :=
        run_of_not_executes (eq_false_of_ne_true he)
      rw [if_neg he, hrun]
      exact ih

/-- Drives of machines that agree agree in every run that both of them come to. -/
theorem Agrees.executedRuns (k : Nat) :
    ∀ {m m' : Machine}, Agrees l l' m m' → ∀ {runs runs' : List (Nat × Float)},
      (∀ o ∈ m.executedRuns runs, o.1 ≠ .ok .outOfFuel) →
      (∀ o ∈ m'.executedRuns runs', o.1 ≠ .ok .outOfFuel) →
      ∀ {o o' : Except MachineError RunResult × Machine}, (m.executedRuns runs)[k]? = some o →
        (m'.executedRuns runs')[k]? = some o' → o.1 = o'.1 ∧ Agrees l l' o.2 o'.2 := by
  induction k with
  | zero =>
    intro m m' h runs runs' hr hr' o o' ho ho'
    obtain hnil | ⟨fuel, time, rest, he, hruns⟩ := m.executedRuns_cases runs
    · simp [hnil] at ho
    obtain hnil | ⟨fuel', time', rest', he', hruns'⟩ := m'.executedRuns_cases runs'
    · simp [hnil] at ho'
    rw [hruns] at hr ho
    rw [hruns'] at hr' ho'
    cases ho
    cases ho'
    exact h.run he he' (hr _ List.mem_cons_self) (hr' _ List.mem_cons_self)
  | succ k ih =>
    intro m m' h runs runs' hr hr' o o' ho ho'
    obtain hnil | ⟨fuel, time, rest, he, hruns⟩ := m.executedRuns_cases runs
    · simp [hnil] at ho
    obtain hnil | ⟨fuel', time', rest', he', hruns'⟩ := m'.executedRuns_cases runs'
    · simp [hnil] at ho'
    rw [hruns] at hr ho
    rw [hruns'] at hr' ho'
    -- neither run wants fuel, so both end in the same way and the machines agree again
    have hnext := h.run he he' (hr _ List.mem_cons_self) (hr' _ List.mem_cons_self)
    exact ih hnext.2 (fun o ho => hr o (List.mem_cons_of_mem _ ho))
      (fun o ho => hr' o (List.mem_cons_of_mem _ ho)) ho ho'

end Machine

/-- The host clock only schedules.  Two machines of one configuration boot a program with the same
host functions, and each is driven by a clock of its own.  As long as their runs return, the `k`-th
run that executes instructions returns the same in both drives, and leaves machines that have
written the same lines since they booted and differ in nothing but the time to go on. -/
theorem agrees_of_drives {p : Program} {a b a₁ b₁ : Machine} (hconfig : a.config = b.config)
    (ha : a.boot p = .ok a₁) (hb : b.boot p = .ok b₁) (externals : Array Native)
    {runs runs' : List (Nat × Float)}
    (hr : ∀ o ∈ Machine.executedRuns { a₁ with externals } runs, o.1 ≠ .ok .outOfFuel)
    (hr' : ∀ o ∈ Machine.executedRuns { b₁ with externals } runs', o.1 ≠ .ok .outOfFuel)
    {k : Nat} {o o' : Except MachineError RunResult × Machine}
    (ho : (Machine.executedRuns { a₁ with externals } runs)[k]? = some o)
    (ho' : (Machine.executedRuns { b₁ with externals } runs')[k]? = some o') :
    o.1 = o'.1 ∧ Machine.Agrees a.log b.log o.2 o'.2 := by
  have hbooted : Machine.Agrees a.log b.log { a₁ with externals } { b₁ with externals } := by
    rw [Machine.boot] at ha hb
    split at ha
    · cases ha
    · split at hb
      · cases hb
      · cases ha
        cases hb
        exact ⟨0, #[], by rw [Array.append_empty], by rw [hconfig, Array.append_empty]⟩
  exact hbooted.executedRuns k hr hr' ho ho'

/-- A wait of one and a half units of time. -/
def waitingProgram : Program where
  chunks := #[⟨"<entry>", #[.ofByteShort .loadConstant 0 0, .ofOpcode .yield,
    .ofImmediate .pushImmediate 7, .ofOpcode .halt], #[Word.ofFloat 1.5]⟩]
  entryPoint := 0
  externals := #[]

/-- The clocks start at different times, and one of them goes on after the program has halted.  A
clock that shows no number is past every time to go on, so that the wait is over in both drives. -/
theorem agrees_of_waitingProgram : ∃ m₁ o o', (Machine.new {}).boot waitingProgram = .ok m₁ ∧
    m₁.executedRuns [(8, 0), (8, 0 / 0)] = [m₁.run 8 0, o] ∧
    m₁.executedRuns [(8, 10), (8, 0 / 0), (8, 20)] = [m₁.run 8 10, o'] ∧
    o.1 = o'.1 ∧ Machine.Agrees #[] #[] o.2 o'.2 := by
  have hboot : ∃ m₁, (Machine.new {}).boot waitingProgram = .ok m₁ := ⟨_, rfl⟩
  obtain ⟨m₁, hboot⟩ := hboot
  have hruns : ∃ o, m₁.executedRuns [(8, 0), (8, 0 / 0)] = [m₁.run 8 0, o] ∧
      (m₁.run 8 0).1 = .ok .suspended ∧ o.1 = .ok .halted := by
    cases hboot
    exact ⟨_, rfl, rfl, rfl⟩
  have hruns' : ∃ o', m₁.executedRuns [(8, 10), (8, 0 / 0), (8, 20)] = [m₁.run 8 10, o'] ∧
      (m₁.run 8 10).1 = .ok .suspended ∧ o'.1 = .ok .halted := by
    cases hboot
    exact ⟨_, rfl, rfl, rfl⟩
  obtain ⟨o, hruns, hfirst, hlast⟩ := hruns
  obtain ⟨o', hruns', hfirst', hlast'⟩ := hruns'
  have hr : ∀ o ∈ m₁.executedRuns [(8, 0), (8, 0 / 0)], o.1 ≠ .ok .outOfFuel := by
    simp [hruns, hfirst, hlast]
  have hr' : ∀ o ∈ m₁.executedRuns [(8, 10), (8, 0 / 0), (8, 20)], o.1 ≠ .ok .outOfFuel := by
    simp [hruns', hfirst', hlast']
  refine ⟨m₁, o, o', hboot, hruns, hruns', ?_⟩
  exact agrees_of_drives rfl hboot hboot m₁.externals hr hr' (k := 1) (by rw [hruns]; rfl)
    (by rw [hruns']; rfl)

end WordScript
