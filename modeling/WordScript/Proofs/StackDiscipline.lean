/-
The stack discipline of compiled programs.

Compiled code has a shape (`Compiler.Kept.shaped`), and shaped code keeps the machine
settled on every run (`Machine.Settled.after`).  Together they say what can be relied
on at every instruction of every run of a compiled program.

* `Machine.Disciplined` — what holds of a machine between two instructions;
* `disciplined_of_compiled` — it holds after any runs of a compiled program.
-/
import WordScript.Proofs.Modules

namespace WordScript

/-- What holds of a machine that runs the program of a compilation.  Since a run may be cut short by
its fuel, a machine after some runs stands between any two instructions. -/
structure Machine.Disciplined (c : Compiler) (m : Machine) : Prop where
  /-- a run ends in no fault that only wrong code can have -/
  faults : ∀ (fuel : Nat) (time : Float) (e : MachineError),
    (m.run fuel time).1 = .error e → e.fault.isTame = true
  /-- the frame lies on the stack -/
  frame : m.fp ≤ m.stack.size
  /-- access to variables succeeds -/
  accesses : m.state ≠ .halt → ∀ (chunk : Chunk) (i : Instruction) (op : Opcode) (time : Float),
    c.build.chunks[m.chunk]? = some chunk → chunk.code[m.ip]? = some i → i.opcode? = some op →
    op.isVariableAccess = true → ∃ m', Exec.step c.build time m = .ok .next m'
  /-- at the end of the entry chunk nothing but the global variables is on the stack -/
  rest : m.state ≠ .halt → m.chunk = 0 → m.ip = c.entry.code.code.size →
    ∃ sizes : List Nat,
      (c.scopes.get 0).vars.map (fun e => c.types.wordLength e.2.ty) = sizes.map .ok ∧
      m.stack.size = sizes.sum

/-- The global variables have sizes, which make up the words of the global scope. -/
theorem Compiler.Kept.sizes {L : Linkage} {c : Compiler} (h : c.Kept L) :
    ∃ sizes : List Nat,
      (c.scopes.get 0).vars.map (fun e => c.types.wordLength e.2.ty) = sizes.map .ok ∧
      c.scopes.wordLength 0 = sizes.sum := by
  have hsc := h.rests.ready.sound.scopes
  refine ⟨(c.scopes.get 0).vars.map fun e => c.types.words e.2.ty, ?_, ?_⟩
  · rw [List.map_map]
    exact List.map_congr_left fun e he => (hsc.vars 0 e he).2.1
  · rw [hsc.total, TypeTable.totalWords, List.map_map]
    rfl

theorem Machine.Settled.disciplined {L : Linkage} {heights : Nat → Nat → Nat} {c : Compiler}
    {m : Machine} (hkept : c.Kept L) (hp : c.build.Shaped L heights)
    (htop : heights 0 c.entry.code.code.size = c.scopes.wordLength 0)
    (h : m.Settled L heights c.build) : m.Disciplined c := by
  refine ⟨fun fuel time => (h.run hp fuel time).2, h.fp_le, ?_, ?_⟩
  · intro hstate chunk i op time hchunk hi hop hv
    exact (h.stable hstate).step_variable hp time hchunk hi hop hv
  · intro hstate hzero hip
    have hstable := h.stable hstate
    obtain ⟨sizes, hsizes, hsum⟩ := hkept.sizes
    obtain ⟨shape, hshape, hstands⟩ := hstable.frames.stands
    -- the entry chunk has no caller, so its frame begins at the bottom of the stack
    have hnone : L.chunks[0]? = some none := hp.entry
    rw [hzero, hnone] at hshape
    cases hshape
    have hfp : m.fp = 0 := hstands
    refine ⟨sizes, hsizes, ?_⟩
    rw [hstable.size, hfp, hzero, hip, htop, hsum, Nat.zero_add]

/-- Compiled programs keep the discipline of the stack: whatever machine boots them, whatever host
functions are bound that are balanced, and however often they are run. -/
theorem disciplined_of_compiled {modules : List (String × String)} {p : Program}
    (hcompile : compileModules modules = .ok p) :
    ∃ c : Compiler, addSources .start modules = .ok c ∧ c.build = p ∧
      ∀ (m m₁ : Machine) (externals : Array Native) (runs : List (Nat × Float)),
        m.boot p = .ok m₁ → c.Binds externals →
        (Machine.after { m₁ with externals } runs).Disciplined c := by
  rw [compileModules] at hcompile
  cases hadd : addSources .start modules with
  | error e =>
    rw [hadd] at hcompile
    cases hcompile
  | ok c =>
    rw [hadd] at hcompile
    cases hcompile
    refine ⟨c, rfl, rfl, fun m m₁ externals runs hboot hbinds => ?_⟩
    obtain ⟨L, hkept⟩ := Compiler.Kept.addSources modules Compiler.start_kept hadd
    obtain ⟨heights, hp, htop⟩ := hkept.shaped
    have hsettled := Machine.boot_settled hp (hkept.natives hbinds) hboot
    exact (hsettled.after hp runs).disciplined hkept hp htop

/-- A module that asks the host to double a number until it is large enough. -/
def doublingModules : List (String × String) :=
  [("doubling", "external function double(Int n) returns Int\nvar n = 1\nwhile n < 9\n" ++
    "    var twice = double(n)\n    n = twice\n")]

theorem disciplined_of_doubling :
    ∃ (p : Program) (c : Compiler) (m₁ : Machine), compileModules doublingModules = .ok p ∧
      c.build = p ∧ (Machine.new {}).boot p = .ok m₁ ∧
      c.Binds #[.pop fun n => .push (n + n) .done] ∧
      ∀ runs, (Machine.after { m₁ with externals := #[.pop fun n => .push (n + n) .done] }
        runs).Disciplined c := by
  have hcheck : (match addSources .start doublingModules with
    | .ok c => c.build.verify.isOk && (c.scopes.get 0).functions.all fun e =>
        e.2.callShape c.types == ⟨1, 1⟩
    | .error _ => false) = true := by decide +kernel
  cases hadd : addSources .start doublingModules with
  | error e =>
    rw [hadd] at hcheck
    cases hcheck
  | ok c =>
    rw [hadd] at hcheck
    obtain ⟨hverify, hshapes⟩ := Bool.and_eq_true_iff.mp hcheck
    have hcompile : compileModules doublingModules = .ok c.build := by
      rw [compileModules, hadd]
      rfl
    cases hv : c.build.verify with
    | error e =>
      rw [hv] at hverify
      cases hverify
    | ok u =>
      have hbinds : c.Binds #[.pop fun n => .push (n + n) .done] := by
        intro e he i f hkind hf
        rw [eq_of_beq (List.all_eq_true.mp hshapes e he)]
        have hi : i.toNat < 1 := (Array.getElem?_eq_some_iff.mp hf).1
        rw [show i.toNat = 0 by omega] at hf
        cases hf
        exact ⟨0, rfl, fun w => ⟨0, rfl, rfl, rfl⟩⟩
      have hboot : ∃ m₁, (Machine.new {}).boot c.build = .ok m₁ := by
        rw [Machine.boot, hv]
        exact ⟨_, rfl⟩
      obtain ⟨m₁, hboot⟩ := hboot
      obtain ⟨c', hadd', -, hall⟩ := disciplined_of_compiled hcompile
      obtain rfl : c = c' := Except.ok.inj (hadd.symm.trans hadd')
      exact ⟨c.build, c, m₁, hcompile, rfl, hboot, hbinds, fun runs => hall _ m₁ _ runs hboot hbinds⟩

end WordScript
