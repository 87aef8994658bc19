/-
What is sure of every compiled program.

The shape that the compiler keeps while it writes code is stronger than what the
verifier asks for: jumps land on instructions and never behind the last one, and the
last one halts or returns.  So a compiled program is accepted wherever a program is
checked, on the way into a machine and on the way back from its bytes.

* `Chunk.Shaped.closed` — a chunk with a shape keeps control inside;
* `closed_of_compiled` — so does every chunk of a compiled program, which passes
  verification, boots, and comes back from its bytes.
-/
import WordScript.Proofs.Verified
import WordScript.Proofs.ProgramBytes

namespace WordScript

/-- A chunk that control cannot leave but by halting or returning. -/
structure Chunk.Closed (c : Chunk) : Prop where
  /-- there is a last instruction, and it halts or returns -/
  ends : ∃ i, c.code.back? = some i ∧ (i.opcode? = some .halt ∨ i.opcode? = some .return_)
  /-- a jump lands on an instruction -/
  lands : ∀ (ip : Nat) (i : Instruction), c.code[ip]? = some i →
    i.opcode? = some .jump ∨ i.opcode? = some .jumpIfFalse →
    0 ≤ i.target ip ∧ i.target ip < c.code.size

/-- A chunk with a shape keeps control inside. -/
theorem Chunk.Shaped.closed {L : Linkage} {shape : Option ChunkShape} {c : Chunk}
    {heights : Nat → Nat} (h : c.Shaped L shape heights) : c.Closed := by
  have hpos := h.nonempty
  refine ⟨?_, ?_⟩
  · have hlt : c.code.size - 1 < c.code.size := by omega
    obtain ⟨op, hfits⟩ := h.fits _ _ (Array.getElem?_eq_getElem hlt)
    have hback : c.code.back? = some c.code[c.code.size - 1] := by
      rw [Array.back?_eq_getElem?, Array.getElem?_eq_getElem hlt]
    -- control would go on behind the last place, or to a target
    have hfalls : op.fallsThrough = false := by
      cases hop : op.fallsThrough with
      | false => rfl
      | true => exact absurd (hfits.next hop).1 (Nat.lt_irrefl _)
    have hjumps : op.jumps = false := h.last _ op hback hfits.opcode
    refine ⟨_, hback, ?_⟩
    rw [hfits.opcode]
    cases op
    case halt => exact .inl rfl
    case return_ => exact .inr rfl
    case jump => cases hjumps
    all_goals cases hfalls
  · intro ip i hi hjump
    obtain ⟨op, hfits⟩ := h.fits ip i hi
    have hjumps : op.jumps = true := by
      rw [hfits.opcode] at hjump
      rcases hjump with hop | hop <;> cases hop <;> rfl
    obtain ⟨k, hk, hle, -⟩ := hfits.target hjumps
    omega

/-- So does every chunk of a compilation. -/
theorem Compiler.Kept.closed {L : Linkage} {c : Compiler} (h : c.Kept L) {chunk : Chunk}
    (hchunk : chunk ∈ c.build.chunks) : chunk.Closed := by
  obtain ⟨heights, hshaped, -⟩ := h.shaped
  obtain ⟨k, hk, rfl⟩ := Array.mem_iff_getElem.mp hchunk
  have hlt : k < L.chunks.length := by
    rw [h.rests.ready.sound.size]
    rwa [Compiler.build, Array.size_setIfInBounds] at hk
  obtain ⟨chunk, hchunk, hchunkShaped⟩ := hshaped.chunk k _ (List.getElem?_eq_getElem hlt)
  rw [Array.getElem?_eq_getElem hk] at hchunk
  rw [Option.some_inj.mp hchunk]
  exact hchunkShaped.closed

/-- Compiled programs are good wherever a program is checked: they pass verification, control stays
inside each of their chunks, every machine boots them, and they come back from their bytes, if these
are no more than a length can count. -/
theorem closed_of_compiled {modules : List (String × String)} {p : Program}
    (hcompile : compileModules modules = .ok p) :
    p.verify = .ok () ∧ (∀ c ∈ p.chunks, c.Closed) ∧ (∀ m : Machine, ∃ m₁, m.boot p = .ok m₁) ∧
      (p.toBytes.length < 2 ^ 64 → decodeProgram p.toBytes = .ok p) := by
  obtain ⟨c, hadd, rfl⟩ : ∃ c, addSources .start modules = .ok c ∧ c.build = p := by
    rw [compileModules] at hcompile
    cases hadd : addSources .start modules with
    | error e =>
      rw [hadd] at hcompile
      cases hcompile
    | ok c =>
      rw [hadd] at hcompile
      exact ⟨c, rfl, Except.ok.inj hcompile⟩
  obtain ⟨L, hkept⟩ := Compiler.Kept.addSources modules Compiler.start_kept hadd
  have hverify := hkept.verify
  refine ⟨hverify, fun c hc => hkept.closed hc, ?_, ?_⟩
  · intro m
    rw [Machine.boot, hverify]
    exact ⟨_, rfl⟩
  · intro hlength
    rw [decodeProgram, Program.ofBytes_toBytes hlength]
    simp only [hverify]

/-- Two modules: the second makes an instance of a template of the first, whose method leaves a loop
early. -/
def nestedModules : List (String × String) :=
  [("cells", "structure Cell<T>\n    field T item\n    function Find(Int n) returns Int\n" ++
      "        var i = 0\n        while i < n\n            if i == 70000 then break\n" ++
      "            i = i + 1\n        return i\n"),
    ("main", "var c = Cell<Int> \x7b item = 4 \x7d\nvar k = c.Find(9)\n")]

theorem closed_of_nestedModules :
    ∃ p, compileModules nestedModules = .ok p ∧ p.verify = .ok () ∧ 1 < p.chunks.size ∧
      (∀ c ∈ p.chunks, c.Closed) ∧ (∀ m : Machine, ∃ m₁, m.boot p = .ok m₁) ∧
      decodeProgram p.toBytes = .ok p := by
  have hcheck : (match compileModules nestedModules with
    | .ok p => decide (1 < p.chunks.size) && decide (p.toBytes.length < 2 ^ 64)
    | .error _ => false) = true := by decide +kernel
  cases hcompile : compileModules nestedModules with
  | error e =>
    rw [hcompile] at hcheck
    cases hcheck
  | ok p =>
    rw [hcompile] at hcheck
    obtain ⟨hsize, hlength⟩ := Bool.and_eq_true_iff.mp hcheck
    obtain ⟨hverify, hclosed, hboot, hdecode⟩ := closed_of_compiled hcompile
    exact ⟨p, rfl, hverify, of_decide_eq_true hsize, hclosed, hboot,
      hdecode (of_decide_eq_true hlength)⟩

end WordScript
