/-
Programs with a shape pass verification.

A shape says more than the verifier asks for: every instruction is known, jumps land
on instructions, calls and constants are there, and control does not run past the end
of a chunk.

* `Program.Shaped.verify` — a program with a shape passes;
* `Compiler.Kept.verify` — so does the program of every compilation.
-/
import WordScript.Proofs.Modules

namespace WordScript

variable {L : Linkage} {p : Program}

/-- A jump that lands passes. -/
theorem Instruction.Lands.check {heights : Nat → Nat} {n size height : Nat} {target : Int}
    (h : Lands heights n target height) (hn : n ≤ size) {e : VerifyError} :
    (if target < 0 ∨ (size : Int) < target then .error e else .ok () : Except VerifyError Unit) =
      .ok () := by
  obtain ⟨k, rfl, hk, -⟩ := h
  rw [if_neg (by omega)]

/-- An instruction that fits passes. -/
theorem Instruction.Fits.check {shape : Option ChunkShape} {c : Chunk} {heights : Nat → Nat}
    {ip : Nat} {i : Instruction} {op : Opcode}
    (h : i.Fits L shape c.constants heights (c.code.size - 1) ip op)
    (hchunks : p.chunks.size = L.chunks.length) (hexternals : p.externals.size = L.externals.length)
    (k : Nat) : p.checkInstruction k c ip i = .ok () := by
  have hadmits := h.admits
  rw [Program.checkInstruction, h.opcode]
  cases op
  case jump => exact (h.target rfl).check (Nat.sub_le _ _)
  case jumpIfFalse => exact (h.target rfl).check (Nat.sub_le _ _)
  case call =>
    obtain ⟨s, hs, -⟩ := hadmits
    rw [hchunks]
    exact if_pos (List.getElem?_eq_some_iff.mp hs).1
  case callExternal =>
    obtain ⟨s, hs, -⟩ := hadmits
    rw [hexternals]
    exact if_pos (List.getElem?_eq_some_iff.mp hs).1
  case loadConstant =>
    have hlt : i.short.toNat < c.constants.size := hadmits
    exact if_neg (by omega)
  case loadHeapConstant =>
    obtain ⟨payload, hpayload, hle⟩ := hadmits
    simp only [hpayload, Option.getD_some]
    exact if_neg (by omega)
  all_goals rfl

/-- A chunk with a shape passes. -/
theorem Chunk.Shaped.check {shape : Option ChunkShape} {c : Chunk} {heights : Nat → Nat}
    (h : c.Shaped L shape heights) (hchunks : p.chunks.size = L.chunks.length)
    (hexternals : p.externals.size = L.externals.length) (k : Nat) :
    p.checkChunk k c = .ok () := by
  have hcode : p.checkCode k c 0 c.code.toList = .ok () := by
    rw [Program.checkCode_eq_ok_iff]
    intro j i hi
    rw [Array.getElem?_toList] at hi
    obtain ⟨op, hfits⟩ := h.fits j i hi
    rw [Nat.zero_add]
    exact hfits.check hchunks hexternals k
  have hends : Program.endsClosed c = true := by
    have hlt : c.code.size - 1 < c.code.size := Nat.sub_one_lt_of_lt h.nonempty
    obtain ⟨op, hfits⟩ := h.fits (c.code.size - 1) _ (Array.getElem?_eq_getElem hlt)
    rw [Program.endsClosed, Array.back?_eq_getElem?, Array.getElem?_eq_getElem hlt, Option.any_some,
      Instruction.terminates, hfits.opcode]
    -- an instruction that goes on would have one after it
    cases hfalls : op.fallsThrough with
    | false => cases op <;> first | rfl | cases hfalls
    | true => exact absurd (hfits.next hfalls).1 (Nat.lt_irrefl _)
  rw [Program.checkChunk, hcode, hends]
  rfl

/-- A program with a shape passes. -/
theorem Program.Shaped.verify {heights : Nat → Nat → Nat} (h : p.Shaped L heights)
    (hchunks : p.chunks.size = L.chunks.length)
    (hexternals : p.externals.size = L.externals.length) : p.verify = .ok () := by
  rw [Program.verify_eq_ok_iff]
  constructor
  · obtain ⟨c, hc, -⟩ := h.chunk _ _ h.entry
    rw [Program.entry?, hc]
    rfl
  · intro k c hc
    have hk : k < L.chunks.length := by
      rw [← hchunks]
      exact (Array.getElem?_eq_some_iff.mp hc).1
    obtain ⟨c', hc', hshaped⟩ := h.chunk k _ (List.getElem?_eq_getElem hk)
    obtain rfl : c = c' := Option.some_inj.mp (hc.symm.trans hc')
    exact hshaped.check hchunks hexternals k

/-- Every chunk of the program of a compilation has a shape. -/
theorem Compiler.Kept.chunks_size {c : Compiler} (h : c.Kept L) :
    c.build.chunks.size = L.chunks.length := by
  rw [Compiler.build, Array.size_setIfInBounds]
  exact h.rests.ready.sound.size.symm

/-- The program of a compilation passes. -/
theorem Compiler.Kept.verify {c : Compiler} (h : c.Kept L) : c.build.verify = .ok () := by
  obtain ⟨heights, hshaped, -⟩ := h.shaped
  exact hshaped.verify h.chunks_size h.rests.ready.sound.externals.symm

/-- The compilation behind a program. -/
theorem Compiler.kept_of_compiled {modules : List (String × String)}
    (h : compileModules modules = .ok p) :
    ∃ (c : Compiler) (L : Linkage), c.Kept L ∧ c.build = p := by
  rw [compileModules] at h
  cases hadd : addSources .start modules with
  | error e =>
    rw [hadd] at h
    cases h
  | ok c =>
    rw [hadd] at h
    obtain ⟨L, hkept⟩ := Compiler.Kept.addSources modules Compiler.start_kept hadd
    exact ⟨c, L, hkept, Except.ok.inj h⟩

end WordScript
