/-
Modules keep the discipline of the stack.

All productions keep the discipline, by induction on their fuel, and so do whole
modules.  A compilation begins with an empty table and owes nothing at its end, so
the program that is built has a shape: heights for every instruction of every chunk.

* `Stage.Rests.statement` — a statement of any kind;
* `productions_disciplined` — the productions;
* `Compiler.Kept` — the invariant of the compiler from outside;
* `Compiler.Kept.shaped` — the program has a shape.
-/
import WordScript.Build
import WordScript.Proofs.StackSafety
import WordScript.Proofs.Structures

namespace WordScript

namespace Stage

variable {G : Outlook} {s s' : Stage} {g : Productions}

/-- Declarations stand at the top level. -/
theorem requireTopLevel {Q : Unit → Stage → Prop} (construct : String) {k : CompileM Unit}
    (hk : s.isTopLevel = true → Moves .statement s k Q) :
    Moves .statement s (Statement.requireTopLevel construct >>= fun _ => k) Q := by
  rw [Statement.requireTopLevel, bind_assoc]
  refine Moves.ask (a := s.isTopLevel) (fun _ => rfl) ?_
  cases htop : s.isTopLevel with
  | true => exact hk htop
  | false => exact Fails.moves (.bind_left (.bind fun _ => .fail _ _) _)

/-- A statement leaves the variables that it has declared. -/
theorem Rests.statement (hg : g.Disciplined) (h : s.Rests G) (depth : Nat) :
    Moves .statement s (Statement.read g depth) fun _ s' => s'.Rests G := by
  refine Moves.read .kind fun k _ => ?_
  split
  · exact h.variable_ hg
  · exact h.conditional hg depth
  · exact h.whileLoop hg depth
  · exact h.loop hg depth
  · exact h.break_
  · exact h.continue_
  · exact h.return_ hg
  · exact h.yield hg
  · exact h.free hg
  · exact requireTopLevel _ fun htop => h.declaration hg htop depth
  · exact requireTopLevel _ fun _ => h.structure_ hg depth
  · exact requireTopLevel _ fun htop => h.external hg htop
  · exact h.expression hg

end Stage

/-- The productions keep the discipline, whatever their fuel is. -/
theorem productions_disciplined : ∀ fuel : Nat, (productions fuel).Disciplined := by
  intro fuel
  induction fuel with
  | zero =>
    exact ⟨fun _ _ _ => Fails.failFuel.moves, fun _ _ => Fails.failFuel.moves,
      fun _ _ => Fails.failFuel.moves, fun _ _ => Fails.failFuel.moves,
      fun _ _ _ _ _ => Fails.failFuel.moves⟩
  | succ fuel ih =>
    exact ⟨fun min h hn => h.expression ih hn min, fun h hn => h.operand ih hn,
      fun depth h => h.statement ih depth, fun indirection h => h.typeExpr ih indirection,
      fun template _ token h hb => h.instantiate ih template hb token⟩

/-- Nothing is owed and the code begins at the bottom of the stack: the outlook of a whole program. -/
def Outlook.whole : Outlook where
  chunks := fun _ => False
  headers := fun _ => False
  making := fun _ => False
  shape := none
  jumps := []
  labels := []

namespace Compiler

/-- What the compiler keeps between modules. -/
structure Kept (L : Linkage) (c : Compiler) : Prop where
  rests : Stage.Rests .whole ⟨c, L⟩
  scope : c.scope = 0
  loops : c.builder.loops = []

/-- The tables of a compilation that has not begun are empty. -/
theorem start_sound : Stage.Sound Outlook.whole.toDebts ⟨start, ⟨[none], []⟩⟩ := by
  have hscope : ∀ i, start.scopes.get i = default := by
    intro i
    cases i with
    | zero => rfl
    | succ i => exact ScopeTree.get_of_size_le (Nat.succ_le_succ (Nat.zero_le i))
  refine ⟨⟨fun _ he => (nomatch he), fun _ he => (nomatch he), fun _ _ hd => (nomatch hd),
    fun _ _ hf => (nomatch hf), fun _ hid => (nomatch hid), .refl⟩,
    ⟨Nat.zero_lt_one, ⟨rfl, rfl⟩, fun i hi hlt => ?_, fun i e he => ?_, fun i _ => ?_, rfl⟩,
    fun _ _ hf => (nomatch hf), fun _ he => (nomatch he), fun _ hb => (nomatch hb), rfl, rfl,
    fun k hk hlt => ?_, rfl, fun _ hi => (nomatch hi)⟩
  · have hlt : i < 1 := hlt
    omega
  · have he : e ∈ (start.scopes.get i).vars := he
    rw [hscope] at he
    cases he
  · show (start.scopes.get i).functions = []
    rw [hscope]
    rfl
  · have hlt : k < 1 := hlt
    omega

theorem start_kept : start.Kept ⟨[none], []⟩ := by
  have hglobal : start.scopes.isGlobal 0 = true := start_sound.scopes.isGlobal_root
  exact ⟨⟨⟨start_sound, rfl, fun _ hl => (nomatch hl), rfl, ⟨rfl, hglobal⟩, .start _ _ _⟩,
    fun _ _ hid => hid⟩, rfl, rfl⟩

/-- The statements of a module. -/
theorem Kept.readModule {L : Linkage} {c : Compiler} (h : c.Kept L) :
    Moves .statement ⟨c, L⟩ readModule fun _ s' => s'.Rests .whole := by
  refine Moves.read (.of_ask _) fun fuel _ => Moves.read .budget fun budget _ => ?_
  refine Moves.bind (h.rests.statements (productions_disciplined fuel) 0 budget)
    fun _ s₁ _ hs₁ => Moves.read (.of_ask _) fun done _ => ?_
  split
  · exact Fails.moves (.bind fun _ => .failExpected _ _)
  · exact .pure hs₁

theorem Kept.addModule {L : Linkage} {c c' : Compiler} (h : c.Kept L) {name : String}
    {tokens : Array Token} (hadd : c.addModule name tokens = .ok c') : ∃ L', c'.Kept L' := by
  rw [Compiler.addModule] at hadd
  split at hadd
  · cases hadd
  · rename_i hread
    cases hadd
    obtain ⟨s', r', rfl, hle, hs'⟩ := h.readModule ⟨tokens, 0, _, _⟩ () _ hread
    have hat := hs'.ready.at_
    refine ⟨s'.linkage, ⟨⟨hs'.ready.sound.of_eq rfl rfl rfl rfl rfl rfl, hat.scope, hat.loops,
      hat.current, hat.frame, hat.code⟩, hs'.calm⟩, hle.scope.trans h.scope, ?_⟩
    have hlabels : s'.builder.loops.map LoopContext.label = c.builder.loops.map LoopContext.label :=
      hle.loops
    rw [h.loops] at hlabels
    exact List.map_eq_nil_iff.mp hlabels

/-- The invariant holds after any modules. -/
theorem Kept.addSources : ∀ (modules : List (String × String)) {L : Linkage} {c c' : Compiler},
    c.Kept L → WordScript.addSources c modules = .ok c' → ∃ L', c'.Kept L'
  | [], L, c, c', h, hadd => by
    cases hadd
    exact ⟨L, h⟩
  | (name, source) :: rest, L, c, c', h, hadd => by
    rw [WordScript.addSources] at hadd
    split at hadd
    · cases hadd
    · rename_i c₁ hsource
      rw [addSource] at hsource
      split at hsource
      · cases hsource
      · rename_i tokens _
        cases hmodule : c.addModule name tokens with
        | error e =>
          rw [hmodule] at hsource
          cases hsource
        | ok c₂ =>
          rw [hmodule] at hsource
          cases hsource
          obtain ⟨L₁, h₁⟩ := h.addModule hmodule
          exact Kept.addSources rest h₁ hadd

/-- The entry chunk, ended by a halt, has the global variables on the stack when it comes there. -/
theorem Kept.entry_shaped {L : Linkage} {c : Compiler} (h : c.Kept L) :
    ∃ heights, Chunk.Shaped L none
        { c.entry.code with code := c.entry.code.code.push (.ofOpcode .halt) } heights ∧
      heights c.entry.code.code.size = c.scopes.wordLength 0 := by
  have hnil : c.nested = [] := h.rests.ready.at_.frame.1
  have hbuilder : c.builder = c.entry := by rw [Compiler.builder, hnil]
  have hloops := h.loops
  have hcode := h.rests.ready.at_.code
  rw [Builder.waiting, Builder.loopLabels, hloops] at hcode
  rw [show Compiler.scopeWords c = c.scopes.wordLength 0 by rw [Compiler.scopeWords, h.scope],
    hbuilder] at hcode
  exact hcode.close (Instruction.opcode?_ofOpcode .halt) (Nat.zero_le _) trivial rfl rfl

/-- The program of a compilation has a shape. -/
theorem Kept.shaped {L : Linkage} {c : Compiler} (h : c.Kept L) :
    ∃ heights : Nat → Nat → Nat, c.build.Shaped L heights ∧
      heights 0 c.entry.code.code.size = c.scopes.wordLength 0 := by
  have hsound := h.rests.ready.sound
  obtain ⟨entry, hentry, htop⟩ := h.entry_shaped
  have hsize : L.chunks.length = c.chunks.size := hsound.size
  have hzero : L.chunks[0]? = some none := hsound.entry
  have hpos : 0 < c.chunks.size := by
    rw [← hsize]
    exact (List.getElem?_eq_some_iff.mp hzero).1
  -- the first chunk is the entry, which is closed now; the others were closed before
  have hchunk : ∀ k, ∃ heights : Nat → Nat, (k = 0 → heights = entry) ∧
      ∀ shape, L.chunks[k]? = some shape →
        ∃ chunk, c.build.chunks[k]? = some chunk ∧ chunk.Shaped L shape heights := by
    intro k
    by_cases hk : k = 0
    · subst hk
      refine ⟨entry, fun _ => rfl, fun shape hshape => ?_⟩
      obtain rfl : none = shape := Option.some_inj.mp (hzero.symm.trans hshape)
      exact ⟨_, Array.getElem?_setIfInBounds_self_of_lt hpos, hentry⟩
    · by_cases hlt : k < c.chunks.size
      · obtain ⟨shape, chunk, heights, hshape, hc, hshaped⟩ :=
          (hsound.done k (Nat.pos_of_ne_zero hk) hlt).resolve_left id
        refine ⟨heights, fun heq => absurd heq hk, fun shape' hshape' => ?_⟩
        obtain rfl : some shape = shape' := Option.some_inj.mp (hshape.symm.trans hshape')
        exact ⟨chunk, (Array.getElem?_setIfInBounds_ne (Ne.symm hk)).trans hc, hshaped⟩
      · refine ⟨entry, fun heq => absurd heq hk, fun shape hshape => absurd ?_ hlt⟩
        rw [← hsize]
        exact (List.getElem?_eq_some_iff.mp hshape).1
  obtain ⟨heights, hheights⟩ := Classical.axiomOfChoice hchunk
  refine ⟨heights, ⟨fun k => (hheights k).2, hzero⟩, ?_⟩
  rw [(hheights 0).1 rfl, htop]

/-- The bound host functions take the words of their parameters and leave the words of their
results. -/
def Binds (c : Compiler) (externals : Array Native) : Prop :=
  ∀ e ∈ (c.scopes.get 0).functions, ∀ (i : UInt16) (f : Native), e.2.kind = .external i →
    externals[i.toNat]? = some f →
    f.Balanced (e.2.callShape c.types).parameters (e.2.callShape c.types).returns

theorem Kept.natives {L : Linkage} {c : Compiler} (h : c.Kept L) {externals : Array Native}
    (hb : c.Binds externals) : Exec.Natives L externals := by
  have hsound := h.rests.ready.sound
  intro k shape f hshape hf
  have hlength : L.externals.length = c.externals.size := hsound.externals
  have hlt : k < c.externals.size := by
    rw [← hlength]
    exact (List.getElem?_eq_some_iff.mp hshape).1
  obtain ⟨e, he, i, hkind, rfl⟩ := hsound.declared k hlt
  have hlinked := (hsound.functions e he).2.linked
  rw [FunctionHeader.Linked, hkind] at hlinked
  obtain rfl : e.2.callShape c.types = shape := Option.some_inj.mp (hlinked.symm.trans hshape)
  exact hb e he i f hkind hf

end Compiler

end WordScript
