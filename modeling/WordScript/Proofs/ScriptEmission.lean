/-
The code of scripts.

A jump forward is emitted with an empty displacement, and lands once the code that it
passes over is there.  The jumps that leave a loop land at its end, so until then the
code of a script is open at its `break`s.  What stands before a script is not touched
by it.

* `Script.emit?` — the code of a script, if it has one;
* `Script.emit?_scopes` — only the innermost scope grows;
* `Emitted.draft` — where a script leaves the draft before it.
-/
import WordScript.Proofs.ExpressionCode
import WordScript.Proofs.PlainReading

namespace WordScript

namespace Chunk

/-- A chunk with the removal of words, if there are any. -/
def drop? (c : Chunk) (words : Nat) : Option Chunk :=
  if 0 < words then
    if words < 65536 then some (c.push (.ofByteShort .pop 0 (UInt16.ofNat words))) else none
  else some c

/-- The distance that a jump goes, counted from the instruction after it. -/
def distance (at_ target : Nat) : Int :=
  (target : Int) - at_ - 1

/-- Distances that fit into a jump. -/
def InReach (distance : Int) : Prop :=
  -32768 ≤ distance ∧ distance ≤ 32767

instance (distance : Int) : Decidable (InReach distance) :=
  inferInstanceAs (Decidable (_ ∧ _))

/-- A chunk in which a jump lands at the end. -/
def land? (c : Chunk) (at_ : Nat) : Option Chunk :=
  if InReach (distance at_ c.code.size) then some (c.patch at_ (distance at_ c.code.size)) else none

/-- A chunk in which jumps land at the end. -/
def landAll? (c : Chunk) (jumps : List Nat) : Option Chunk :=
  jumps.foldlM land? c

/-- A chunk with a jump back. -/
def back? (c : Chunk) (start : Nat) : Option Chunk :=
  if InReach (distance c.code.size start) then
    some (c.push (.ofSigned .jump (distance c.code.size start)))
  else none

/-- A chunk with a jump that has yet to land. -/
def open_ (c : Chunk) (op : Opcode) : Chunk :=
  c.push (.ofSigned op 0)

end Chunk

/-- A chunk with the code of a condition. -/
def Tree.test? (Γ : Context) (e : Tree) (c : Chunk) : Option Chunk :=
  (e.emit? Γ c).bind fun r => if r.1 = .bool then some r.2 else none

/-- The loop around a script: where it begins, and the words below its body. -/
structure Loop where
  start : Nat
  words : Nat

/-- A script that has been emitted: the variables after it, the jumps in it that leave the loop
around it, and the code. -/
structure Emitted where
  scopes : Scopes
  breaks : List Nat
  code : Chunk

/-- What has been emitted, with the end of the innermost scope. -/
def Emitted.leave? (r : Emitted) : Option Emitted :=
  (r.code.drop? (r.scopes.headD []).length).map fun code => ⟨r.scopes.tail, r.breaks, code⟩

namespace Script

/-- The code of a script, if its names and types make sense and its operands fit into
instructions. -/
def emit? : Script → Option Loop → Scopes → Chunk → Option Emitted
  | skip, _, Γ, c => some ⟨Γ, [], c⟩
  | seq s t, L, Γ, c =>
    (s.emit? L Γ c).bind fun r =>
      (t.emit? L r.scopes r.code).map fun r' => ⟨r'.scopes, r'.breaks ++ r.breaks, r'.code⟩
  | var x e, _, Γ, c =>
    (e.emit? Γ.flatten c).bind fun r =>
      if (Γ.headD []).lookup x = none then some ⟨((x, r.1) :: Γ.headD []) :: Γ.tail, [], r.2⟩
      else none
  | assign x e, _, Γ, c =>
    (slot? x Γ.flatten).bind fun v => (e.emit? Γ.flatten c).bind fun r =>
      if v.1 = r.1 ∧ v.2 < 65536 then
        some ⟨Γ, [], r.2.push (.ofByteShort .storeGlobal 1 (UInt16.ofNat v.2))⟩
      else none
  | when e s, L, Γ, c =>
    (e.test? Γ.flatten c).bind fun c₁ =>
      ((s.emit? L ([] :: Γ) (c₁.open_ .jumpIfFalse)).bind Emitted.leave?).bind fun r =>
        (r.code.land? c₁.code.size).map fun c' => ⟨r.scopes, r.breaks, c'⟩
  | cond e s t, L, Γ, c =>
    (e.test? Γ.flatten c).bind fun c₁ =>
      ((s.emit? L ([] :: Γ) (c₁.open_ .jumpIfFalse)).bind Emitted.leave?).bind fun r =>
        ((r.code.open_ .jump).land? c₁.code.size).bind fun c₂ =>
          ((t.emit? L ([] :: r.scopes) c₂).bind Emitted.leave?).bind fun r' =>
            (r'.code.land? r.code.code.size).map fun c' =>
              ⟨r'.scopes, r'.breaks ++ r.breaks, c'⟩
  | while_ e s, _, Γ, c =>
    (e.test? Γ.flatten c).bind fun c₁ =>
      ((s.emit? (some ⟨c.code.size, Γ.flatten.length⟩) ([] :: Γ) (c₁.open_ .jumpIfFalse)).bind
        Emitted.leave?).bind fun r =>
        (r.code.back? c.code.size).bind fun c₂ => (c₂.land? c₁.code.size).bind fun c₃ =>
          (c₃.landAll? r.breaks.reverse).map fun c' => ⟨r.scopes, [], c'⟩
  | loop s, _, Γ, c =>
    ((s.emit? (some ⟨c.code.size, Γ.flatten.length⟩) ([] :: Γ) c).bind Emitted.leave?).bind fun r =>
      (r.code.back? c.code.size).bind fun c₂ =>
        (c₂.landAll? r.breaks.reverse).map fun c' => ⟨r.scopes, [], c'⟩
  | break_, L, Γ, c =>
    L.bind fun l => (c.drop? (Γ.flatten.length - l.words)).map fun c₁ =>
      ⟨Γ, [c₁.code.size], c₁.open_ .jump⟩
  | continue_, L, Γ, c =>
    L.bind fun l => (c.drop? (Γ.flatten.length - l.words)).bind fun c₁ =>
      (c₁.back? l.start).map fun c' => ⟨Γ, [], c'⟩

/-- The code of a script as the body of a statement. -/
def body? (s : Script) (L : Option Loop) (Γ : Scopes) (c : Chunk) : Option Emitted :=
  (s.emit? L ([] :: Γ) c).bind Emitted.leave?

/-- A body leaves the variables as they were, if it only adds to its own scope. -/
theorem scopes_of_body? {s : Script} {L : Option Loop} {Γ : Scopes} {c : Chunk} {r : Emitted}
    (hs : ∀ r, s.emit? L ([] :: Γ) c = some r → ∃ new, r.scopes = (new ++ []) :: Γ)
    (h : s.body? L Γ c = some r) : r.scopes = Γ := by
  obtain ⟨r₁, h₁, hleave⟩ := Option.bind_eq_some_iff.mp h
  obtain ⟨code, -, rfl⟩ := Option.map_eq_some_iff.mp hleave
  obtain ⟨new, hnew⟩ := hs r₁ h₁
  show r₁.scopes.tail = Γ
  rw [hnew, List.tail_cons]

/-- A script adds variables to the innermost scope. -/
theorem emit?_scopes {s : Script} {L : Option Loop} {g : Context} {outer : Scopes} {c : Chunk}
    {r : Emitted} (h : s.emit? L (g :: outer) c = some r) :
    ∃ new, r.scopes = (new ++ g) :: outer := by
  -- only a declaration adds a variable; what a body adds goes with the scope of the body
  induction s generalizing L g outer c r with
  | skip =>
    rw [emit?] at h
    cases h
    exact ⟨[], rfl⟩
  | seq s t ihs iht =>
    obtain ⟨r₁, h₁, h⟩ := Option.bind_eq_some_iff.mp h
    obtain ⟨r₂, h₂, rfl⟩ := Option.map_eq_some_iff.mp h
    obtain ⟨new₁, hnew₁⟩ := ihs h₁
    rw [hnew₁] at h₂
    obtain ⟨new₂, hnew₂⟩ := iht h₂
    exact ⟨new₂ ++ new₁, by rw [hnew₂, List.append_assoc]⟩
  | var x e =>
    obtain ⟨r₁, -, h⟩ := Option.bind_eq_some_iff.mp h
    split at h
    · cases h
      exact ⟨[(x, r₁.1)], rfl⟩
    · cases h
  | assign x e =>
    obtain ⟨v, -, h⟩ := Option.bind_eq_some_iff.mp h
    obtain ⟨r₁, -, h⟩ := Option.bind_eq_some_iff.mp h
    split at h
    · cases h
      exact ⟨[], rfl⟩
    · cases h
  | when e s ih =>
    obtain ⟨c₁, -, h⟩ := Option.bind_eq_some_iff.mp h
    obtain ⟨r₁, h₁, h⟩ := Option.bind_eq_some_iff.mp h
    obtain ⟨c', -, rfl⟩ := Option.map_eq_some_iff.mp h
    have hscopes : r₁.scopes = g :: outer := scopes_of_body? (fun _ => ih) h₁
    exact ⟨[], hscopes⟩
  | cond e s t ihs iht =>
    obtain ⟨c₁, -, h⟩ := Option.bind_eq_some_iff.mp h
    obtain ⟨r₁, h₁, h⟩ := Option.bind_eq_some_iff.mp h
    obtain ⟨c₂, -, h⟩ := Option.bind_eq_some_iff.mp h
    obtain ⟨r₂, h₂, h⟩ := Option.bind_eq_some_iff.mp h
    obtain ⟨c', -, rfl⟩ := Option.map_eq_some_iff.mp h
    rw [scopes_of_body? (fun _ => ihs) h₁] at h₂
    have hscopes : r₂.scopes = g :: outer := scopes_of_body? (fun _ => iht) h₂
    exact ⟨[], hscopes⟩
  | while_ e s ih =>
    obtain ⟨c₁, -, h⟩ := Option.bind_eq_some_iff.mp h
    obtain ⟨r₁, h₁, h⟩ := Option.bind_eq_some_iff.mp h
    obtain ⟨c₂, -, h⟩ := Option.bind_eq_some_iff.mp h
    obtain ⟨c₃, -, h⟩ := Option.bind_eq_some_iff.mp h
    obtain ⟨c', -, rfl⟩ := Option.map_eq_some_iff.mp h
    have hscopes : r₁.scopes = g :: outer := scopes_of_body? (fun _ => ih) h₁
    exact ⟨[], hscopes⟩
  | loop s ih =>
    obtain ⟨r₁, h₁, h⟩ := Option.bind_eq_some_iff.mp h
    obtain ⟨c₂, -, h⟩ := Option.bind_eq_some_iff.mp h
    obtain ⟨c', -, rfl⟩ := Option.map_eq_some_iff.mp h
    have hscopes : r₁.scopes = g :: outer := scopes_of_body? (fun _ => ih) h₁
    exact ⟨[], hscopes⟩
  | break_ =>
    obtain ⟨l, -, h⟩ := Option.bind_eq_some_iff.mp h
    obtain ⟨c₁, -, rfl⟩ := Option.map_eq_some_iff.mp h
    exact ⟨[], rfl⟩
  | continue_ =>
    obtain ⟨l, -, h⟩ := Option.bind_eq_some_iff.mp h
    obtain ⟨c₁, -, h⟩ := Option.bind_eq_some_iff.mp h
    obtain ⟨c', -, rfl⟩ := Option.map_eq_some_iff.mp h
    exact ⟨[], rfl⟩

/-- A body leaves the variables as they were. -/
theorem body?_scopes {s : Script} {L : Option Loop} {Γ : Scopes} {c : Chunk} {r : Emitted}
    (h : s.body? L Γ c = some r) : r.scopes = Γ :=
  scopes_of_body? (fun _ => emit?_scopes) h

end Script

namespace Draft

open CompileM

variable {src : Source} {d : Draft}

theorem result_emitPop (src : Source) (d : Draft) (words : Nat) (token : Token) :
    result (emitPop words token) (src.compiler d) =
      (d.code.drop? words).map fun code => ((), src.compiler { d with code }) := by
  rw [emitPop, Chunk.drop?, result_ite]
  by_cases hpos : 0 < words
  · rw [if_pos hpos, if_pos hpos, result_bind, result_short]
    by_cases hwords : words < 65536
    · rw [if_pos hwords, if_pos hwords]
      rfl
    · rw [if_neg hwords, if_neg hwords]
      rfl
  · rw [if_neg hpos, if_neg hpos]
    rfl

theorem result_emitJump (src : Source) (d : Draft) (op : Opcode) :
    result (emitJump op) (src.compiler d) =
      some (d.code.code.size, src.compiler { d with code := d.code.open_ op }) := rfl

theorem result_displacement (src : Source) (d : Draft) (at_ target : Nat) (token : Token) :
    result (displacement at_ target token) (src.compiler d) =
      if Chunk.InReach (Chunk.distance at_ target) then
        some (Chunk.distance at_ target, src.compiler d)
      else none := by
  rw [displacement]
  exact result_ite _ _ _

theorem result_patchJump (src : Source) (d : Draft) (at_ : Nat) (token : Token) :
    result (patchJump at_ token) (src.compiler d) =
      (d.code.land? at_).map fun code => ((), src.compiler { d with code }) := by
  rw [patchJump, result_bind, result_here, Option.bind_some, result_bind, result_displacement,
    Chunk.land?]
  split <;> rfl

theorem result_patchJumps (src : Source) (d : Draft) (jumps : List Nat) (token : Token) :
    result (jumps.forM fun at_ => patchJump at_ token) (src.compiler d) =
      (d.code.landAll? jumps).map fun code => ((), src.compiler { d with code }) := by
  induction jumps generalizing d with
  | nil => rfl
  | cons at_ jumps ih =>
    show result (patchJump at_ token >>= fun _ => jumps.forM fun at_ => patchJump at_ token)
      (src.compiler d) = _
    rw [result_bind, result_patchJump, Chunk.landAll?, List.foldlM_cons]
    cases hland : d.code.land? at_ with
    | none => rfl
    | some code => exact ih { d with code }

theorem result_emitLoop (src : Source) (d : Draft) (start : Nat) (token : Token) :
    result (emitLoop start token) (src.compiler d) =
      (d.code.back? start).map fun code => ((), src.compiler { d with code }) := by
  rw [emitLoop, result_bind, result_here, Option.bind_some, result_bind, result_displacement,
    Chunk.back?]
  split <;> rfl

theorem result_expectType (src : Source) (d : Draft) (token : Token) (a b : Scalar) :
    result (expectType token a.ty b.ty) (src.compiler d) =
      if a = b then some ((), src.compiler d) else none := by
  cases a <;> cases b <;> rfl

theorem result_modify (f : Compiler → Compiler) (c : Compiler) :
    result (modify f) c = some ((), f c) :=
  rfl

theorem result_modifyGet {α : Type} (f : Compiler → α × Compiler) (c : Compiler) :
    result (modifyGet f) c = some (f c) :=
  rfl

/-- A block has a scope of its own. -/
theorem result_enterBlock (hscopes : d.scopes ≠ []) :
    result enterBlock (src.compiler d) =
      some ((), src.compiler { d with scopes := [] :: d.scopes }) := by
  obtain ⟨scopes, code, loops, cursor⟩ := d
  obtain ⟨g, outer, rfl⟩ := List.exists_cons_of_ne_nil hscopes
  have henter : (src.compiler ⟨g :: outer, code, loops, cursor⟩).scopes.enter
      (src.compiler ⟨g :: outer, code, loops, cursor⟩).scope .block = _ :=
    Scopes.enter_tree g outer
  rw [enterBlock, result_modify]
  simp only [henter]
  rfl

/-- At the end of a block its variables are dropped. -/
theorem result_exitBlock {g g' : Context} {outer : Scopes} (hscopes : d.scopes = g :: g' :: outer) :
    result exitBlock (src.compiler d) =
      (d.code.drop? g.length).map fun code =>
        ((), src.compiler { d with scopes := g' :: outer, code }) := by
  obtain ⟨scopes, code, loops, cursor⟩ := d
  obtain rfl : scopes = g :: g' :: outer := hscopes
  have hparent : (((src.compiler ⟨g :: g' :: outer, code, loops, cursor⟩).scopes.get
      (src.compiler ⟨g :: g' :: outer, code, loops, cursor⟩).scope).parent).getD
        ScopeTree.globalScope = outer.length := by
    rw [show (src.compiler ⟨g :: g' :: outer, code, loops, cursor⟩).scopes.get
      (src.compiler ⟨g :: g' :: outer, code, loops, cursor⟩).scope = _ from
      Scopes.get_tree g (g' :: outer)]
    rfl
  have hexit : (src.compiler ⟨g :: g' :: outer, code, loops, cursor⟩).scopes.exit = _ :=
    Scopes.exit_tree g g' outer
  rw [exitBlock, result_bind]
  show Option.bind (some _) _ = _
  rw [Option.bind_some, result_bind, result_modifyGet, Option.bind_some]
  simp only [hexit, hparent]
  exact result_emitPop src ⟨g' :: outer, code, loops, cursor⟩ g.length _

end Draft

/-! ### Drafts after scripts -/

/-- The innermost of the open loops. -/
def innermost (loops : List LoopContext) : Option Loop :=
  loops.head?.map fun l => ⟨l.start, l.scopeWords⟩

/-- The open loops with more jumps that leave the innermost one. -/
def withBreaks (jumps : List Nat) : List LoopContext → List LoopContext
  | [] => []
  | l :: loops => { l with breaks := jumps ++ l.breaks } :: loops

@[simp] theorem innermost_withBreaks (jumps : List Nat) (loops : List LoopContext) :
    innermost (withBreaks jumps loops) = innermost loops := by
  cases loops <;> rfl

@[simp] theorem withBreaks_nil (loops : List LoopContext) : withBreaks [] loops = loops := by
  cases loops <;> rfl

theorem withBreaks_append (a b : List Nat) (loops : List LoopContext) :
    withBreaks (a ++ b) loops = withBreaks a (withBreaks b loops) := by
  cases loops with
  | nil => rfl
  | cons l loops => simp only [withBreaks, List.append_assoc]

/-- The draft after a script. -/
def Emitted.draft (r : Emitted) (loops : List LoopContext) (cursor : Nat) : Draft :=
  ⟨r.scopes, r.code, withBreaks r.breaks loops, cursor⟩

end WordScript
