/-
Stages of a compilation.

What a part of the compiler does is said about stages: a state of the compilation
with the shapes of all chunks that have been numbered so far.  Where the compiler
reads is left out, since nothing that has been compiled depends on it.

* `Stage`, `Compiler.on` — stages, and a state that reads from somewhere else;
* `Stage.Le` — a later stage: what a value or a statement may change;
* `Moves` — where a computation leads if it succeeds;
* `Reads` — a computation that only reads.

Design notes: the compiler is one pass without backtracking, so a property of the
code so far is carried through it by following the computation.  `Moves.bind` and
`Moves.read` follow it one step at a time and collect what has changed in
`Stage.Le`; every later module applies them and never looks at the state monad.
-/
import WordScript.Compiler.Module
import WordScript.Proofs.OpenCode
import WordScript.Proofs.ScopeFrames

namespace WordScript

/-- What a compilation reads, and how deep it is inside instances. -/
structure Reader where
  tokens : Array Token
  cursor : Nat
  eof : Token
  depth : Nat

namespace Compiler

/-- The same state, reading something else. -/
def on (c : Compiler) (r : Reader) : Compiler :=
  { c with tokens := r.tokens, cursor := r.cursor, eof := r.eof, instantiationDepth := r.depth }

/-- What a state reads. -/
def reader (c : Compiler) : Reader :=
  ⟨c.tokens, c.cursor, c.eof, c.instantiationDepth⟩

theorem mapBuilder_on (c : Compiler) (f : Builder → Builder) (r : Reader) :
    (c.on r).mapBuilder f = (c.mapBuilder f).on r := by
  obtain ⟨_, _, _, nested, _⟩ := c
  cases nested <;> rfl

theorem builder_mapBuilder (c : Compiler) (f : Builder → Builder) :
    (c.mapBuilder f).builder = f c.builder := by
  obtain ⟨_, _, _, nested, _⟩ := c
  cases nested <;> rfl

@[simp] theorem types_mapBuilder (c : Compiler) (f : Builder → Builder) :
    (c.mapBuilder f).types = c.types := by
  obtain ⟨_, _, _, nested, _⟩ := c
  cases nested <;> rfl

@[simp] theorem scopes_mapBuilder (c : Compiler) (f : Builder → Builder) :
    (c.mapBuilder f).scopes = c.scopes := by
  obtain ⟨_, _, _, nested, _⟩ := c
  cases nested <;> rfl

@[simp] theorem chunks_mapBuilder (c : Compiler) (f : Builder → Builder) :
    (c.mapBuilder f).chunks = c.chunks := by
  obtain ⟨_, _, _, nested, _⟩ := c
  cases nested <;> rfl

@[simp] theorem externals_mapBuilder (c : Compiler) (f : Builder → Builder) :
    (c.mapBuilder f).externals = c.externals := by
  obtain ⟨_, _, _, nested, _⟩ := c
  cases nested <;> rfl

@[simp] theorem tokens_mapBuilder (c : Compiler) (f : Builder → Builder) :
    (c.mapBuilder f).tokens = c.tokens := by
  obtain ⟨_, _, _, nested, _⟩ := c
  cases nested <;> rfl

@[simp] theorem bindings_mapBuilder (c : Compiler) (f : Builder → Builder) :
    (c.mapBuilder f).bindings = c.bindings := by
  obtain ⟨_, _, _, nested, _⟩ := c
  cases nested <;> rfl

/-- The chunks around the one under construction are left alone. -/
structure SameBelow (c c' : Compiler) : Prop where
  tail : c'.nested.tail = c.nested.tail
  nil_iff : c'.nested = [] ↔ c.nested = []
  entry : c.nested ≠ [] → c'.entry = c.entry

namespace SameBelow

theorem of_eq {c c' : Compiler} (hnested : c'.nested = c.nested) (hentry : c'.entry = c.entry) :
    c.SameBelow c' := by
  refine ⟨?_, ?_, fun _ => hentry⟩
  · rw [hnested]
  · rw [hnested]

theorem refl (c : Compiler) : c.SameBelow c :=
  of_eq rfl rfl

theorem trans {c₁ c₂ c₃ : Compiler} (h₁ : c₁.SameBelow c₂) (h₂ : c₂.SameBelow c₃) :
    c₁.SameBelow c₃ :=
  ⟨h₂.tail.trans h₁.tail, h₂.nil_iff.trans h₁.nil_iff,
    fun hne => (h₂.entry fun h => hne (h₁.nil_iff.mp h)).trans (h₁.entry hne)⟩

theorem mapBuilder (c : Compiler) (f : Builder → Builder) : c.SameBelow (c.mapBuilder f) := by
  obtain ⟨_, _, _, nested, _⟩ := c
  cases nested with
  | nil => exact ⟨rfl, Iff.rfl, fun hne => absurd rfl hne⟩
  | cons b rest => exact ⟨rfl, by simp [Compiler.mapBuilder], fun _ => rfl⟩

end SameBelow

end Compiler

/-- A state of the compilation with the shapes of the chunks and host functions so far. -/
structure Stage extends Compiler where
  linkage : Linkage

/-- What a part of the source may change.  A value only adds code without jumps, what controls the flow
of statements may also change the code before it, and a statement the innermost scope and the jumps
that leave a loop. -/
inductive Extent where
  | value
  | control
  | statement
deriving DecidableEq

/-- Where a loop begins, and the words of the frame there. -/
def LoopContext.label (l : LoopContext) : Nat × Nat :=
  (l.start, l.scopeWords)

namespace Extent

/-- What may happen to the scopes. -/
def Scopes : Extent → ScopeTree → ScopeTree → Prop
  | value, sc, sc' | control, sc, sc' => sc' = sc
  | statement, sc, sc' => sc.Grown sc'

/-- What may happen to the loops that are open. -/
def Loops : Extent → List LoopContext → List LoopContext → Prop
  | value, ls, ls' | control, ls, ls' => ls' = ls
  | statement, ls, ls' => ls'.map LoopContext.label = ls.map LoopContext.label

/-- What may happen to the code. -/
def Code : Extent → Chunk → Chunk → Prop
  | value, c, c' => c.Adds c'
  | control, _, _ | statement, _, _ => True

theorem scopes_refl (e : Extent) (sc : ScopeTree) : e.Scopes sc sc := by
  cases e with
  | value | control => rfl
  | statement => exact .refl sc

theorem loops_refl (e : Extent) (ls : List LoopContext) : e.Loops ls ls := by
  cases e <;> rfl

/-- Code that control passes through may always be added. -/
theorem code_of_adds (e : Extent) {c c' : Chunk} (h : c.Adds c') : e.Code c c' := by
  cases e with
  | value => exact h
  | control | statement => trivial

theorem Scopes.trans {e : Extent} {sc₁ sc₂ sc₃ : ScopeTree} (h₁ : e.Scopes sc₁ sc₂)
    (h₂ : e.Scopes sc₂ sc₃) : e.Scopes sc₁ sc₃ := by
  cases e with
  | value | control => exact Eq.trans h₂ h₁
  | statement => exact ScopeTree.Grown.trans h₁ h₂

theorem Loops.trans {e : Extent} {ls₁ ls₂ ls₃ : List LoopContext} (h₁ : e.Loops ls₁ ls₂)
    (h₂ : e.Loops ls₂ ls₃) : e.Loops ls₁ ls₃ := by
  cases e <;> exact Eq.trans h₂ h₁

theorem Code.trans {e : Extent} {c₁ c₂ c₃ : Chunk} (h₁ : e.Code c₁ c₂) (h₂ : e.Code c₂ c₃) :
    e.Code c₁ c₃ := by
  cases e with
  | value => exact Chunk.Adds.trans h₁ h₂
  | control | statement => trivial

theorem Scopes.grown {e : Extent} {sc sc' : ScopeTree} (h : e.Scopes sc sc') : sc.Grown sc' := by
  cases e with
  | value | control =>
    obtain rfl : sc' = sc := h
    exact .refl sc'
  | statement => exact h

theorem Loops.map_label {e : Extent} {ls ls' : List LoopContext} (h : e.Loops ls ls') :
    ls'.map LoopContext.label = ls.map LoopContext.label := by
  cases e with
  | value | control =>
    obtain rfl : ls' = ls := h
    rfl
  | statement => exact h

end Extent

namespace Stage

/-- A later stage. -/
structure Le (e : Extent) (s s' : Stage) : Prop where
  linkage : s.linkage.Le s'.linkage
  types : s.types.Le s'.types
  scopes : e.Scopes s.scopes s'.scopes
  chunk : s'.builder.chunk = s.builder.chunk
  scope : s'.builder.scope = s.builder.scope
  returns : s'.builder.returns = s.builder.returns
  loops : e.Loops s.builder.loops s'.builder.loops
  code : e.Code s.builder.code s'.builder.code
  below : s.toCompiler.SameBelow s'.toCompiler

namespace Le

variable {e : Extent} {s s' s₁ s₂ s₃ : Stage}

theorem refl (e : Extent) (s : Stage) : s.Le e s :=
  ⟨.refl _, .refl _, e.scopes_refl _, rfl, rfl, rfl, e.loops_refl _, e.code_of_adds (.refl _),
    .refl _⟩

theorem trans (h₁ : s₁.Le e s₂) (h₂ : s₂.Le e s₃) : s₁.Le e s₃ :=
  ⟨h₁.linkage.trans h₂.linkage, h₁.types.trans h₂.types, h₁.scopes.trans h₂.scopes,
    h₂.chunk.trans h₁.chunk, h₂.scope.trans h₁.scope, h₂.returns.trans h₁.returns,
    h₁.loops.trans h₂.loops, h₁.code.trans h₂.code, h₁.below.trans h₂.below⟩

/-- What a value may change, a statement may change too. -/
theorem statement (h : s.Le e s') : s.Le .statement s' :=
  ⟨h.linkage, h.types, h.scopes.grown, h.chunk, h.scope, h.returns, h.loops.map_label, trivial,
    h.below⟩

/-- So may what controls the flow of statements. -/
theorem control (h : s.Le .value s') : s.Le .control s' :=
  ⟨h.linkage, h.types, h.scopes, h.chunk, h.scope, h.returns, h.loops, trivial, h.below⟩

/-- What a value changes, anything may change. -/
theorem of_value (h : s.Le .value s') : s.Le e s' := by
  cases e with
  | value => exact h
  | control => exact h.control
  | statement => exact h.statement

/-- Only statements touch the scopes. -/
theorem same_scopes (h : s.Le .control s') : s'.scopes = s.scopes :=
  h.scopes

theorem same_scopeWords (h : s.Le .control s') : s'.scopeWords = s.scopeWords := by
  rw [Compiler.scopeWords, Compiler.scopeWords, h.same_scopes, Compiler.scope, h.scope]
  rfl

theorem scopes_eq (h : s.Le .value s') : s'.scopes = s.scopes :=
  h.scopes

theorem scopeWords_eq (h : s.Le .value s') : s'.scopeWords = s.scopeWords :=
  h.control.same_scopeWords

theorem scopeWords_le (h : s.Le e s') : s.scopeWords ≤ s'.scopeWords := by
  have hwords := h.scopes.grown.words s.builder.scope
  rw [Compiler.scopeWords, Compiler.scopeWords, Compiler.scope, Compiler.scope, h.scope]
  exact hwords

end Le

end Stage

/-- If the computation succeeds from the stage, it leads to a later stage that is as described, wherever
it reads. -/
def Moves {α : Type} (e : Extent) (s : Stage) (x : CompileM α) (Q : α → Stage → Prop) : Prop :=
  ∀ (r : Reader) (a : α) (c : Compiler), x (s.toCompiler.on r) = .ok (a, c) →
    ∃ (s' : Stage) (r' : Reader), c = s'.toCompiler.on r' ∧ s.Le e s' ∧ Q a s'

/-- If the computation succeeds from the state, it has only read, and its result is as described. -/
def Reads {α : Type} (c : Compiler) (x : CompileM α) (q : α → Prop) : Prop :=
  ∀ (r : Reader) (a : α) (c' : Compiler), x (c.on r) = .ok (a, c') → (∃ r', c' = c.on r') ∧ q a

/-- The computation never succeeds. -/
def Fails {α : Type} (x : CompileM α) : Prop :=
  ∀ (c : Compiler) (a : α) (c' : Compiler), x c ≠ .ok (a, c')

/-- What holds of a result where it is checked. -/
theorem exists_of_any {ε α : Type} {x : Except ε α} {q : α → Bool} (h : x.toOption.any q = true) :
    ∃ a, x = .ok a ∧ q a = true := by
  cases x with
  | error e => cases h
  | ok a => exact ⟨a, rfl, h⟩

namespace CompileM

variable {α β : Type}

/-- What a sequence has done where it succeeds. -/
theorem bind_eq_ok {x : CompileM α} {k : α → CompileM β} {c c' : Compiler} {b : β}
    (h : (x >>= k) c = .ok (b, c')) : ∃ a c₁, x c = .ok (a, c₁) ∧ k a c₁ = .ok (b, c') := by
  have h : (x c >>= fun p => k p.1 p.2) = .ok (b, c') := h
  cases hx : x c with
  | error err =>
    rw [hx] at h
    cases h
  | ok p =>
    rw [hx] at h
    exact ⟨p.1, p.2, rfl, h⟩

theorem ask_bind (f : Compiler → α) (k : α → CompileM β) (c : Compiler) :
    (ask f >>= k) c = k (f c) c :=
  rfl

end CompileM

namespace Fails

variable {α β : Type}

theorem fail (token : Token) (cause : CompileCause) : Fails (CompileM.fail token cause : CompileM α) :=
  fun _ _ _ h => nomatch h

theorem bind_left {x : CompileM α} (h : Fails x) (k : α → CompileM β) : Fails (x >>= k) := by
  intro c b c' hbind
  obtain ⟨a, c₁, hx, -⟩ := CompileM.bind_eq_ok hbind
  exact h c a c₁ hx

theorem bind {x : CompileM α} {k : α → CompileM β} (h : ∀ a, Fails (k a)) : Fails (x >>= k) := by
  intro c b c' hbind
  obtain ⟨a, c₁, -, hk⟩ := CompileM.bind_eq_ok hbind
  exact h a c₁ b c' hk

theorem failExpected (token : Token) (expected : String) :
    Fails (CompileM.failExpected token expected : CompileM α) :=
  fail _ _

theorem failMismatch (token : Token) (expected found : String) :
    Fails (CompileM.failMismatch token expected found : CompileM α) :=
  fail _ _

theorem failFuel : Fails (CompileM.failFuel : CompileM α) :=
  bind fun _ => fail _ _

theorem failLayout (token : Token) (e : LayoutError) :
    Fails (CompileM.wordsOf.failLayout token e : CompileM α) := by
  cases e <;> exact fail _ _

theorem failMember (ty : Ty) (token : Token) : Fails (Access.failMember ty token : CompileM α) :=
  bind fun _ => fail _ _

theorem failOperands (op : Token) (left right : Ty) :
    Fails (Expression.failOperands op left right : CompileM α) :=
  bind fun _ => bind fun _ => fail _ _

theorem failLiteral (token : Token) : Fails (TypeExpr.failLiteral token : CompileM α) :=
  fail _ _

theorem failRedeclared (token : Token) : Fails (Function.failRedeclared token : CompileM α) :=
  fail _ _

theorem moves {x : CompileM α} (h : Fails x) {e : Extent} {s : Stage} {Q : α → Stage → Prop} :
    Moves e s x Q :=
  fun _ _ _ hx => absurd hx (h _ _ _)

theorem reads {x : CompileM α} (h : Fails x) {c : Compiler} {q : α → Prop} : Reads c x q :=
  fun _ _ _ hx => absurd hx (h _ _ _)

end Fails

namespace Reads

variable {α β : Type} {c : Compiler} {q : α → Prop}

theorem pure {a : α} (h : q a) : Reads c (pure a) q := by
  intro r a' c' hx
  cases hx
  exact ⟨⟨r, rfl⟩, h⟩

theorem bind {x : CompileM α} {k : α → CompileM β} {p : α → Prop} {q : β → Prop}
    (hx : Reads c x p) (hk : ∀ a, p a → Reads c (k a) q) : Reads c (x >>= k) q := by
  intro r b c' h
  obtain ⟨a, c₁, hxa, hka⟩ := CompileM.bind_eq_ok h
  obtain ⟨⟨r₁, rfl⟩, ha⟩ := hx r a c₁ hxa
  exact hk a ha r₁ b c' hka

theorem mono {x : CompileM α} {p q : α → Prop} (hx : Reads c x p) (h : ∀ a, p a → q a) :
    Reads c x q := by
  intro r a c' hxa
  obtain ⟨hr, ha⟩ := hx r a c' hxa
  exact ⟨hr, h a ha⟩

theorem ask (f : Compiler → α) : Reads c (CompileM.ask f) fun a => ∃ r, a = f (c.on r) := by
  intro r a c' hx
  cases hx
  exact ⟨⟨r, rfl⟩, r, rfl⟩

/-- Moving somewhere else is reading too. -/
theorem modify {f : Compiler → Compiler} (h : ∀ r, ∃ r', f (c.on r) = c.on r') :
    Reads c (modify f) fun _ => True := by
  intro r a c' hx
  cases hx
  exact ⟨h r, trivial⟩

end Reads

namespace Moves

variable {α β : Type} {e : Extent} {s : Stage} {Q : α → Stage → Prop} {Q' : β → Stage → Prop}

theorem pure {a : α} (h : Q a s) : Moves e s (pure a) Q := by
  intro r a' c hx
  cases hx
  exact ⟨s, r, rfl, .refl e s, h⟩

theorem bind {x : CompileM α} {k : α → CompileM β} (hx : Moves e s x Q)
    (hk : ∀ a s', s.Le e s' → Q a s' → Moves e s' (k a) Q') : Moves e s (x >>= k) Q' := by
  intro r b c h
  obtain ⟨a, c₁, hxa, hka⟩ := CompileM.bind_eq_ok h
  obtain ⟨s₁, r₁, rfl, hle₁, ha⟩ := hx r a c₁ hxa
  obtain ⟨s₂, r₂, rfl, hle₂, hb⟩ := hk a s₁ hle₁ ha r₁ b c hka
  exact ⟨s₂, r₂, rfl, hle₁.trans hle₂, hb⟩

/-- A value before the rest. -/
theorem value {x : CompileM α} {k : α → CompileM β} (hx : Moves .value s x Q)
    (hk : ∀ a s', s.Le .value s' → Q a s' → Moves e s' (k a) Q') : Moves e s (x >>= k) Q' := by
  intro r b c h
  obtain ⟨a, c₁, hxa, hka⟩ := CompileM.bind_eq_ok h
  obtain ⟨s₁, r₁, rfl, hle₁, ha⟩ := hx r a c₁ hxa
  obtain ⟨s₂, r₂, rfl, hle₂, hb⟩ := hk a s₁ hle₁ ha r₁ b c hka
  exact ⟨s₂, r₂, rfl, hle₁.of_value.trans hle₂, hb⟩

theorem read {x : CompileM α} {k : α → CompileM β} {q : α → Prop} (hx : Reads s.toCompiler x q)
    (hk : ∀ a, q a → Moves e s (k a) Q') : Moves e s (x >>= k) Q' := by
  intro r b c h
  obtain ⟨a, c₁, hxa, hka⟩ := CompileM.bind_eq_ok h
  obtain ⟨⟨r₁, rfl⟩, ha⟩ := hx r a c₁ hxa
  exact hk a ha r₁ b c hka

/-- A question about what does not depend on where the compiler reads. -/
theorem ask {f : Compiler → α} {k : α → CompileM β} {a : α} (h : ∀ r, f (s.toCompiler.on r) = a)
    (hk : Moves e s (k a) Q') : Moves e s (CompileM.ask f >>= k) Q' := by
  refine read (.ask f) fun b ⟨r, hb⟩ => ?_
  rw [hb, h r]
  exact hk

theorem of_reads {x : CompileM α} {q : α → Prop} (hx : Reads s.toCompiler x q)
    (h : ∀ a, q a → Q a s) : Moves e s x Q := by
  intro r a c hxa
  obtain ⟨⟨r', rfl⟩, ha⟩ := hx r a c hxa
  exact ⟨s, r', rfl, .refl e s, h a ha⟩

theorem mono {x : CompileM α} {Q₁ Q₂ : α → Stage → Prop} (hx : Moves e s x Q₁)
    (h : ∀ a s', s.Le e s' → Q₁ a s' → Q₂ a s') : Moves e s x Q₂ := by
  intro r a c hxa
  obtain ⟨s', r', hc, hle, ha⟩ := hx r a c hxa
  exact ⟨s', r', hc, hle, h a s' hle ha⟩

/-- A value at the end. -/
theorem last {x : CompileM α} {Q₁ Q₂ : α → Stage → Prop} (hx : Moves .value s x Q₁)
    (h : ∀ a s', s.Le .value s' → Q₁ a s' → Q₂ a s') : Moves e s x Q₂ := by
  intro r a c hxa
  obtain ⟨s', r', hc, hle, ha⟩ := hx r a c hxa
  exact ⟨s', r', hc, hle.of_value, h a s' hle ha⟩

/-- Anything is part of a statement. -/
theorem statement {x : CompileM α} (hx : Moves e s x Q) : Moves .statement s x Q := by
  intro r a c hxa
  obtain ⟨s', r', hc, hle, ha⟩ := hx r a c hxa
  exact ⟨s', r', hc, hle.statement, ha⟩

/-- A part of a statement before the rest. -/
theorem part {x : CompileM α} {k : α → CompileM β} (hx : Moves e s x Q)
    (hk : ∀ a s', s.Le e s' → Q a s' → Moves .statement s' (k a) Q') :
    Moves .statement s (x >>= k) Q' := by
  intro r b c h
  obtain ⟨a, c₁, hxa, hka⟩ := CompileM.bind_eq_ok h
  obtain ⟨s₁, r₁, rfl, hle₁, ha⟩ := hx r a c₁ hxa
  obtain ⟨s₂, r₂, rfl, hle₂, hb⟩ := hk a s₁ hle₁ ha r₁ b c hka
  exact ⟨s₂, r₂, rfl, hle₁.statement.trans hle₂, hb⟩

/-- A branch that fails. -/
theorem else_ {p : Prop} [Decidable p] {x y : CompileM α} (hx : Fails x)
    (hy : ¬p → Moves e s y Q) : Moves e s (if p then x else y) Q := by
  split
  · exact hx.moves
  · exact hy ‹_›

/-- A check before the rest. -/
theorem guard {p : Prop} [Decidable p] {x : CompileM Unit} {k : Unit → CompileM β} (hx : Fails x)
    (hk : ¬p → Moves e s (k ()) Q') : Moves e s (if p then x >>= k else k ()) Q' :=
  else_ (hx.bind_left k) hk

/-- A computation on the state that does not depend on where it reads. -/
theorem modify {f : Compiler → Compiler} {s' : Stage} {Q : Unit → Stage → Prop}
    (hf : ∀ r, ∃ r', f (s.toCompiler.on r) = s'.toCompiler.on r') (hle : s.Le e s') (h : Q () s') :
    Moves e s (modify f) Q := by
  intro r a c hx
  cases hx
  obtain ⟨r', hr'⟩ := hf r
  exact ⟨s', r', hr', hle, h⟩

end Moves

/-! ### What only reads -/

namespace Reads

open CompileM

variable {c : Compiler}

/-- A computation that only reads, whatever it gives. -/
theorem of_ask {α : Type} (f : Compiler → α) : Reads c (CompileM.ask f) fun _ => True :=
  (ask f).mono fun _ _ => trivial

theorem current : Reads c CompileM.current fun _ => True :=
  of_ask _

theorem cursor : Reads c CompileM.cursor fun _ => True :=
  of_ask _

theorem kind : Reads c CompileM.kind fun _ => True :=
  of_ask _

theorem kindAhead (n : Nat) : Reads c (CompileM.kindAhead n) fun _ => True :=
  of_ask _

theorem budget : Reads c CompileM.budget fun _ => True :=
  of_ask _

theorem typeName (ty : Ty) : Reads c (CompileM.typeName ty) fun _ => True :=
  of_ask _

theorem advance : Reads c CompileM.advance fun _ => True := by
  intro r a c' hx
  rw [CompileM.advance] at hx
  split at hx
  · cases hx
    exact ⟨⟨{ r with cursor := r.cursor + 1 }, rfl⟩, trivial⟩
  · cases hx
    exact ⟨⟨r, rfl⟩, trivial⟩

theorem moveTo (cursor : Nat) : Reads c (CompileM.moveTo cursor) fun _ => True :=
  modify fun r => ⟨{ r with cursor }, rfl⟩

theorem skipBlock (depth : Nat) : Reads c (CompileM.skipBlock depth) fun _ => True :=
  modify fun r => ⟨{ r with cursor := _ }, rfl⟩

theorem check (k : TokenKind) : Reads c (CompileM.check k) fun _ => True :=
  kind.bind fun _ _ => pure trivial

theorem matchKind (k : TokenKind) : Reads c (CompileM.matchKind k) fun _ => True := by
  refine (check k).bind fun b _ => ?_
  split
  · exact advance.bind fun _ _ => pure trivial
  · exact pure trivial

theorem consume (k : TokenKind) (expected : String) :
    Reads c (CompileM.consume k expected) fun _ => True := by
  refine (check k).bind fun b _ => ?_
  split
  · exact advance
  · exact current.bind fun _ _ => (Fails.failExpected _ _).reads

theorem identifier (what : String) : Reads c (CompileM.identifier what) fun _ => True :=
  consume _ _

theorem atStatementEnd : Reads c CompileM.atStatementEnd fun _ => True := by
  refine kind.bind fun k _ => ?_
  split <;> exact pure trivial

theorem endStatement : Reads c CompileM.endStatement fun _ => True := by
  refine kind.bind fun k _ => ?_
  split
  · exact advance.bind fun _ _ => pure trivial
  · exact pure trivial
  · exact pure trivial
  · exact current.bind fun _ _ => (Fails.failExpected _ _).reads

theorem wordsOf (ty : Ty) (token : Token) :
    Reads c (CompileM.wordsOf ty token) fun n => c.types.wordLength ty = .ok n := by
  refine (ask _).bind fun result ⟨r, hresult⟩ => ?_
  have hresult : result = c.types.wordLength ty := hresult
  split
  · exact pure hresult.symm
  · exact (Fails.failLayout _ _).reads

theorem expectType (token : Token) (expected found : Ty) :
    Reads c (CompileM.expectType token expected found) fun _ => expected = found := by
  rw [CompileM.expectType]
  split
  · exact (typeName _).bind fun _ _ => (typeName _).bind fun _ _ => (Fails.failMismatch _ _ _).reads
  · exact pure (Decidable.of_not_not ‹_›)

theorem byte (value : Nat) (token : Token) (what : String) :
    Reads c (CompileM.byte value token what) fun b => b.toNat = value := by
  rw [CompileM.byte]
  split
  · refine pure ?_
    rw [UInt8.toNat_ofNat']
    exact Nat.mod_eq_of_lt ‹_›
  · exact (Fails.fail _ _).reads

theorem short (value : Nat) (token : Token) (what : String) :
    Reads c (CompileM.short value token what) fun s => s.toNat = value := by
  rw [CompileM.short]
  split
  · refine pure ?_
    rw [UInt16.toNat_ofNat']
    exact Nat.mod_eq_of_lt ‹_›
  · exact (Fails.fail _ _).reads

theorem placeOf (operand : Operand) (token : Token) (what : String) :
    Reads c (CompileM.placeOf operand token what) fun p => operand = .place p := by
  cases operand with
  | place p => exact pure rfl
  | value ty => exact (Fails.fail _ _).reads

theorem displacement (at_ target : Nat) (token : Token) :
    Reads c (CompileM.displacement at_ target token) fun d =>
      -32768 ≤ d ∧ d ≤ 32767 ∧ (at_ : Int) + 1 + d = target := by
  rw [CompileM.displacement]
  split
  · rename_i h
    exact pure ⟨h.1, h.2, by omega⟩
  · exact (Fails.fail _ _).reads

theorem elseFollows (depth : Nat) : Reads c (Statement.elseFollows depth) fun _ => True := by
  refine cursor.bind fun at_ _ => (of_ask _).bind fun sameLine _ => (of_ask _).bind fun level _ =>
    (check _).bind fun follows _ => ?_
  split
  · exact (moveTo _).bind fun _ _ => pure trivial
  · refine (kindAhead level).bind fun next _ => ?_
    split
    · exact (moveTo _).bind fun _ _ => pure trivial
    · exact pure trivial

theorem requireLine (depth : Nat) : Reads c (Block.requireLine depth) fun _ => True := by
  refine (of_ask _).bind fun level _ => (of_ask _).bind fun done _ => ?_
  split
  · exact (of_ask _).bind fun _ _ => (Fails.fail _ _).reads
  · exact pure trivial

end Reads

end WordScript
