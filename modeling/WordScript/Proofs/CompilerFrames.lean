/-
What the productions leave to the table of types.

Only the declarations of structures and the instances of templates change the
table of types.  All other parts of the compiler touch it, the token sequence and
the type parameters in effect at most through the productions that recur.  So a
relation between states that looks at nothing else holds across any of these
parts as soon as it holds across the productions.

* `Framing` — relations that look only at the types, the tokens and the type
  parameters in effect;
* `Respects` — computations across which a relation holds;
* `Productions.Respect` — productions across which it holds;
* `Walk.along`, `Tracks.respects` — the walk that keeps the relation, and what is read
  on it.
-/
import WordScript.Proofs.GrammarWalks

namespace WordScript

/-- A relation between a state and a later one that looks at nothing but the types, the tokens and
the type parameters in effect. -/
class Framing (R : Compiler → Compiler → Prop) : Prop where
  same : ∀ {c c' : Compiler}, c'.types = c.types → c'.tokens = c.tokens →
    c'.bindings = c.bindings → R c c'
  trans : ∀ {c₁ c₂ c₃ : Compiler}, R c₁ c₂ → R c₂ c₃ → R c₁ c₃

/-- If the computation succeeds, its state before and its state after are related. -/
def Respects {α : Type} (R : Compiler → Compiler → Prop) (x : CompileM α) : Prop :=
  ∀ (c : Compiler) (a : α) (c' : Compiler), x c = .ok (a, c') → R c c'

/-- The relation holds across each of the productions. -/
structure Productions.Respect (R : Compiler → Compiler → Prop) (g : Productions) : Prop where
  expression : ∀ min, Respects R (g.expression min)
  operand : Respects R g.operand
  statement : ∀ depth, Respects R (g.statement depth)
  typeExpr : ∀ indirection, Respects R (g.typeExpr indirection)
  instantiate : ∀ template arguments token, Respects R (g.instantiate template arguments token)

variable {R : Compiler → Compiler → Prop} {α β : Type} {g : Productions}

namespace Respects

theorem failFuel : Respects R (CompileM.failFuel : CompileM α) :=
  fun _ _ _ h => absurd h (Fails.failFuel _ _ _)

variable [Framing R]

theorem bind {x : CompileM α} {k : α → CompileM β} (hx : Respects R x)
    (hk : ∀ a, Respects R (k a)) : Respects R (x >>= k) := by
  intro c b c' h
  obtain ⟨a, c₁, hxa, hka⟩ := CompileM.bind_eq_ok h
  exact Framing.trans (hx c a c₁ hxa) (hk a c₁ b c' hka)

theorem pure (a : α) : Respects R (pure a : CompileM α) := by
  intro c b c' h
  cases h
  exact Framing.same rfl rfl rfl

theorem ask (f : Compiler → α) : Respects R (CompileM.ask f) := by
  intro c b c' h
  cases h
  exact Framing.same rfl rfl rfl

theorem forM {f : α → CompileM Unit} (h : ∀ a, Respects R (f a)) (l : List α) :
    Respects R (l.forM f) := by
  induction l with
  | nil => exact .pure ()
  | cons a l ih => exact .bind (h a) fun _ => ih

theorem mapM {f : α → CompileM β} (h : ∀ a, Respects R (f a)) (l : List α) :
    Respects R (l.mapM f) := by
  induction l with
  | nil => exact .pure []
  | cons a l ih =>
    rw [List.mapM_cons]
    exact .bind (h a) fun _ => .bind ih fun _ => .pure _

end Respects

/-! ### Walks that keep a relation -/

/-- Along the compiler, keeping the relation to the state at the beginning. -/
def Walk.along (R : Compiler → Compiler → Prop) [Framing R] : Walk where
  place := id
  Frame := R
  alone := True
  frame h halike := Framing.trans h (Framing.same halike.types halike.tokens halike.bindings)

variable [Framing R]

instance : (Walk.along R).Free :=
  ⟨rfl⟩

instance : (Walk.along R).Moves :=
  ⟨fun h => Framing.trans (R := R) h (Framing.same rfl rfl rfl), trivial⟩

/-- The second computation does not count. -/
theorem Tracks.respects_left [HoldsTypes α] {m : α → α} {x x' : CompileM α}
    (h : Tracks (.along R) m x x') : Respects R x := by
  intro c a c' hx
  have hrun := h c c ⟨Framing.same (R := R) rfl rfl rfl, fun hT => absurd hT Walk.not_typed⟩
  rw [hx] at hrun
  exact hrun.2.1.frame

theorem Tracks.respects [HoldsTypes α] {m : α → α} {x : CompileM α}
    (h : Tracks (.along R) m x x) : Respects R x :=
  h.respects_left

theorem Respects.tracks [HoldsTypes α] {x : CompileM α} (h : Respects R x) (x' : CompileM α) :
    Tracks (.along R) id x x' := by
  intro c₀ c hc
  cases hx : x c with
  | error e => exact ⟨fun _ => trivial, fun _ => Walk.not_typed⟩
  | ok p =>
    refine ⟨.alone trivial _, ⟨Framing.trans (R := R) hc.frame (h c p.1 p.2 hx), fun hT => ?_⟩, ?_⟩
    · exact absurd hT Walk.not_typed
    · exact Walk.good_free p.1

theorem Productions.Respect.track (hg : g.Respect R) : g.Track (.along R) g where
  instantiate template arguments t _ _ := (hg.instantiate template arguments t).tracks _
  typeExpr indirection := (hg.typeExpr indirection).tracks _
  bound _ _ _ _ _ := Walk.good_free _
  expression min := (hg.expression min).tracks _
  operand := hg.operand.tracks _
  statement depth := (hg.statement depth).tracks _

end WordScript
