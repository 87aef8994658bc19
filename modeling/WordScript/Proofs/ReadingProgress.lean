/-
Every part of the grammar gets on with the tokens.

A reader that is given fuel can fail for want of it.  To show that it does not, the
tokens that are left at the cursor are counted: a part of the grammar starts with
fewer than `b` of them and ends with fewer than `b'`.  Two readings with different
fuel are followed side by side, so that what is shown is not only that neither of
them runs out of fuel but that they do the same.

* `Agree` — two computations do the same in a state, and not for want of fuel;
* `Idle` — computations that do not touch the reader;
* `Passes`, `Opens` — computations on the way from `b` tokens to `b'`; the second
  kind only where a token is left;
* `Productions.Serve` — productions that get on: all but the instances of
  templates take a token;
* `Expression.passes_read`, `TypeExpr.passes_read` — then every expression and
  every type takes a token.

Design notes: the bounds are absolute, so that the rule for sequences is plain
composition and a loop with a budget of `b` rounds is a computation from `b` to
`b`.  The rules at equal bounds are rules for `grind`; a proof goes by hand up to the
first token that is taken, which is where the bound drops.
-/
import WordScript.Proofs.CompilerFrames

namespace WordScript

variable {α β : Type}

/-- In this state the two computations end alike: with the same outcome, of which `Q` holds, or with
the same error, which is not a want of fuel. -/
inductive Agree (x x' : CompileM α) (c : Compiler) (Q : α → Compiler → Prop) : Prop
  | done {a : α} {c' : Compiler} (hx : x c = .ok (a, c')) (hx' : x' c = .ok (a, c')) (hq : Q a c')
  | stopped {e : CompileError} (hx : x c = .error e) (hx' : x' c = .error e)
      (he : e.cause ≠ .outOfFuel)

namespace Agree

variable {x x' : CompileM α} {k k' : α → CompileM β} {c : Compiler} {Q Q' : α → Compiler → Prop}
  {P : β → Compiler → Prop}

theorem mono (h : Agree x x' c Q) (hq : ∀ a c', Q a c' → Q' a c') : Agree x x' c Q' := by
  cases h with
  | done hx hx' h => exact .done hx hx' (hq _ _ h)
  | stopped hx hx' he => exact .stopped hx hx' he

theorem bind (h : Agree x x' c Q) (hk : ∀ a c', Q a c' → Agree (k a) (k' a) c' P) :
    Agree (x >>= k) (x' >>= k') c P := by
  -- sequences of the state monad, opened
  have hrun : ∀ (y : CompileM α) (f : α → CompileM β),
      (y >>= f) c = (y c >>= fun p => f p.1 p.2) := fun _ _ => rfl
  cases h with
  | stopped hx hx' he =>
    refine .stopped ?_ ?_ he
    · rw [hrun, hx]
      rfl
    · rw [hrun, hx']
      rfl
  | done hx hx' hq =>
    have hok : ∀ (a : α) (c' : Compiler) (f : α → CompileM β),
        ((Except.ok (a, c') : Except CompileError _) >>= fun p => f p.1 p.2) = f a c' :=
      fun _ _ _ => rfl
    cases hk _ _ hq with
    | done hy hy' hp =>
      refine .done ?_ ?_ hp
      · rw [hrun, hx, hok, hy]
      · rw [hrun, hx', hok, hy']
    | stopped hy hy' he =>
      refine .stopped ?_ ?_ he
      · rw [hrun, hx, hok, hy]
      · rw [hrun, hx', hok, hy']

theorem pure {a : α} (hq : Q a c) : Agree (pure a : CompileM α) (Pure.pure a) c Q :=
  .done rfl rfl hq

theorem fail {token : Token} {cause : CompileCause} (h : cause ≠ .outOfFuel) :
    Agree (CompileM.fail token cause) (CompileM.fail token cause) c Q :=
  .stopped rfl rfl h

/-- What is read off the state is known. -/
theorem ask {f : Compiler → α} (h : Agree (k (f c)) (k' (f c)) c P) :
    Agree (CompileM.ask f >>= k) (CompileM.ask f >>= k') c P :=
  (Agree.done rfl rfl ⟨rfl, rfl⟩ :
    Agree (CompileM.ask f) (CompileM.ask f) c fun a c' => a = f c ∧ c' = c).bind fun _ _ hq => by
      rw [hq.1, hq.2]
      exact h

end Agree

/-! ### Computations that do not touch the reader -/

namespace Compiler

/-- The tokens from the cursor on. -/
def left (c : Compiler) : Nat :=
  c.tokens.size - c.cursor

/-- A state that reads the same tokens from the same place, with the same templates at hand. -/
structure Beside (c c' : Compiler) : Prop where
  tokens : c'.tokens = c.tokens
  cursor : c'.cursor = c.cursor
  depth : c'.instantiationDepth = c.instantiationDepth
  templates : c'.types.templates = c.types.templates
  eof : c'.eof = c.eof

namespace Beside

theorem refl (c : Compiler) : c.Beside c :=
  ⟨rfl, rfl, rfl, rfl, rfl⟩

theorem trans {c₁ c₂ c₃ : Compiler} (h₁ : c₁.Beside c₂) (h₂ : c₂.Beside c₃) : c₁.Beside c₃ :=
  ⟨h₂.tokens.trans h₁.tokens, h₂.cursor.trans h₁.cursor, h₂.depth.trans h₁.depth,
    h₂.templates.trans h₁.templates, h₂.eof.trans h₁.eof⟩

theorem mapBuilder {c c' : Compiler} (h : c.Beside c') (f : Builder → Builder) :
    c.Beside (c'.mapBuilder f) := by
  obtain ⟨_, _, _, nested, _⟩ := c'
  cases nested <;> exact ⟨h.tokens, h.cursor, h.depth, h.templates, h.eof⟩

end Beside

end Compiler

/-- The computation never wants fuel and does not touch the reader. -/
def Idle (x : CompileM α) : Prop :=
  ∀ c, Agree x x c fun _ c' => c.Beside c'

namespace Idle

@[grind ←] theorem bind {x : CompileM α} {k : α → CompileM β} (hx : Idle x)
    (hk : ∀ a, Idle (k a)) : Idle (x >>= k) :=
  fun c => (hx c).bind fun a c₁ h₁ => (hk a c₁).mono fun _ _ h₂ => h₁.trans h₂

@[grind ←] theorem pure (a : α) : Idle (pure a : CompileM α) :=
  fun c => .pure (.refl c)

@[grind ←] theorem ask (f : Compiler → α) : Idle (CompileM.ask f) :=
  fun c => .done rfl rfl (.refl c)

@[grind ←] theorem fail {token : Token} {cause : CompileCause} (h : cause ≠ .outOfFuel) :
    Idle (CompileM.fail token cause : CompileM α) :=
  fun _ => .fail h

theorem of_modifyGet {f : Compiler → α × Compiler} (h : ∀ c : Compiler, c.Beside (f c).2) :
    Idle (modifyGet f : CompileM α) :=
  fun c => .done rfl rfl (h c)

theorem of_modify {f : Compiler → Compiler} (h : ∀ c : Compiler, c.Beside (f c)) :
    Idle (modify f : CompileM Unit) :=
  of_modifyGet h

@[grind ←] theorem mapBuilder (f : Builder → Builder) :
    Idle (modify (Compiler.mapBuilder f) : CompileM Unit) :=
  of_modify fun c => .mapBuilder (.refl c) f

@[grind ←] theorem forM {f : α → CompileM Unit} (h : ∀ a, Idle (f a)) (l : List α) :
    Idle (l.forM f) := by
  induction l with
  | nil => exact .pure ()
  | cons a l ih => exact .bind (h a) fun _ => ih

end Idle

/-- The walk beside the reader, which is left as it is. -/
def Walk.beside : Walk where
  place := id
  Frame := Compiler.Beside
  alone := True
  fuel := False
  frame h halike := h.trans
    { halike with templates := congrArg TypeTable.templates halike.types }

instance : Walk.beside.Free :=
  ⟨rfl⟩

theorem Tracks.idle [HoldsTypes α] {m : α → α} {x : CompileM α} (h : Tracks .beside m x x) :
    Idle x := by
  intro c
  have hrun := h c c ⟨.refl c, fun hT => absurd hT Walk.not_typed⟩
  cases hx : x c with
  | error e =>
    rw [hx] at hrun
    exact .stopped hx hx hrun.fuel
  | ok p =>
    rw [hx] at hrun
    exact .done hx hx hrun.2.1.frame

@[grind ←] theorem Idle.of_tracks [HoldsTypes α] {x : CompileM α} (h : Tracks .beside id x x) :
    Idle x :=
  h.idle

@[grind ←] theorem Idle.of_tracks_token {x : CompileM Token}
    (h : Tracks .beside (Token.moved Walk.beside.place) x x) : Idle x :=
  h.idle

/-! ### Computations that move the cursor on -/

/-- A state inside `d` instances, from which only sequences of at most `L` tokens can be read and in
which fewer than `b` tokens are left. -/
structure Compiler.Reading (L d b : Nat) (c : Compiler) : Prop where
  tokens : c.tokens.size ≤ L
  templates : ∀ t ∈ c.types.templates, t.tokens.size ≤ L
  eof : c.eof.kind = .endOfFile
  depth : c.instantiationDepth = d
  left : c.left < b

/-- From every state with fewer than `b` tokens left, both computations end alike, and fewer than
`b'` tokens of the same sequence are left then. -/
def Passes (L d b b' : Nat) (x x' : CompileM α) : Prop :=
  ∀ c : Compiler, c.Reading L d b →
    Agree x x' c fun _ c' => c'.tokens = c.tokens ∧ c'.Reading L d b'

/-- The same where a token is left. -/
def Opens (L d b b' : Nat) (x x' : CompileM α) : Prop :=
  ∀ c : Compiler, c.Reading L d b → 0 < c.left →
    Agree x x' c fun _ c' => c'.tokens = c.tokens ∧ c'.Reading L d b'

variable {L d b b₁ b' : Nat} {x x' : CompileM α} {k k' : α → CompileM β}

namespace Compiler

theorem Reading.mono {c : Compiler} (h : c.Reading L d b) (hb : b ≤ b') : c.Reading L d b' :=
  { h with left := Nat.lt_of_lt_of_le h.left hb }

theorem Reading.beside {c c' : Compiler} (h : c.Reading L d b) (hc : c.Beside c') :
    c'.Reading L d b where
  tokens := by
    rw [hc.tokens]
    exact h.tokens
  templates := by
    rw [hc.templates]
    exact h.templates
  eof := by
    rw [hc.eof]
    exact h.eof
  depth := hc.depth.trans h.depth
  left := by
    rw [Compiler.left, hc.tokens, hc.cursor]
    exact h.left

/-- Moving on over the tokens leaves no more of them. -/
theorem Reading.forward {c : Compiler} (h : c.Reading L d b) {n : Nat}
    (hn : c.tokens.size - n < b') : Compiler.Reading L d b' { c with cursor := n } :=
  ⟨h.tokens, h.templates, h.eof, h.depth, hn⟩

theorem left_pos_of_kindAt {c : Compiler} (h : c.kindAt c.cursor ≠ .endOfFile) : 0 < c.left := by
  rw [kindAt] at h
  split at h
  · rename_i hget
    have hlt := (Array.getElem?_eq_some_iff.mp hget).1
    exact Nat.sub_pos_of_lt hlt
  · exact absurd rfl h

theorem Reading.left_pos_of_current {c : Compiler} (hc : c.Reading L d b)
    (h : c.current.kind ≠ .endOfFile) : 0 < c.left := by
  by_contra hleft
  have hge : c.tokens.size ≤ c.cursor := by
    rw [Compiler.left] at hleft
    omega
  have hcurrent : c.current = c.eof := by
    rw [Compiler.current, Array.getD_eq_getD_getElem?, Array.getElem?_eq_none hge, Option.getD_none]
  exact h (hcurrent ▸ hc.eof)

end Compiler

namespace Passes

theorem mono (h : Passes L d b b₁ x x') (hb : b₁ ≤ b') : Passes L d b b' x x' :=
  fun c hc => (h c hc).mono fun _ _ hq => ⟨hq.1, hq.2.mono hb⟩

theorem bind (hx : Passes L d b b₁ x x') (hk : ∀ a, Passes L d b₁ b' (k a) (k' a)) :
    Passes L d b b' (x >>= k) (x' >>= k') :=
  fun c hc => (hx c hc).bind fun a c₁ h₁ => (hk a c₁ h₁.2).mono fun _ _ h₂ =>
    ⟨h₂.1.trans h₁.1, h₂.2⟩

@[grind ←] theorem seq (hx : Passes L d b b x x') (hk : ∀ a, Passes L d b b (k a) (k' a)) :
    Passes L d b b (x >>= k) (x' >>= k') :=
  hx.bind hk

theorem opens (h : Passes L d b b' x x') : Opens L d b b' x x' :=
  fun c hc _ => h c hc

/-- What takes a token from any state does not lose any. -/
theorem of_takes (h : ∀ b₀ < b, Passes L d (b₀ + 1) b₀ x x') : Passes L d b b x x' := by
  cases b with
  | zero => exact fun c hc => absurd hc.left (Nat.not_lt_zero _)
  | succ b => exact (h b (Nat.lt_succ_self b)).mono (Nat.le_succ b)

/-- A loop is given a round for each token that is left, and one more. -/
theorem budget {k k' : Nat → CompileM β} (h : ∀ b₀ ≤ b, Passes L d b₀ b₀ (k b₀) (k' b₀)) :
    Passes L d b b (CompileM.budget >>= k) (CompileM.budget >>= k') := by
  intro c hc
  refine .ask ?_
  have hle : c.left + 1 ≤ b := hc.left
  exact (h _ hle c { hc with left := Nat.lt_succ_self _ }).mono fun _ _ hq => ⟨hq.1, hq.2.mono hle⟩

/-- At a kind other than the end of the file, a token is left. -/
theorem of_kind {k k' : TokenKind → CompileM β}
    (hopen : ∀ kind, kind ≠ .endOfFile → Opens L d b b' (k kind) (k' kind))
    (hend : Passes L d b b' (k .endOfFile) (k' .endOfFile)) :
    Passes L d b b' (CompileM.kind >>= k) (CompileM.kind >>= k') := by
  intro c hc
  refine .ask ?_
  by_cases heof : c.kindAt c.cursor = .endOfFile
  · rw [heof]
    exact hend c hc
  · exact hopen _ heof c hc (Compiler.left_pos_of_kindAt heof)

theorem of_current {k k' : Token → CompileM β}
    (hopen : ∀ token, token.kind ≠ .endOfFile → Opens L d b b' (k token) (k' token))
    (hend : ∀ token, token.kind = .endOfFile → Passes L d b b' (k token) (k' token)) :
    Passes L d b b' (CompileM.current >>= k) (CompileM.current >>= k') := by
  intro c hc
  refine .ask ?_
  by_cases heof : c.current.kind = .endOfFile
  · exact hend _ heof c hc
  · exact hopen _ heof c hc (hc.left_pos_of_current heof)

end Passes

namespace Opens

theorem mono (h : Opens L d b b₁ x x') (hb : b₁ ≤ b') : Opens L d b b' x x' :=
  fun c hc hleft => (h c hc hleft).mono fun _ _ hq => ⟨hq.1, hq.2.mono hb⟩

theorem bind (hx : Opens L d b b₁ x x') (hk : ∀ a, Passes L d b₁ b' (k a) (k' a)) :
    Opens L d b b' (x >>= k) (x' >>= k') :=
  fun c hc hleft => (hx c hc hleft).bind fun a c₁ h₁ => (hk a c₁ h₁.2).mono fun _ _ h₂ =>
    ⟨h₂.1.trans h₁.1, h₂.2⟩

end Opens

namespace Idle

@[grind ←] theorem passes (h : Idle x) : Passes L d b b x x :=
  fun c hc => (h c).mono fun _ _ hb => ⟨hb.tokens, hc.beside hb⟩

theorem fails (h : Idle x) (hfails : Fails x) : Passes L d b b' x x := by
  intro c _
  cases h c with
  | done hx _ _ => exact absurd hx (hfails _ _ _)
  | stopped hx hx' he => exact .stopped hx hx' he

/-- Before a computation that needs a token, one that leaves the reader alone makes no
difference. -/
theorem opens_bind (h : Idle x) (hk : ∀ a, Opens L d b b' (k a) (k' a)) :
    Opens L d b b' (x >>= k) (x >>= k') := by
  intro c hc hleft
  refine (h c).bind fun a c₁ hbeside => ?_
  have hleft₁ : 0 < c₁.left := by
    rw [Compiler.left, hbeside.tokens, hbeside.cursor]
    exact hleft
  exact (hk a c₁ (hc.beside hbeside) hleft₁).mono fun _ _ h₂ => ⟨h₂.1.trans hbeside.tokens, h₂.2⟩

end Idle

namespace CompileM

/-- A token that is there is taken. -/
theorem opens_advance : Opens L d (b + 1) b advance advance := by
  intro c hc hleft
  have hlt : c.cursor < c.tokens.size := Nat.lt_of_sub_pos hleft
  have hadvance : advance c = .ok (c.current, { c with cursor := c.cursor + 1 }) := by
    rw [advance, if_pos hlt]
  refine .done hadvance hadvance ⟨rfl, hc.forward ?_⟩
  have := hc.left
  rw [Compiler.left] at this
  omega

@[grind ←] theorem passes_advance : Passes L d b b advance advance := by
  intro c hc
  by_cases hlt : c.cursor < c.tokens.size
  · have hadvance : advance c = .ok (c.current, { c with cursor := c.cursor + 1 }) := by
      rw [advance, if_pos hlt]
    refine .done hadvance hadvance ⟨rfl, hc.forward ?_⟩
    have := hc.left
    rw [Compiler.left] at this
    omega
  · have hadvance : advance c = .ok (c.current, c) := by
      rw [advance, if_neg hlt]
    exact .done hadvance hadvance ⟨rfl, hc⟩

@[grind ←] theorem passes_matchKind (k : TokenKind) :
    Passes L d b b (matchKind k) (matchKind k) := by
  unfold matchKind
  grind

/-- A token that has to be there is taken. -/
theorem takes_consume {k : TokenKind} (hk : k ≠ .endOfFile) (expected : String) :
    Passes L d (b + 1) b (consume k expected) (consume k expected) := by
  rw [consume, check, bind_assoc]
  refine .of_kind (fun kind _ => ?_) ?_
  · rw [pure_bind]
    split
    · exact opens_advance
    · exact (Idle.fails (by grind) (.bind fun _ => .failExpected _ _)).opens
  · rw [pure_bind, if_neg (by simpa using Ne.symm hk)]
    exact Idle.fails (by grind) (.bind fun _ => .failExpected _ _)

theorem takes_identifier (what : String) :
    Passes L d (b + 1) b (identifier what) (identifier what) :=
  takes_consume (by simp) what

@[grind ←] theorem passes_consume (k : TokenKind) (expected : String) :
    Passes L d b b (consume k expected) (consume k expected) := by
  unfold consume
  grind

@[grind ←] theorem passes_identifier (what : String) :
    Passes L d b b (identifier what) (identifier what) :=
  passes_consume _ _

@[grind ←] theorem passes_endStatement : Passes L d b b endStatement endStatement := by
  unfold endStatement
  grind

end CompileM

/-- The productions of the two records end alike in `d` instances with fewer than `b` tokens left.
All but the instance of a template take a token. -/
structure Productions.Serve (L d b : Nat) (g g' : Productions) : Prop where
  expression : ∀ b₀ < b, ∀ min, Passes L d (b₀ + 1) b₀ (g.expression min) (g'.expression min)
  operand : ∀ b₀ < b, Passes L d (b₀ + 1) b₀ g.operand g'.operand
  statement : ∀ b₀ < b, ∀ depth, Passes L d (b₀ + 1) b₀ (g.statement depth) (g'.statement depth)
  typeExpr : ∀ b₀ < b, ∀ indirection,
    Passes L d (b₀ + 1) b₀ (g.typeExpr indirection) (g'.typeExpr indirection)
  instantiate : ∀ b₀ ≤ b, ∀ template arguments token,
    Passes L d b₀ b₀ (g.instantiate template arguments token)
      (g'.instantiate template arguments token)

variable {g g' : Productions}

namespace Productions.Serve

theorem mono (h : g.Serve L d b g') (hb : b₁ ≤ b) : g.Serve L d b₁ g' where
  expression b₀ h₀ := h.expression b₀ (by omega)
  operand b₀ h₀ := h.operand b₀ (by omega)
  statement b₀ h₀ := h.statement b₀ (by omega)
  typeExpr b₀ h₀ := h.typeExpr b₀ (by omega)
  instantiate b₀ h₀ := h.instantiate b₀ (by omega)

@[grind ←] theorem passes_expression (h : g.Serve L d b g') (min : Precedence) :
    Passes L d b b (g.expression min) (g'.expression min) :=
  .of_takes fun b₀ h₀ => h.expression b₀ h₀ min

@[grind ←] theorem passes_operand (h : g.Serve L d b g') : Passes L d b b g.operand g'.operand :=
  .of_takes h.operand

@[grind ←] theorem passes_statement (h : g.Serve L d b g') (depth : Nat) :
    Passes L d b b (g.statement depth) (g'.statement depth) :=
  .of_takes fun b₀ h₀ => h.statement b₀ h₀ depth

@[grind ←] theorem passes_instantiate (h : g.Serve L d b g') (template : Nat) (arguments : List Ty)
    (token : Token) : Passes L d b b (g.instantiate template arguments token)
      (g'.instantiate template arguments token) :=
  h.instantiate b (Nat.le_refl b) template arguments token

end Productions.Serve

/-- Nothing is asked of a loop without rounds. -/
theorem Passes.of_zero : Passes L d 0 b' x x' :=
  fun _ hc => absurd hc.left (Nat.not_lt_zero _)

end WordScript
