/-
Ground types while a module is read.

Whatever part of a module is read, the state keeps only ground types, the fields
of a template are over its own parameters, and reading never stops because a
parameter is unresolved.  What is read depends on the type parameters in effect,
which are the same again after every part.

* `Setting` — what a part of a module takes as given;
* `Compiler.Under` — the states in a setting;
* `Meets` — computations that lead from one setting to another, with what they give;
* `Walk.ground`, `Grounds` — the walk in a setting, and the computations that stay in it
  and give only ground types;
* `Productions.Ground` — productions that are sound in every setting.

Design notes: all of the grammar but the declarations of structures stays in its
setting, and is described by the walk.  Structures and instances change the type
parameters in effect and add templates; for them there are the rules of `Meets`.
-/
import WordScript.Proofs.StructureWalks

namespace WordScript

/-- What a part of a module takes as given: the type parameters in effect, and how many parameters
the templates have that were there before. -/
structure Setting where
  bindings : List Bindings
  arity? : Nat → Option Nat

/-- The type parameters in effect stand for types over `k` parameters. -/
def Setting.Over (k : Nat) (K : Setting) : Prop :=
  ∀ layer ∈ K.bindings.head?, ∀ e ∈ layer, e.2.Over k

namespace Compiler

/-- The fields of a template are over its own parameters, and the setting is as it was. -/
structure Holds (K : Setting) (c : Compiler) : Prop where
  templates : c.types.FieldsOver
  bindings : c.bindings = K.bindings
  arity? : ∀ i n, K.arity? i = some n → c.types.arity? i = some n

/-- A state in a setting, in which only ground types are kept. -/
structure Under (K : Setting) (c : Compiler) : Prop extends c.Ground, c.Holds K

end Compiler

/-- From a state under `K` the computation leads to one under `K'` with a result as in `Q`; if it
stops, then not for an unresolved parameter. -/
def Meets {α : Type} (K K' : Setting) (x : CompileM α) (Q : α → Prop) : Prop :=
  ∀ c : Compiler, c.Under K →
    match x c with
    | .ok (a, c') => c'.Under K' ∧ Q a
    | .error e => e.cause.isUnresolved = false

variable {α β : Type} {K K' K'' : Setting} {k : Nat}

/-! ### States in a setting -/

namespace Compiler

variable {c c' : Compiler}

theorem Holds.of_eq (h : c.Holds K) (htypes : c'.types = c.types)
    (hbindings : c'.bindings = c.bindings) : c'.Holds K where
  templates := htypes ▸ h.templates
  bindings := hbindings.trans h.bindings
  arity? := htypes ▸ h.arity?

/-- Only the types, the scopes, the chunks under construction and the type parameters in effect
count. -/
theorem Under.of_eq (h : c.Under K) (htypes : c'.types = c.types) (hscopes : c'.scopes = c.scopes)
    (hentry : c'.entry = c.entry) (hnested : c'.nested = c.nested)
    (hbindings : c'.bindings = c.bindings) : c'.Under K where
  scopes := hscopes ▸ h.scopes
  structures := htypes ▸ h.structures
  entry := hentry ▸ h.entry
  nested := hnested ▸ h.nested
  toHolds := h.toHolds.of_eq htypes hbindings

theorem Under.withTypes {types : TypeTable} (h : c.Under K)
    (hstructures : ∀ s ∈ types.structures, s.Ground)
    (htemplates : types.templates = c.types.templates) : ({ c with types } : Compiler).Under K :=
  have htemplate : types.template? = c.types.template? := by
    unfold TypeTable.template?
    rw [htemplates]
  { h with
    structures := hstructures
    templates := fun i d hd => h.templates i d (htemplate ▸ hd)
    arity? := fun i n hn => by
      rw [TypeTable.arity?, htemplate]
      exact h.arity? i n hn }

end Compiler

/-! ### Rules -/

namespace Meets

/-- Templates that were added meanwhile may be left out of account. -/
theorem weaken {x : CompileM α} {arity? : Nat → Option Nat} {Q : α → Prop}
    (hx : Meets K { K' with arity? } x Q) (h : ∀ i n, K'.arity? i = some n → arity? i = some n) :
    Meets K K' x Q := by
  intro c hc
  have hrun := hx c hc
  split at hrun
  · obtain ⟨hc', hq⟩ := hrun
    exact ⟨{ hc' with arity? := fun i n hn => hc'.arity? i n (h i n hn) }, hq⟩
  · exact hrun

theorem mono {x : CompileM α} {P Q : α → Prop} (hx : Meets K K' x P) (h : ∀ a, P a → Q a) :
    Meets K K' x Q := by
  intro c hc
  have hrun := hx c hc
  split at hrun
  · exact ⟨hrun.1, h _ hrun.2⟩
  · exact hrun

theorem bind {x : CompileM α} {k : α → CompileM β} {P : α → Prop} {Q : β → Prop}
    (hx : Meets K K' x P) (hk : ∀ a, P a → Meets K' K'' (k a) Q) : Meets K K'' (x >>= k) Q := by
  intro c hc
  have hrun := hx c hc
  show match x c >>= fun p => k p.1 p.2 with | .ok (a, c') => _ | .error e => _
  cases hxc : x c with
  | error e =>
    rw [hxc] at hrun
    exact hrun
  | ok p =>
    rw [hxc] at hrun
    exact hk p.1 hrun.2 p.2 hrun.1

/-- What comes before may be left out of account if nothing is said about its result. -/
theorem skip {x : CompileM α} {k : α → CompileM β} {P : α → Prop} {Q : β → Prop}
    (hx : Meets K K x P) (hk : ∀ a, Meets K K' (k a) Q) : Meets K K' (x >>= k) Q :=
  hx.bind fun a _ => hk a

theorem pure {a : α} {Q : α → Prop} (h : Q a) : Meets K K (pure a : CompileM α) Q :=
  fun _ hc => ⟨hc, h⟩

theorem ask {f : Compiler → α} {Q : α → Prop} (h : ∀ c : Compiler, c.Under K → Q (f c)) :
    Meets K K (CompileM.ask f) Q :=
  fun c hc => ⟨hc, h c hc⟩

/-- Something is read off the state of which nothing is said. -/
theorem look (f : Compiler → α) : Meets K K (CompileM.ask f) fun _ => True :=
  .ask fun _ _ => trivial

theorem modifyGet {f : Compiler → α × Compiler}
    (h : ∀ c : Compiler, c.Under K → (f c).2.Under K') :
    Meets K K' (modifyGet f : CompileM α) fun _ => True :=
  fun c hc => ⟨h c hc, trivial⟩

theorem modify {f : Compiler → Compiler} (h : ∀ c : Compiler, c.Under K → (f c).Under K') :
    Meets K K' (modify f : CompileM Unit) fun _ => True :=
  modifyGet h

theorem fail {token : Token} {cause : CompileCause} {Q : α → Prop}
    (h : cause.isUnresolved = false) : Meets K K' (CompileM.fail token cause : CompileM α) Q :=
  fun _ _ => h

theorem failFuel {Q : α → Prop} : Meets K K' (CompileM.failFuel : CompileM α) Q :=
  fun _ _ => rfl

theorem failLayout {e : LayoutError} {Q : α → Prop} (h : ∀ i, e ≠ .unresolvedPlaceholder i)
    (token : Token) : Meets K K' (CompileM.wordsOf.failLayout token e : CompileM α) Q := by
  cases e with
  | unresolvedPlaceholder i => exact absurd rfl (h i)
  | recursive name => exact .fail rfl
  | tooLarge => exact .fail rfl

end Meets

/-! ### The walk in a setting -/

/-- The walk in a setting, with types over `k` parameters. -/
def Walk.ground (K : Setting) (k : Nat) : Walk where
  place := id
  Frame _ c := c.Holds K
  params := some k
  alone := True
  frame h halike := h.of_eq halike.types halike.bindings

/-- The computation stays in its setting and gives only ground types. -/
def Grounds [HoldsTypes α] (K : Setting) (x : CompileM α) : Prop :=
  Meets K K x (Walk.ground K 0).Good

namespace Walk

instance : (Walk.ground K 0).Closed :=
  ⟨fun _ hk => (Option.some.inj hk).symm⟩

instance : (Walk.ground K k).Moves :=
  ⟨fun h => { h with }, trivial⟩

theorem at_ground {c₀ c : Compiler} : (Walk.ground K k).At c₀ c ↔ c.Under K :=
  ⟨fun h => ⟨h.ground rfl, h.frame⟩, fun h => ⟨h.toHolds, fun _ => h.toGround⟩⟩

@[simp] theorem good_over {ty : Ty} : (Walk.ground K k).Good ty ↔ ty.Over k := by
  simp [Good, HoldsTypes.types, Walk.ground]

end Walk

theorem Tracks.meets [HoldsTypes α] {m : α → α} {x x' : CompileM α}
    (h : Tracks (.ground K k) m x x') : Meets K K x (Walk.ground K k).Good := by
  intro c hc
  have hrun := h c c (Walk.at_ground.mpr hc)
  cases hx : x c with
  | error e =>
    rw [hx] at hrun
    exact Bool.eq_false_iff.mpr fun he => hrun.unresolved he rfl
  | ok p =>
    rw [hx] at hrun
    exact ⟨Walk.at_ground.mp hrun.2.1, hrun.2.2⟩

theorem Tracks.grounds [HoldsTypes α] {m : α → α} {x x' : CompileM α}
    (h : Tracks (.ground K 0) m x x') : Grounds K x :=
  h.meets

/-- The second computation does not count. -/
theorem Meets.tracks [HoldsTypes α] {x : CompileM α}
    (h : Meets K K x (Walk.ground K k).Good) (x' : CompileM α) :
    Tracks (.ground K k) id x x' := by
  intro c₀ c hc
  have hrun := h c (Walk.at_ground.mp hc)
  cases hx : x c with
  | error e =>
    rw [hx] at hrun
    exact ⟨fun _ => trivial, fun he _ => Bool.noConfusion (hrun.symm.trans he)⟩
  | ok p =>
    rw [hx] at hrun
    exact ⟨.alone trivial _, Walk.at_ground.mpr hrun.1, hrun.2⟩

/-! ### Productions -/

/-- In every setting the productions give types over the parameters in effect; where these stand
for ground types, whatever is read gives ground types. -/
structure Productions.Ground (g : Productions) : Prop where
  expression : ∀ {K : Setting}, K.Over 0 → ∀ min, Grounds K (g.expression min)
  operand : ∀ {K : Setting}, K.Over 0 → Grounds K g.operand
  statement : ∀ {K : Setting}, K.Over 0 → ∀ depth, Grounds K (g.statement depth)
  typeExpr : ∀ {K : Setting} {k : Nat}, K.Over k → ∀ indirection,
    Meets K K (g.typeExpr indirection) (Ty.Over k)
  instantiate : ∀ {K : Setting} {arguments : List Ty}, (∀ a ∈ arguments, a.Ground) →
    ∀ template token, Grounds K (g.instantiate template arguments token)

namespace Productions.Ground

variable {g : Productions}

theorem trackInstances (hg : g.Ground) : g.TrackInstances (.ground K k) g where
  instantiate template _ t _ harguments :=
    ((hg.instantiate (harguments rfl) template t).mono fun _ _ => Walk.good_none _).tracks _

theorem trackTypes (hg : g.Ground) (hK : K.Over k) : g.TrackTypes (.ground K k) g where
  toTrackInstances := hg.trackInstances
  typeExpr indirection :=
    ((hg.typeExpr hK indirection).mono fun _ => Walk.good_over.mpr).tracks _
  bound hc layer hlayer e he :=
    Walk.good_over.mpr (hK layer (hc.frame.bindings ▸ hlayer) e he)

theorem track (hg : g.Ground) (hK : K.Over 0) : g.Track (.ground K 0) g where
  toTrackTypes := hg.trackTypes hK
  expression min := (hg.expression hK min).tracks _
  operand := (hg.operand hK).tracks _
  statement depth := (hg.statement hK depth).tracks _

end Productions.Ground

end WordScript
