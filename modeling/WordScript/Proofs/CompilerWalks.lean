/-
Walks over the compiler.

Much of what is said about the compiler is shown by going through its functions one
after the other, and the way is always the same.  A walk says what is taken along:
where the tokens stand in a second state, what is kept from the beginning on, over how
many type parameters the types are, whether the second computation may be cut short or
does not count, and whether a want of fuel is allowed.  The functions are gone through
once, for all walks.

* `Walk`, `Walk.At` — what is taken along, and the states on the way;
* `Walk.Good` — the types in a value are over the parameters of the walk;
* `Tracks` — a computation on the second state that goes along with another one;
* `Productions.TrackTypes` — productions that do so, as far as types are read;
* `TypeExpr.tracks_read`, `TypeExpr.tracks_resolve` — then so do the types.

Design notes: only successful computations are followed, so that one that stops is
followed by any other.  A result that holds tokens is moved as well: `Tracks.bind_moved`
is the rule for such a part of a sequence, and `bind` and `bind_token`, which `grind`
uses, are the cases of a result without tokens and of a token.  Computations that only
look at the tokens are apart from those that take them: some walks allow only the former.
-/
import WordScript.Proofs.GroundTypes
import WordScript.Proofs.TokenPlaces

namespace WordScript

/-! ### Types in values -/

/-- Values of which it is said which types they carry. -/
class HoldsTypes (α : Type) where
  /-- the types in the value -/
  types : α → List Ty

open HoldsTypes (types)

/-- Where nothing else is said, values carry no types. -/
instance (priority := low) HoldsTypes.none (α : Type) : HoldsTypes α := ⟨fun _ => []⟩

instance : HoldsTypes Ty := ⟨fun ty => [ty]⟩

instance : HoldsTypes Operand := ⟨fun o => [o.ty]⟩

instance : HoldsTypes Place := ⟨fun p => [p.ty]⟩

instance : HoldsTypes Variable := ⟨fun v => [v.ty]⟩

instance : HoldsTypes Parameter := ⟨fun p => [p.ty]⟩

instance : HoldsTypes Field := ⟨fun f => [f.ty]⟩

instance : HoldsTypes FieldTemplate := ⟨fun f => [f.ty]⟩

instance : HoldsTypes FunctionHeader := ⟨fun h => h.returns :: h.parameters.map Parameter.ty⟩

instance : HoldsTypes Signature := ⟨fun s => s.returns :: s.parameters.map Parameter.ty⟩

instance : HoldsTypes Structure.PendingMethod := ⟨fun m => types m.header⟩

instance {α : Type} [HoldsTypes α] : HoldsTypes (Option α) := ⟨fun o => o.toList.flatMap types⟩

instance {α : Type} [HoldsTypes α] : HoldsTypes (List α) := ⟨fun l => l.flatMap types⟩

instance {α β : Type} [HoldsTypes α] [HoldsTypes β] : HoldsTypes (α × β) :=
  ⟨fun p => types p.1 ++ types p.2⟩

attribute [grind] Operand.ty Place.atAddress

/-! ### Walks -/

namespace Compiler

/-- The later state reads the same tokens at the same place, with the same types and type
parameters. -/
structure Alike (c c' : Compiler) : Prop where
  types : c'.types = c.types
  tokens : c'.tokens = c.tokens
  cursor : c'.cursor = c.cursor
  eof : c'.eof = c.eof
  bindings : c'.bindings = c.bindings
  depth : c'.instantiationDepth = c.instantiationDepth

theorem Alike.mapBuilder {c c' : Compiler} (h : c.Alike c') (f : Builder → Builder) :
    c.Alike (c'.mapBuilder f) := by
  obtain ⟨_, _, _, nested, _⟩ := c'
  cases nested <;> exact ⟨h.types, h.tokens, h.cursor, h.eof, h.bindings, h.depth⟩

end Compiler

/-- Whether a module is refused because a type parameter stands for nothing. -/
abbrev CompileCause.isUnresolved : CompileCause → Bool
  | unresolvedPlaceholder _ => true
  | _ => false

/-- Whether a module is refused for other reasons than that or a want of fuel. -/
abbrev CompileCause.isOrdinary : CompileCause → Bool
  | unresolvedPlaceholder _ | outOfFuel => false
  | _ => true

/-- What is taken along on the way through the compiler. -/
structure Walk where
  /-- where the tokens stand in the second state -/
  place : Position → Position
  /-- what holds between the state at the beginning and the one at hand -/
  Frame : Compiler → Compiler → Prop
  /-- over how many type parameters the types are, if that is followed -/
  params : Option Nat := none
  /-- whether the second computation is left out of account -/
  alone : Prop := False
  /-- the error with which the second computation may be cut short -/
  cut : Option CompileError := none
  /-- whether the fuel may run out -/
  fuel : Prop := True
  frame : ∀ {c₀ c c' : Compiler}, Frame c₀ c → c.Alike c' → Frame c₀ c'

variable {W : Walk} {α β : Type} [HoldsTypes α] [HoldsTypes β]

namespace Walk

/-- Whether types are followed. -/
def Typed (W : Walk) : Prop :=
  W.params.isSome = true

/-- The states on the way. -/
structure At (W : Walk) (c₀ c : Compiler) : Prop where
  frame : W.Frame c₀ c
  ground : W.Typed → c.Ground

/-- The types in the value are over the parameters of the walk. -/
def Good (W : Walk) (a : α) : Prop :=
  ∀ ty ∈ types a, ∀ k ∈ W.params, ty.Over k

/-- The reasons for which a computation may stop. -/
structure Allows (W : Walk) (cause : CompileCause) : Prop where
  fuel : cause = .outOfFuel → W.fuel
  unresolved : cause.isUnresolved = true → ¬ W.Typed

/-- The second computation has the outcome `p`, is cut short or does not count. -/
inductive Yields (W : Walk) (p : α × Compiler) : Except CompileError (α × Compiler) → Prop
  | done : W.Yields p (.ok p)
  | short {e : CompileError} (he : e ∈ W.cut) : W.Yields p (.error e)
  | alone (h : W.alone) (r : Except CompileError (α × Compiler)) : W.Yields p r

/-- Walks on which tokens are taken. -/
class Moves (W : Walk) : Prop where
  frame : ∀ {c₀ c : Compiler} {cursor : Nat}, W.Frame c₀ c → W.Frame c₀ { c with cursor }
  fuel : W.fuel

/-- Walks on which all types are ground, if they are followed. -/
class Closed (W : Walk) : Prop where
  closed : ∀ k ∈ W.params, k = 0

/-- Walks on which types are not followed. -/
class Free (W : Walk) : Prop where
  free : W.params = none

instance [h : W.Free] : W.Closed :=
  ⟨fun k hk => by simp [h.free] at hk⟩

/-! ### Types on a walk -/

theorem not_typed [h : W.Free] : ¬ W.Typed := by
  simp [Typed, h.free]

theorem good_of_ground {ty : Ty} (h : W.Typed → ty.Ground) : W.Good ty := by
  intro t ht k hk
  obtain rfl := List.mem_singleton.mp ht
  exact (h (Option.isSome_of_mem hk)).over k

theorem Good.ground [hW : W.Closed] {ty : Ty} (h : W.Good ty) (hT : W.Typed) : ty.Ground := by
  obtain ⟨k, hk⟩ := Option.isSome_iff_exists.mp hT
  have hover := h ty (List.mem_singleton_self _) k hk
  rw [hW.closed k hk] at hover
  exact Ty.over_zero_iff.mp hover

@[grind ←] theorem good_free [h : W.Free] (a : α) : W.Good a := by
  simp [Good, h.free]

omit [HoldsTypes α] in
@[grind ←] theorem good_none (a : α) : @Good α (HoldsTypes.none α) W a :=
  List.forall_mem_nil _

@[simp, grind =] theorem good_operand (o : Operand) : W.Good o ↔ W.Good o.ty :=
  Iff.rfl

@[simp, grind =] theorem good_place (p : Place) : W.Good p ↔ W.Good p.ty :=
  Iff.rfl

@[simp, grind =] theorem good_variable (v : Variable) : W.Good v ↔ W.Good v.ty :=
  Iff.rfl

@[simp, grind =] theorem good_parameter (p : Parameter) : W.Good p ↔ W.Good p.ty :=
  Iff.rfl

@[simp, grind =] theorem good_field (f : Field) : W.Good f ↔ W.Good f.ty :=
  Iff.rfl

@[simp, grind =] theorem good_fieldTemplate (f : FieldTemplate) : W.Good f ↔ W.Good f.ty :=
  Iff.rfl

@[simp, grind =] theorem good_pendingMethod (m : Structure.PendingMethod) :
    W.Good m ↔ W.Good m.header :=
  Iff.rfl

@[simp, grind =] theorem good_option (o : Option α) : W.Good o ↔ ∀ a ∈ o, W.Good a := by
  cases o <;> simp [Good, types]

@[simp, grind =] theorem good_list (l : List α) : W.Good l ↔ ∀ a ∈ l, W.Good a := by
  simp only [Good, types, List.mem_flatMap]
  grind

@[simp, grind =] theorem good_prod (p : α × β) : W.Good p ↔ W.Good p.1 ∧ W.Good p.2 := by
  simp only [Good, types, List.mem_append]
  grind

@[simp, grind =] theorem good_header (h : FunctionHeader) :
    W.Good h ↔ W.Good h.returns ∧ ∀ p ∈ h.parameters, W.Good p.ty := by
  simp [Good, types]

@[simp, grind =] theorem good_signature (s : Signature) :
    W.Good s ↔ W.Good s.returns ∧ ∀ p ∈ s.parameters, W.Good p.ty := by
  simp [Good, types]

@[simp, grind =] theorem good_listType (ty : Ty) : W.Good ty.list ↔ W.Good ty := by
  simp [Good, types, Ty.Over]

@[simp, grind =] theorem good_pointerType (ty : Ty) : W.Good ty.pointer ↔ W.Good ty := by
  simp [Good, types, Ty.Over]

@[simp, grind =] theorem good_referenceType (ty : Ty) : W.Good ty.reference ↔ W.Good ty := by
  simp [Good, types, Ty.Over]

@[simp, grind =] theorem good_spanType (ty : Ty) (n : UInt16) : W.Good (ty.span n) ↔ W.Good ty := by
  simp [Good, types, Ty.Over]

@[simp, grind ←] theorem good_structureType (id : Nat) : W.Good (Ty.structure_ id) :=
  good_of_ground fun _ => trivial

@[simp, grind ←] theorem good_void : W.Good Ty.void :=
  good_of_ground fun _ => trivial

@[simp, grind ←] theorem good_bool : W.Good Ty.bool :=
  good_of_ground fun _ => trivial

@[simp, grind ←] theorem good_int : W.Good Ty.int :=
  good_of_ground fun _ => trivial

@[simp, grind ←] theorem good_float : W.Good Ty.float :=
  good_of_ground fun _ => trivial

@[simp, grind ←] theorem good_string : W.Good Ty.string :=
  good_of_ground fun _ => trivial

theorem good_of_groundHeader {h : FunctionHeader} (hground : W.Typed → h.Ground) : W.Good h := by
  rw [good_header]
  exact ⟨good_of_ground fun hT => (hground hT).returns,
    fun p hp => good_of_ground fun hT => (hground hT).parameters p hp⟩

theorem Good.groundHeader [W.Closed] {h : FunctionHeader} (hgood : W.Good h) (hT : W.Typed) :
    h.Ground := by
  rw [good_header] at hgood
  exact ⟨fun p hp => (hgood.2 p hp).ground hT, hgood.1.ground hT⟩

/-! ### States on a walk -/

omit [HoldsTypes α] in
theorem yields_of_eq {p : α × Compiler} {r : Except CompileError (α × Compiler)} (h : r = .ok p) :
    W.Yields p r :=
  h ▸ .done

omit [HoldsTypes α] in
theorem Yields.eq_ok {p : α × Compiler} {r : Except CompileError (α × Compiler)}
    (h : W.Yields p r) (hcut : W.cut = none) (halone : ¬ W.alone) : r = .ok p := by
  cases h with
  | done => rfl
  | short he => exact absurd he (hcut ▸ Option.not_mem_none _)
  | alone h => exact absurd h halone

theorem allows {cause : CompileCause} (h : cause.isOrdinary = true) : W.Allows cause := by
  constructor <;> intro hcause <;> cases cause <;> simp_all

namespace At

variable {c₀ c c' : Compiler}

theorem alike (h : W.At c₀ c) (halike : c.Alike c') (hground : W.Typed → c.Ground → c'.Ground) :
    W.At c₀ c' :=
  ⟨W.frame h.frame halike, fun hT => hground hT (h.ground hT)⟩

theorem mapBuilder (h : W.At c₀ c) {f : Builder → Builder} (hf : ∀ b, (f b).returns = b.returns) :
    W.At c₀ (c.mapBuilder f) :=
  h.alike (.mapBuilder ⟨rfl, rfl, rfl, rfl, rfl, rfl⟩ f) fun _ hg => hg.mapBuilder hf

theorem moveTo [hW : W.Moves] (h : W.At c₀ c) (cursor : Nat) : W.At c₀ { c with cursor } :=
  ⟨hW.frame h.frame, fun hT => { h.ground hT with }⟩

end At

end Walk

/-! ### Computations side by side -/

/-- Where `x` succeeds, `x'` does the same on the second state, with the result changed by `m`, or
is cut short; the walk goes on from there, and the result is good.  Where `x` stops, the reason is
allowed. -/
def Tracks (W : Walk) (m : α → α) (x x' : CompileM α) : Prop :=
  ∀ c₀ c : Compiler, W.At c₀ c →
    match x c with
    | .ok (a, c') =>
      W.Yields (m a, c'.moved W.place) (x' (c.moved W.place)) ∧ W.At c₀ c' ∧ W.Good a
    | .error e => W.Allows e.cause

variable {m : α → α} {n : β → β} {t t' : Token}

namespace Tracks

theorem failFor {cause : CompileCause} (h : W.Allows cause) (token : Token) (x' : CompileM α) :
    Tracks W m (CompileM.fail token cause) x' :=
  fun _ _ _ => h

@[grind ←] theorem fail (token : Token) {cause : CompileCause} (h : cause.isOrdinary = true)
    (x' : CompileM α) : Tracks W m (CompileM.fail token cause) x' :=
  failFor (Walk.allows h) token x'

@[grind ←] theorem failExpected (token : Token) (expected : String) (x' : CompileM α) :
    Tracks W m (CompileM.failExpected token expected) x' :=
  fail _ rfl x'

@[grind ←] theorem failMismatch (token : Token) (expected found : String) (x' : CompileM α) :
    Tracks W m (CompileM.failMismatch token expected found) x' :=
  fail _ rfl x'

@[grind ←] theorem failFuel [hW : W.Moves] (x' : CompileM α) : Tracks W m CompileM.failFuel x' :=
  fun _ _ _ => ⟨fun _ => hW.fuel, fun h => Bool.noConfusion h⟩

theorem failLayout {e : LayoutError} (h : W.Typed → ∀ i, e ≠ .unresolvedPlaceholder i)
    (token : Token) (x' : CompileM α) : Tracks W m (CompileM.wordsOf.failLayout token e) x' := by
  cases e with
  | unresolvedPlaceholder i => exact failFor ⟨by simp, fun _ hT => h hT i rfl⟩ token x'
  | recursive name => exact fail _ rfl x'
  | tooLarge => exact fail _ rfl x'

@[grind ←] theorem failLiteral (token : Token) (x' : CompileM α) :
    Tracks W m (TypeExpr.failLiteral token) x' :=
  fail _ rfl x'

@[grind ←] theorem failRedeclared (token : Token) (x' : CompileM α) :
    Tracks W m (Function.failRedeclared token) x' :=
  fail _ rfl x'

@[grind ←] theorem failMember (ty : Ty) (token : Token) (x' : CompileM α) :
    Tracks W m (Access.failMember ty token) x' :=
  fun _ _ _ => Walk.allows rfl

@[grind ←] theorem failOperands (op : Token) (left right : Ty) (x' : CompileM α) :
    Tracks W m (Expression.failOperands op left right) x' :=
  fun _ _ _ => Walk.allows rfl

/-- A sequence goes along with another one if its first part does and, for every result, what comes
after it. -/
theorem bind_moved {x x' : CompileM α} {k k' : α → CompileM β} (hx : Tracks W m x x')
    (hk : ∀ a, W.Good a → Tracks W n (k a) (k' (m a))) :
    Tracks W n (x >>= k) (x' >>= k') := by
  intro c₀ c hc
  have hrun := hx c₀ c hc
  show match x c >>= fun p => k p.1 p.2 with | .ok (a, c') => _ | .error e => _
  cases hxc : x c with
  | error e =>
    rw [hxc] at hrun
    exact hrun
  | ok p =>
    rw [hxc] at hrun
    obtain ⟨hyields, hc₁, hgood⟩ := hrun
    have hrest := hk p.1 hgood c₀ p.2 hc₁
    show match k p.1 p.2 with | .ok (a, c') => _ | .error e => _
    cases hkp : k p.1 p.2 with
    | error e =>
      rw [hkp] at hrest
      exact hrest
    | ok q =>
      rw [hkp] at hrest
      refine ⟨?_, hrest.2⟩
      show W.Yields _ (x' (c.moved W.place) >>= fun p => k' p.1 p.2)
      generalize x' (c.moved W.place) = r at hyields ⊢
      cases hyields with
      | done => exact hrest.1
      | short he => exact .short he
      | alone h => exact .alone h _

@[grind ←] theorem bind {x x' : CompileM α} {k k' : α → CompileM β} (hx : Tracks W id x x')
    (hk : ∀ a, W.Good a → Tracks W n (k a) (k' a)) : Tracks W n (x >>= k) (x' >>= k') :=
  hx.bind_moved hk

/-- What comes before may be left out of account where its result carries no types. -/
theorem skip {x x' : CompileM α} {k k' : α → CompileM β} (hx : Tracks W id x x')
    (hk : ∀ a, Tracks W n (k a) (k' a)) : Tracks W n (x >>= k) (x' >>= k') :=
  hx.bind_moved fun a _ => hk a

@[grind ←] theorem bind_token {x x' : CompileM Token} {k k' : Token → CompileM β}
    (hx : Tracks W (Token.moved W.place) x x')
    (hk : ∀ t, Tracks W n (k t) (k' (t.moved W.place))) : Tracks W n (x >>= k) (x' >>= k') :=
  hx.bind_moved fun t _ => hk t

theorem pure_moved {a : α} (h : W.Good a) : Tracks W m (pure a) (pure (m a)) :=
  fun _ _ hc => ⟨.done, hc, h⟩

@[grind ←] theorem pure {a : α} (h : W.Good a) : Tracks W id (pure a) (pure a) :=
  pure_moved h

omit [HoldsTypes α] in
/-- A result that carries no types. -/
theorem done (a : α) : @Tracks α (.none α) W id (Pure.pure a) (Pure.pure a) :=
  @pure W α (.none α) a (Walk.good_none a)

theorem of_ask {h h' : Compiler → α} (hask : ∀ c, h' (c.moved W.place) = m (h c))
    (hgood : ∀ c₀ c, W.At c₀ c → W.Good (h c)) :
    Tracks W m (CompileM.ask h) (CompileM.ask h') :=
  fun c₀ c hc => ⟨Walk.yields_of_eq (congrArg (fun a => Except.ok (a, c.moved W.place)) (hask c)),
    hc, hgood c₀ c hc⟩

theorem ask {h h' : Compiler → α} (hask : ∀ c, h' (c.moved W.place) = h c)
    (hgood : ∀ c₀ c, W.At c₀ c → W.Good (h c)) :
    Tracks W id (CompileM.ask h) (CompileM.ask h') :=
  of_ask hask hgood

omit [HoldsTypes α] in
/-- Something is read off the state that carries no types. -/
@[grind ←] theorem look {h h' : Compiler → α} (hask : ∀ c, h' (c.moved W.place) = h c) :
    @Tracks α (.none α) W id (CompileM.ask h) (CompileM.ask h') :=
  @ask W α (.none α) h h' hask fun _ _ _ => Walk.good_none _

/-- A token is read off the state. -/
theorem look_token {h h' : Compiler → Token}
    (hask : ∀ c, h' (c.moved W.place) = (h c).moved W.place) :
    Tracks W (Token.moved W.place) (CompileM.ask h) (CompileM.ask h') :=
  of_ask hask fun _ _ _ => Walk.good_none _

theorem of_modifyGet {h h' : Compiler → α × Compiler}
    (hmodify : ∀ c, h' (c.moved W.place) = (m (h c).1, (h c).2.moved W.place))
    (hat : ∀ c₀ c, W.At c₀ c → W.At c₀ (h c).2 ∧ W.Good (h c).1) :
    Tracks W m (modifyGet h : CompileM α) (modifyGet h') :=
  fun c₀ c hc => ⟨Walk.yields_of_eq (congrArg Except.ok (hmodify c)), hat c₀ c hc⟩

theorem of_modify {h h' : Compiler → Compiler}
    (hmodify : ∀ c, h' (c.moved W.place) = (h c).moved W.place)
    (hat : ∀ c₀ c, W.At c₀ c → W.At c₀ (h c)) :
    Tracks W id (modify h : CompileM Unit) (modify h') :=
  of_modifyGet (fun c => congrArg (Prod.mk ()) (hmodify c)) fun c₀ c hc =>
    ⟨hat c₀ c hc, Walk.good_none _⟩

@[grind ←] theorem mapBuilder {h : Builder → Builder} (hreturns : ∀ b, (h b).returns = b.returns) :
    Tracks W id (modify (Compiler.mapBuilder h) : CompileM Unit) (modify (Compiler.mapBuilder h)) :=
  of_modify (fun c => c.mapBuilder_moved h) fun _ _ hc => hc.mapBuilder hreturns

omit [HoldsTypes α] in
theorem forM_moved {m : α → α} {k k' : α → CompileM Unit} {l : List α}
    (h : ∀ a ∈ l, Tracks W id (k a) (k' (m a))) :
    Tracks W id (l.forM k) ((l.map m).forM k') := by
  induction l with
  | nil => exact .done ()
  | cons a l ih =>
    obtain ⟨ha, hl⟩ := List.forall_mem_cons.mp h
    exact .skip ha fun _ => ih hl

omit [HoldsTypes α] in
@[grind ←] theorem forM {k k' : α → CompileM Unit} {l : List α}
    (h : ∀ a ∈ l, Tracks W id (k a) (k' a)) : Tracks W id (l.forM k) (l.forM k') := by
  have hl := forM_moved (m := id) h
  rwa [l.map_id] at hl

omit [HoldsTypes α] in
theorem mapM {k k' : α → CompileM β} {l : List α} (h : ∀ a ∈ l, Tracks W n (k a) (k' a)) :
    Tracks W (List.map n) (l.mapM k) (l.mapM k') := by
  induction l with
  | nil => exact .pure_moved (by simp)
  | cons a l ih =>
    obtain ⟨ha, hl⟩ := List.forall_mem_cons.mp h
    rw [List.mapM_cons, List.mapM_cons]
    refine .bind_moved ha fun b hb => .bind_moved (ih hl) fun bs hbs => ?_
    exact .pure_moved (m := List.map n) (by simpa using ⟨hb, by simpa using hbs⟩)

end Tracks

/-! ### Reading and emitting -/

namespace CompileM

@[grind ←] theorem tracks_current : Tracks W (Token.moved W.place) current current :=
  .look_token fun c => c.current_moved

@[grind ←] theorem tracks_cursor : Tracks W id cursor cursor :=
  .look fun _ => rfl

@[grind ←] theorem tracks_kind : Tracks W id kind kind :=
  .look fun c => c.kindAt_moved _

@[grind ←] theorem tracks_kindAhead (k : Nat) : Tracks W id (kindAhead k) (kindAhead k) :=
  .look fun c => c.kindAt_moved _

@[grind ←] theorem tracks_budget : Tracks W id budget budget :=
  .look fun c => by rw [c.size_tokens_moved]; rfl

@[grind ←] theorem tracks_typeName (ty : Ty) : Tracks W id (typeName ty) (typeName ty) :=
  .look fun c => c.types.nameOf_moved ty

@[grind ←] theorem tracks_here : Tracks W id here here :=
  .look fun _ => rfl

@[grind ←] theorem tracks_check (k : TokenKind) : Tracks W id (check k) (check k) := by
  unfold check
  grind

@[grind ←] theorem tracks_atStatementEnd : Tracks W id atStatementEnd atStatementEnd := by
  unfold atStatementEnd
  grind

section Taking

variable [hW : W.Moves]

@[grind ←] theorem tracks_advance : Tracks W (Token.moved W.place) advance advance := by
  intro c₀ c hc
  unfold advance
  rw [c.size_tokens_moved, c.cursor_moved, c.current_moved]
  by_cases hlt : c.cursor < c.tokens.size
  · rw [if_pos hlt, if_pos hlt]
    exact ⟨.done, hc.moveTo _, Walk.good_none _⟩
  · rw [if_neg hlt, if_neg hlt]
    exact ⟨.done, hc, Walk.good_none _⟩

@[grind ←] theorem tracks_moveTo (k : Nat) : Tracks W id (moveTo k) (moveTo k) :=
  .of_modify (fun _ => rfl) fun _ _ hc => hc.moveTo k

@[grind ←] theorem tracks_skipBlock (depth : Nat) :
    Tracks W id (skipBlock depth) (skipBlock depth) :=
  .of_modify (fun c => by
    simp only [Compiler.moved, Compiler.lineEndFrom_map, Compiler.blockEndFrom_map])
    fun _ _ hc => hc.moveTo _

@[grind ←] theorem tracks_matchKind (k : TokenKind) :
    Tracks W id (matchKind k) (matchKind k) := by
  unfold matchKind
  grind

@[grind ←] theorem tracks_consume (k : TokenKind) (expected : String) :
    Tracks W (Token.moved W.place) (consume k expected) (consume k expected) := by
  unfold consume
  grind

@[grind ←] theorem tracks_identifier (what : String) :
    Tracks W (Token.moved W.place) (identifier what) (identifier what) :=
  tracks_consume _ _

@[grind ←] theorem tracks_endStatement : Tracks W id endStatement endStatement := by
  unfold endStatement
  grind

end Taking

section Emitting

/-- A ground type has a size, or no size for another reason than a type parameter. -/
@[grind ←] theorem tracks_wordsOf [W.Closed] {ty : Ty} (h : W.Good ty) :
    Tracks W id (wordsOf ty t) (wordsOf ty t') := by
  intro c₀ c hc
  have hsize : ∀ i, W.Typed → c.types.wordLength ty ≠ .error (.unresolvedPlaceholder i) :=
    fun i hT => TypeTable.wordLength_ne_unresolved (h.ground hT)
  unfold wordsOf
  rw [ask_bind, ask_bind, Compiler.types_moved, TypeTable.wordLength_moved]
  cases hlength : c.types.wordLength ty with
  | ok n => exact Tracks.done n c₀ c hc
  | error e =>
    refine Tracks.failLayout (fun hT i he => ?_) t _ c₀ c hc
    exact hsize i hT (hlength.trans (congrArg Except.error he))

@[grind ←] theorem tracks_expectType (expected found : Ty) :
    Tracks W id (expectType t expected found) (expectType t' expected found) := by
  unfold expectType
  grind

@[grind ←] theorem tracks_byte (k : Nat) (what : String) :
    Tracks W id (byte k t what) (byte k t' what) := by
  unfold byte
  grind

@[grind ←] theorem tracks_short (k : Nat) (what : String) :
    Tracks W id (short k t what) (short k t' what) := by
  unfold short
  grind

/-- Variables of good types are declared. -/
@[grind ←] theorem tracks_declare [W.Closed] {ty : Ty} (hname : t'.lexeme = t.lexeme)
    (h : W.Good ty) : Tracks W id (declare t ty) (declare t' ty) := by
  refine .skip (tracks_wordsOf h) fun words c₀ c hc => ?_
  rw [ask_bind, ask_bind, Compiler.scopes_moved, Compiler.scope_moved, hname]
  cases hdeclare : c.scopes.declareVariable c.scope t.lexeme ty words with
  | error e => exact Walk.allows rfl
  | ok entry =>
    have hground (hT : W.Typed) (hg : c.Ground) :=
      ScopeTree.ground_declareVariable hg.scopes (h.ground hT) hdeclare
    refine ⟨.done, hc.alike ⟨rfl, rfl, rfl, rfl, rfl, rfl⟩ fun hT hg => ?_, ?_⟩
    · exact { hg with scopes := (hground hT hg).2 }
    · exact Walk.good_of_ground fun hT => (hground hT (hc.ground hT)).1

@[grind ←] theorem tracks_emit (i : Instruction) : Tracks W id (emit i) (emit i) :=
  .mapBuilder fun _ => rfl

@[grind ←] theorem tracks_emitOp (op : Opcode) : Tracks W id (emitOp op) (emitOp op) :=
  .mapBuilder fun _ => rfl

@[grind ←] theorem tracks_emitPop (words : Nat) :
    Tracks W id (emitPop words t) (emitPop words t') := by
  unfold emitPop
  grind

@[grind ←] theorem tracks_emitJump (op : Opcode) : Tracks W id (emitJump op) (emitJump op) := by
  unfold emitJump
  grind

@[grind ←] theorem tracks_displacement (at_ target : Nat) :
    Tracks W id (displacement at_ target t) (displacement at_ target t') := by
  unfold displacement
  grind

@[grind ←] theorem tracks_patchJump (at_ : Nat) :
    Tracks W id (patchJump at_ t) (patchJump at_ t') := by
  unfold patchJump
  grind

@[grind ←] theorem tracks_emitLoop (start : Nat) :
    Tracks W id (emitLoop start t) (emitLoop start t') := by
  unfold emitLoop
  grind

@[grind ←] theorem tracks_addConstant (w : Word) :
    Tracks W id (addConstant w t) (addConstant w t') := by
  unfold addConstant
  refine .bind (.ask (fun _ => rfl) fun _ _ _ => by simp [Walk.good_none]) fun found _ => ?_
  cases found with
  | some index => exact tracks_short _ _
  | none => grind -funext

@[grind ←] theorem tracks_addString (text : String) :
    Tracks W id (addString text t) (addString text t') := by
  unfold addString
  grind -funext

@[grind ←] theorem tracks_emitConstant (w : Word) :
    Tracks W id (emitConstant w t) (emitConstant w t') := by
  unfold emitConstant
  grind

@[grind ←] theorem tracks_emitInteger (value : Int) :
    Tracks W id (emitInteger value t) (emitInteger value t') := by
  unfold emitInteger
  grind

@[grind ←] theorem tracks_enterBlock : Tracks W id enterBlock enterBlock := by
  refine .of_modify (fun c => ?_) fun c₀ c hc => ?_
  · rw [c.scopes_moved, c.scope_moved]
    obtain ⟨scope, scopes⟩ := c.scopes.enter c.scope .block
    exact Compiler.mapBuilder_moved { c with scopes } _
  · have hopen : W.At c₀ { c with scopes := (c.scopes.enter c.scope .block).2 } :=
      hc.alike ⟨rfl, rfl, rfl, rfl, rfl, rfl⟩ fun _ hg =>
        { hg with scopes := ScopeTree.ground_enter hg.scopes _ _ }
    exact hopen.mapBuilder fun _ => rfl

@[grind ←] theorem tracks_exitBlock : Tracks W id exitBlock exitBlock := by
  refine .bind_token tracks_current fun _ => ?_
  refine .skip (.of_modifyGet (fun c => ?_) fun c₀ c hc => ⟨?_, Walk.good_none _⟩)
    fun _ => tracks_emitPop _
  · rw [c.scopes_moved, c.scope_moved]
    obtain ⟨words, scopes⟩ := c.scopes.exit
    exact congrArg (Prod.mk words) (Compiler.mapBuilder_moved { c with scopes } _)
  · have hclosed : W.At c₀ { c with scopes := c.scopes.exit.2 } :=
      hc.alike ⟨rfl, rfl, rfl, rfl, rfl, rfl⟩ fun _ hg =>
        { hg with scopes := ScopeTree.ground_exit hg.scopes }
    exact hclosed.mapBuilder (f := fun b => { b with scope := _ }) fun _ => rfl

variable [W.Closed] {operand : Operand}

@[grind ←] theorem tracks_load (h : W.Good operand.ty) :
    Tracks W id (load operand t) (load operand t') := by
  unfold load
  cases operand with
  | value ty => exact .pure h
  | place p =>
    refine .skip (tracks_wordsOf h) fun _ => .skip (tracks_byte _ _) fun _ => ?_
    refine .skip (tracks_short _ _) fun _ => ?_
    grind

@[grind ←] theorem tracks_store {p : Place} (h : W.Good p.ty) :
    Tracks W id (store p t) (store p t') := by
  unfold store
  grind

omit [W.Closed] in
@[grind ←] theorem tracks_addressOf (p : Place) :
    Tracks W id (addressOf p t) (addressOf p t') := by
  unfold addressOf
  grind

omit [W.Closed] in
@[grind ←] theorem tracks_placeOf (h : W.Good operand.ty) (what : String) :
    Tracks W id (placeOf operand t what) (placeOf operand t' what) := by
  unfold placeOf
  grind

@[grind ←] theorem tracks_discard (h : W.Good operand.ty) :
    Tracks W id (discard operand t) (discard operand t') := by
  unfold discard
  cases operand with
  | value ty => exact .skip (tracks_wordsOf h) fun _ => tracks_emitPop _
  | place p => grind

@[grind ←] theorem tracks_deref (h : W.Good operand.ty) :
    Tracks W id (deref operand t) (deref operand t') := by
  unfold deref
  split <;> grind

@[grind ←] theorem tracks_select {ty : Ty} (h : W.Good operand.ty) (hty : W.Good ty)
    (offset : Nat) : Tracks W id (select operand offset ty t) (select operand offset ty t') := by
  unfold select
  split
  · exact .pure hty
  · refine .skip (tracks_wordsOf h) fun _ => .skip (tracks_byte _ _) fun _ => ?_
    grind

@[grind ←] theorem tracks_variableOperand {v : Variable} (h : W.Good v.ty) :
    Tracks W id (variableOperand v t) (variableOperand v t') := by
  unfold variableOperand
  split <;> grind [Place.ofVariable]

end Emitting

end CompileM

/-! ### Types -/

/-- Instances of templates are made for ground arguments. -/
structure Productions.TrackInstances (W : Walk) (g g' : Productions) : Prop where
  instantiate : ∀ template {arguments : List Ty} (t t' : Token),
    (W.Typed → ∀ a ∈ arguments, a.Ground) →
      Tracks W id (g.instantiate template arguments t) (g'.instantiate template arguments t')

/-- Types are over the parameters of the walk, since those in effect stand for such types. -/
structure Productions.TrackTypes (W : Walk) (g g' : Productions) : Prop
    extends g.TrackInstances W g' where
  typeExpr : ∀ indirection, Tracks W id (g.typeExpr indirection) (g'.typeExpr indirection)
  bound : ∀ {c₀ c : Compiler}, W.At c₀ c → ∀ layer ∈ c.bindings.head?, ∀ e ∈ layer, W.Good e.2

attribute [grind ←] Productions.TrackInstances.instantiate Productions.TrackTypes.typeExpr

variable {g g' : Productions}

namespace TypeExpr

@[grind ←] theorem tracks_checkArgumentCount (template found : Nat) (t t' : Token) :
    Tracks W id (checkArgumentCount template found t) (checkArgumentCount template found t') := by
  unfold checkArgumentCount
  refine .bind_moved (m := Option.map (StructureTemplate.moved W.place))
    (.of_ask (fun c => c.types.template?_moved template) fun _ _ _ => by simp [Walk.good_none])
    fun found _ => ?_
  cases found with
  | none => exact .done ()
  | some d =>
    show Tracks W id (if d.placeholders.length ≠ _ then _ else _)
      (if d.placeholders.length ≠ _ then _ else _)
    grind

/-- Templates wait only for arguments that mention placeholders. -/
@[grind ←] theorem tracks_applyTemplate (hg : g.TrackInstances W g') (template : Nat)
    {args : List Ty} (hargs : W.Good args) (t t' : Token) :
    Tracks W id (applyTemplate g template args t) (applyTemplate g' template args t') := by
  rw [Walk.good_list] at hargs
  unfold applyTemplate
  split
  · rename_i hopen
    refine .skip (tracks_checkArgumentCount _ _ _ _) fun _ => .pure fun ty hty k hk => ?_
    obtain rfl := List.mem_singleton.mp hty
    exact Ty.over_generic.mpr ⟨hopen, fun a ha => hargs a ha a (List.mem_singleton_self a) k hk⟩
  · rename_i hclosed
    refine .skip (hg.instantiate template t t' fun hT a ha => ?_) fun id => .pure (by simp)
    obtain ⟨k, hk⟩ := Option.isSome_iff_exists.mp hT
    exact (hargs a ha a (List.mem_singleton_self a) k hk).ground (by grind)

mutual

/-- What mentions no placeholder resolves to a ground type. -/
theorem tracks_resolve [W.Closed] (hg : g.TrackInstances W g') (t t' : Token) : ∀ {ty : Ty},
    (W.Typed → ty.containsPlaceholder = false) →
      Tracks W id (resolve g t ty) (resolve g' t' ty)
  | .generic template args, h => by
    rw [resolve, resolve]
    refine .bind (tracks_resolveAll hg t t' h) fun args hargs => ?_
    refine .skip (hg.instantiate template t t' fun hT a ha => ?_) fun id => .pure (by simp)
    exact (Walk.good_list args |>.mp hargs a ha).ground hT
  | .span element _, h | .list element, h | .pointer element, h | .reference element, h => by
    rw [resolve, resolve]
    have helement : W.Typed → element.containsPlaceholder = false := h
    refine .bind (tracks_resolve hg t t' helement) fun _ hresolved => .pure ?_
    simpa using hresolved
  | .placeholder _, h => by
    rw [resolve, resolve]
    refine .failFor ⟨by simp, fun _ hT => ?_⟩ t _
    exact absurd (h hT) (by simp [Ty.containsPlaceholder, Ty.firstPlaceholder?])
  | .void, _ | .bool, _ | .int, _ | .float, _ | .string, _ | .structure_ _, _ => by
    rw [resolve, resolve]
    exact .pure (by simp)

theorem tracks_resolveAll [W.Closed] (hg : g.TrackInstances W g') (t t' : Token) :
    ∀ {tys : List Ty}, (W.Typed → (Ty.firstPlaceholderIn? tys).isSome = false) →
      Tracks W id (resolveAll g t tys) (resolveAll g' t' tys)
  | [], _ => by
    rw [resolveAll, resolveAll]
    exact .pure (by simp)
  | ty :: tys, h => by
    have hboth (hT : W.Typed) : ty.containsPlaceholder = false ∧
        (Ty.firstPlaceholderIn? tys).isSome = false := by
      have hnone := h hT
      rwa [Ty.firstPlaceholderIn?, Option.isSome_or, Bool.or_eq_false_iff] at hnone
    rw [resolveAll, resolveAll]
    refine .bind (tracks_resolve hg t t' fun hT => (hboth hT).1) fun ty hty => ?_
    refine .bind (tracks_resolveAll hg t t' fun hT => (hboth hT).2) fun tys htys => .pure ?_
    grind

end

variable [W.Moves]

theorem tracks_suffixes (indirection : Bool) (k : Nat) {ty : Ty} (hty : W.Good ty) :
    Tracks W id (suffixes indirection k ty) (suffixes indirection k ty) := by
  induction k generalizing ty with
  | zero => exact .failFuel _
  | succ k ih =>
    unfold suffixes
    refine .skip CompileM.tracks_kind fun kind => ?_
    split
    · refine .skip (CompileM.tracks_kindAhead _) fun _ => ?_
      refine .skip (CompileM.tracks_kindAhead _) fun _ => ?_
      split
      · refine .bind_token CompileM.tracks_advance fun _ => ?_
        refine .bind_token CompileM.tracks_advance fun length => ?_
        refine .bind_token CompileM.tracks_advance fun _ => ?_
        rw [Token.lexeme_moved]
        split
        · exact .failLiteral _ _
        · exact ih (by simpa using hty)
      · exact .pure hty
    all_goals grind

theorem tracks_arguments (hg : g.TrackTypes W g') (k : Nat) {done : List Ty}
    (hdone : W.Good done) : Tracks W id (arguments g k done) (arguments g' k done) := by
  induction k generalizing done with
  | zero => exact .failFuel _
  | succ k ih =>
    unfold arguments
    grind

theorem tracks_named (hg : g.TrackTypes W g') (hname : t'.lexeme = t.lexeme) :
    Tracks W id (named g t) (named g' t') := by
  unfold named
  rw [hname]
  refine .bind (.ask (fun _ => rfl) fun c₀ c hc => ?_) fun bound hbound => ?_
  · refine (Walk.good_option _).mpr fun ty hty => ?_
    obtain ⟨layer, hlayer, hlookup⟩ := Option.bind_eq_some_iff.mp hty
    exact hg.bound hc layer hlayer _ (TypeTable.mem_of_lookup_eq_some hlookup)
  split
  · exact .pure ((Walk.good_option _).mp hbound _ rfl)
  split
  · exact .pure (Walk.good_of_ground fun _ => Ty.ground_primitive ‹_›)
  refine .bind (.ask (fun _ => rfl) fun _ _ _ => by simp [Walk.good_none]) fun found _ => ?_
  split
  · exact .pure (by simp)
  · refine .bind_token (CompileM.tracks_consume _ _) fun _ => ?_
    refine .skip CompileM.tracks_budget fun n => ?_
    refine .bind (tracks_arguments hg n (by simp)) fun args hargs => ?_
    exact .bind_token (CompileM.tracks_consume _ _) fun _ =>
      tracks_applyTemplate hg.toTrackInstances _ hargs _ _
  · exact .fail _ rfl _

/-- A type that has been read is over the parameters of the walk. -/
@[grind ←] theorem tracks_read (hg : g.TrackTypes W g') (indirection : Bool) :
    Tracks W id (read g indirection) (read g' indirection) := by
  unfold read
  refine .bind_token (CompileM.tracks_identifier _) fun token => ?_
  refine .bind (tracks_named hg rfl) fun ty hty => ?_
  exact .skip CompileM.tracks_budget fun n => tracks_suffixes indirection n hty

end TypeExpr

end WordScript
