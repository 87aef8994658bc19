/-
Instances against their templates.

An instance of a template is complete, and it has the members that the template
declares, whatever part of a program mentioned it first.  There is one gap.  A
template is in the table while its own fields are being read, with no members yet.
If a field mentions an instance, so that one is made there and then, and the
template itself is instantiated on the way, then that instance takes over no
members, and later mentions find it as it is.

* `Turns` — what a computation makes of the table of types;
* `TypeTable.Accounts` — instances that were made are accounted for by types that
  mention one;
* `Productions.Instantiates` — what the productions do to the table;
* `Structure.members_spec`, `Structure.later_template` — reading a template;
* `Structure.making_methods`, `Structure.makeInstance_spec` — making an instance;
* `productions_instantiate` — the productions of every amount of fuel;
* `Compiler.later_of_addSources` — the table after any modules.

Design notes: the compiler is followed in two ways.  Across parts that read types
only the table counts, and `Turns` leaves the rest of the state out; where methods
are read, the tokens and the type parameters in effect count as well, and the
lemmas speak of whole states.
-/
import WordScript.Build
import WordScript.Proofs.CompilerFrames
import WordScript.Proofs.StructureWalks
import WordScript.Proofs.TemplateInstances

namespace WordScript

namespace Compiler

/-- A later state that reads the same tokens, with the same type parameters in effect. -/
structure Later (c c' : Compiler) : Prop where
  types : c.types.Later c'.types
  tokens : c'.tokens = c.tokens
  bindings : c'.bindings = c.bindings

/-- A state with the same table of types that reads the same tokens. -/
structure Still (c c' : Compiler) : Prop where
  types : c'.types = c.types
  tokens : c'.tokens = c.tokens
  bindings : c'.bindings = c.bindings

instance : Framing Later where
  same htypes htokens hbindings := ⟨htypes ▸ .refl _, htokens, hbindings⟩
  trans h₁ h₂ :=
    ⟨h₁.types.trans h₂.types, h₂.tokens.trans h₁.tokens, h₂.bindings.trans h₁.bindings⟩

instance : Framing Still where
  same := .mk
  trans h₁ h₂ :=
    ⟨h₂.types.trans h₁.types, h₂.tokens.trans h₁.tokens, h₂.bindings.trans h₁.bindings⟩

theorem Still.later {c c' : Compiler} (h : c.Still c') : c.Later c' :=
  Framing.same h.types h.tokens h.bindings

end Compiler

/-- If the computation succeeds from the table `t`, its result and the table that it leaves are as
described. -/
def Turns {α : Type} (t : TypeTable) (x : CompileM α) (Q : α → TypeTable → Prop) : Prop :=
  ∀ (c : Compiler) (a : α) (c' : Compiler), c.types = t → x c = .ok (a, c') → Q a c'.types

namespace Turns

variable {α β : Type} {t : TypeTable} {Q : α → TypeTable → Prop} {Q' : β → TypeTable → Prop}

theorem pure {a : α} (h : Q a t) : Turns t (pure a) Q := by
  intro c a' c' ht hx
  cases hx
  rw [ht]
  exact h

theorem of_fails {x : CompileM α} (h : Fails x) : Turns t x Q :=
  fun _ _ _ _ hx => absurd hx (h _ _ _)

theorem any {x : CompileM α} : Turns t x fun _ _ => True :=
  fun _ _ _ _ _ => trivial

theorem bind {x : CompileM α} {k : α → CompileM β} (hx : Turns t x Q)
    (hk : ∀ a t', Q a t' → Turns t' (k a) Q') : Turns t (x >>= k) Q' := by
  intro c b c' ht h
  obtain ⟨a, c₁, hxa, hka⟩ := CompileM.bind_eq_ok h
  exact hk a c₁.types (hx c a c₁ ht hxa) c₁ b c' rfl hka

/-- What leaves the table alone is passed over. -/
theorem skip {x : CompileM α} {k : α → CompileM β} (hx : Respects Compiler.Still x)
    (hk : ∀ a, Turns t (k a) Q') : Turns t (x >>= k) Q' := by
  intro c b c' ht h
  obtain ⟨a, c₁, hxa, hka⟩ := CompileM.bind_eq_ok h
  exact hk a c₁ b c' ((hx c a c₁ hxa).types.trans ht) hka

theorem mono {x : CompileM α} {Q₁ Q₂ : α → TypeTable → Prop} (hx : Turns t x Q₁)
    (h : ∀ a t', Q₁ a t' → Q₂ a t') : Turns t x Q₂ :=
  fun c a c' ht hxa => h a c'.types (hx c a c' ht hxa)

/-- A computation that leads to later states, whose result is known as well. -/
theorem and_later {x : CompileM α} (hx : Turns t x Q) (hlater : Respects Compiler.Later x) :
    Turns t x fun a t' => t.Later t' ∧ Q a t' := by
  intro c a c' ht hxa
  exact ⟨ht ▸ (hlater c a c' hxa).types, hx c a c' ht hxa⟩

end Turns

namespace TypeTable

variable {t t' t₁ t₂ t₃ : TypeTable}

/-- The table is a later one, and a type mentions an instance if any was made meanwhile. -/
def Accounts (t t' : TypeTable) (tys : List Ty) : Prop :=
  t.Later t' ∧ (t'.instances = t.instances ∨ ∃ ty ∈ tys, t'.Mentions ty)

namespace Accounts

theorem refl (t : TypeTable) (tys : List Ty) : t.Accounts t tys :=
  ⟨.refl t, .inl rfl⟩

theorem trans {tys tys' : List Ty} (h₁ : t₁.Accounts t₂ tys) (h₂ : t₂.Accounts t₃ tys')
    (hsub : tys ⊆ tys') : t₁.Accounts t₃ tys' := by
  obtain ⟨hlater₁, h₁⟩ := h₁
  obtain ⟨hlater₂, h₂⟩ := h₂
  refine ⟨hlater₁.trans hlater₂, ?_⟩
  obtain hsame₂ | hmentions := h₂
  · obtain hsame₁ | ⟨ty, hty, hmentions⟩ := h₁
    · exact .inl (hsame₂.trans hsame₁)
    · exact .inr ⟨ty, hsub hty, hlater₂.mentions hmentions⟩
  · exact .inr hmentions

theorem mono {tys tys' : List Ty} (h : t.Accounts t' tys) (hsub : tys ⊆ tys') :
    t.Accounts t' tys' :=
  h.trans (.refl t' tys') hsub

end Accounts

/-- A template with arguments mentions what the arguments mention. -/
theorem mentions_generic {template : Nat} {arguments : List Ty} :
    t.Mentions (.generic template arguments) ↔ ∃ ty ∈ arguments, t.Mentions ty := by
  constructor
  · rintro ⟨id, hid, hinstance⟩
    obtain ⟨ty, hty, hid⟩ := Ty.mem_structuresIn.mp hid
    exact ⟨ty, hty, id, hid, hinstance⟩
  · rintro ⟨ty, hty, id, hid, hinstance⟩
    exact ⟨id, Ty.mem_structuresIn.mpr ⟨ty, hty, hid⟩, hinstance⟩

end TypeTable

/-- What the productions do to the table of types.  They are those of some amount of fuel, because
methods are described by what the compiler itself reads. -/
structure Productions.Instantiates (g : Productions) : Prop where
  fuel : ∃ n, g = productions n
  later : g.Respect Compiler.Later
  typeExpr : ∀ (indirection : Bool) (t : TypeTable),
    Turns t (g.typeExpr indirection) fun ty t' => t.Accounts t' [ty]
  instantiate : ∀ (template : Nat) (arguments : List Ty) (token : Token) (t : TypeTable),
    Turns t (g.instantiate template arguments token) fun id t' =>
      t'.instance? template arguments = some id

variable {g : Productions} {c c' : Compiler}

/-! ### Types -/

namespace TypeExpr

/-- Suffixes mention no structure. -/
theorem turns_suffixes (indirection : Bool) (n : Nat) (ty : Ty) (t : TypeTable) :
    Turns t (suffixes indirection n ty) fun ty' t' => t' = t ∧ ty'.structures = ty.structures := by
  induction n generalizing ty with
  | zero => exact .of_fails .failFuel
  | succ n ih =>
    unfold suffixes
    refine .skip CompileM.tracks_kind.respects fun kind => ?_
    split
    · refine .skip (CompileM.tracks_kindAhead 1).respects fun _ => ?_
      refine .skip (CompileM.tracks_kindAhead 2).respects fun _ => ?_
      split
      · refine .skip CompileM.tracks_advance.respects fun _ => ?_
        refine .skip CompileM.tracks_advance.respects fun length => ?_
        refine .skip CompileM.tracks_advance.respects fun _ => ?_
        split
        · exact .of_fails (.failLiteral _)
        · exact ih _
      · exact .pure ⟨rfl, rfl⟩
    · refine .skip (CompileM.tracks_kindAhead 1).respects fun _ => ?_
      split
      · refine .skip CompileM.tracks_advance.respects fun _ => ?_
        exact .skip CompileM.tracks_advance.respects fun _ => ih _
      · exact .pure ⟨rfl, rfl⟩
    · split
      · exact .skip CompileM.tracks_advance.respects fun _ => ih _
      · exact .pure ⟨rfl, rfl⟩
    · split
      · exact .skip CompileM.tracks_advance.respects fun _ => ih _
      · exact .pure ⟨rfl, rfl⟩
    · exact .pure ⟨rfl, rfl⟩

theorem turns_arguments (hg : g.Instantiates) (n : Nat) (done : List Ty) (t : TypeTable) :
    Turns t (arguments g n done) fun args t' => done ⊆ args ∧ t.Accounts t' args := by
  induction n generalizing done t with
  | zero => exact .of_fails .failFuel
  | succ n ih =>
    unfold arguments
    refine .bind (hg.typeExpr true t) fun ty t₁ hty => ?_
    refine .skip (CompileM.tracks_matchKind _).respects fun more => ?_
    split
    · refine (ih (ty :: done) t₁).mono ?_
      rintro args t' ⟨hsub, hargs⟩
      exact ⟨fun _ h => hsub (List.mem_cons_of_mem _ h), hty.trans hargs (by simp_all)⟩
    · exact .pure ⟨by simp, hty.mono (by simp)⟩

theorem turns_applyTemplate (hg : g.Instantiates) (template : Nat) (args : List Ty) (token : Token)
    {t₀ t : TypeTable} (hargs : t₀.Accounts t args) :
    Turns t (applyTemplate g template args token) fun ty t' => t₀.Accounts t' [ty] := by
  unfold applyTemplate
  split
  · refine .skip (tracks_checkArgumentCount _ _ _ _).respects fun _ => .pure ⟨hargs.1, ?_⟩
    refine hargs.2.imp_right fun hmentions => ?_
    exact ⟨_, List.mem_singleton_self _, TypeTable.mentions_generic.mpr hmentions⟩
  · have hinstantiate := (hg.instantiate template args token t).and_later
      (hg.later.instantiate template args token)
    refine .bind hinstantiate fun id t' hid => .pure ⟨hargs.1.trans hid.1, .inr ?_⟩
    exact ⟨_, List.mem_singleton_self _, id, List.mem_singleton_self _, template, args, hid.2⟩

theorem turns_named (hg : g.Instantiates) (token : Token) (t : TypeTable) :
    Turns t (named g token) fun ty t' => t.Accounts t' [ty] := by
  unfold named
  refine .skip (.ask _) fun bound => ?_
  split
  · exact .pure (.refl t _)
  split
  · exact .pure (.refl t _)
  refine .skip (.ask _) fun found => ?_
  split
  · exact .pure (.refl t _)
  · refine .skip (CompileM.tracks_consume _ _).respects fun _ => ?_
    refine .skip CompileM.tracks_budget.respects fun n => ?_
    refine .bind (turns_arguments hg n [] t) fun args t₁ hargs => ?_
    refine .skip (CompileM.tracks_consume _ _).respects fun _ => ?_
    exact turns_applyTemplate hg _ args token hargs.2
  · exact .of_fails (.fail _ _)

/-- A type that has been read accounts for the instances that were made on the way. -/
theorem turns_read (hg : g.Instantiates) (indirection : Bool) (t : TypeTable) :
    Turns t (read g indirection) fun ty t' => t.Accounts t' [ty] := by
  unfold read
  refine .skip (CompileM.tracks_identifier _).respects fun token => ?_
  refine .bind (turns_named hg token t) fun ty t₁ hty => ?_
  refine .skip CompileM.tracks_budget.respects fun n => ?_
  refine (turns_suffixes indirection n ty t₁).mono ?_
  rintro ty' t' ⟨rfl, hstructures⟩
  refine ⟨hty.1, hty.2.imp_right ?_⟩
  rintro ⟨_, hmem, id, hid, hinstance⟩
  obtain rfl := List.mem_singleton.mp hmem
  exact ⟨ty', List.mem_singleton_self _, id, hstructures ▸ hid, hinstance⟩

theorem respects_resolveAll (hg : g.Instantiates) (token : Token) (tys : List Ty) :
    Respects Compiler.Later (resolveAll g token tys) :=
  (tracks_resolveAll hg.later.track.toTrackInstances token token fun hT =>
    absurd hT Walk.not_typed).respects

mutual

/-- A type is resolved by the instances that are in the table then. -/
theorem turns_resolve (hg : g.Instantiates) (token : Token) : ∀ (ty : Ty) (t : TypeTable),
    Turns t (resolve g token ty) fun ty' t' => t'.resolved? ty = some ty'
  | .generic template args, t => by
    rw [resolve]
    refine .bind (turns_resolveAll hg token args t) fun args' t₁ hargs => ?_
    refine .bind ((hg.instantiate template args' token t₁).and_later
      (hg.later.instantiate template args' token)) ?_
    rintro id t₂ ⟨hlater, hid⟩
    refine .pure ?_
    rw [TypeTable.resolved?, hlater.resolvedAll? args hargs, Option.bind_some, hid, Option.map_some]
  | .span element _, t | .list element, t | .pointer element, t | .reference element, t => by
    rw [resolve]
    refine .bind (turns_resolve hg token element t) fun element' t' helement => .pure ?_
    rw [TypeTable.resolved?, helement, Option.map_some]
  | .placeholder _, t => by
    rw [resolve]
    exact .of_fails (.fail _ _)
  | .void, t | .bool, t | .int, t | .float, t | .string, t | .structure_ _, t => by
    rw [resolve]
    refine .pure ?_
    rw [TypeTable.resolved?]

theorem turns_resolveAll (hg : g.Instantiates) (token : Token) : ∀ (tys : List Ty) (t : TypeTable),
    Turns t (resolveAll g token tys) fun tys' t' => t'.resolvedAll? tys = some tys'
  | [], t => by
    rw [resolveAll]
    refine .pure ?_
    rw [TypeTable.resolvedAll?]
  | ty :: tys, t => by
    rw [resolveAll]
    refine .bind (turns_resolve hg token ty t) fun ty' t₁ hty => ?_
    refine .bind ((turns_resolveAll hg token tys t₁).and_later
      (respects_resolveAll hg token tys)) ?_
    rintro tys' t₂ ⟨hlater, htys⟩
    refine .pure ?_
    rw [TypeTable.resolvedAll?, hlater.resolved? ty hty, Option.bind_some, htys, Option.map_some]

end

end TypeExpr

/-! ### Reading members -/

namespace Structure

theorem turns_field (hg : g.Instantiates) (done : List FieldTemplate) (t : TypeTable) :
    Turns t (field g done) fun f t' => t.Accounts t' [f.ty] := by
  unfold field
  refine .skip CompileM.tracks_advance.respects fun _ => ?_
  refine .skip CompileM.tracks_current.respects fun token => ?_
  refine .bind (TypeExpr.turns_read hg true t) fun ty t₁ hty => ?_
  extract_lets finish
  have hfinish : ∀ u, Turns t₁ (finish u) fun f t' => t.Accounts t' [f.ty] := by
    intro u
    refine .skip (CompileM.tracks_identifier _).respects fun name => ?_
    extract_lets close
    have hclose : ∀ u, Turns t₁ (close u) fun f t' => t.Accounts t' [f.ty] :=
      fun _ => .skip CompileM.tracks_endStatement.respects fun _ => .pure hty
    split
    · exact .of_fails (.bind_left (.failRedeclared _) _)
    · exact hclose ()
  split
  · exact .of_fails (.bind fun _ => .bind_left (.failMismatch _ _ _) _)
  · exact .of_fails (.bind fun _ => .bind_left (.failMismatch _ _ _) _)
  · exact hfinish ()

theorem turns_memberLines (hg : g.Instantiates) (depth n : Nat) (fields : List FieldTemplate)
    (methods : List Nat) (t : TypeTable) :
    Turns t (memberLines g depth n fields methods) fun r t' =>
      fields ⊆ r.1 ∧ t.Accounts t' (r.1.map FieldTemplate.ty) := by
  induction n generalizing fields methods t with
  | zero => exact .of_fails .failFuel
  | succ n ih =>
    unfold memberLines
    refine .skip (.ask _) fun level => .skip (.ask _) fun done => ?_
    split
    · exact .pure ⟨by simp, .refl t _⟩
    split
    · exact .of_fails (.bind fun _ => .fail _ _)
    refine .skip CompileM.tracks_cursor.respects fun at_ => ?_
    refine .skip (CompileM.tracks_moveTo _).respects fun _ => ?_
    refine .skip CompileM.tracks_kind.respects fun kind => ?_
    split
    · refine .bind (turns_field hg fields t) fun f t₁ hf => (ih (f :: fields) methods t₁).mono ?_
      rintro r t' ⟨hsub, hr⟩
      have hmem : f ∈ r.1 := hsub List.mem_cons_self
      refine ⟨fun _ h => hsub (List.mem_cons_of_mem _ h), hf.trans hr ?_⟩
      simpa using ⟨f, hmem, rfl⟩
    · exact .skip (CompileM.tracks_skipBlock _).respects fun _ => ih fields _ t
    · exact .of_fails (.bind fun _ => .failExpected _ _)

/-- The fields of a structure account for the instances that were made while they were read. -/
theorem members_spec (hg : g.Instantiates) {depth : Nat} {bindings : Bindings}
    {r : List FieldTemplate × List Nat} (h : members g depth bindings c = .ok (r, c')) :
    c.Later c' ∧ c.types.Accounts c'.types (r.1.map FieldTemplate.ty) := by
  unfold members at h
  obtain ⟨_, c₁, hpush, h⟩ := CompileM.bind_eq_ok h
  obtain ⟨_, c₂, hline, h⟩ := CompileM.bind_eq_ok h
  obtain ⟨n, c₃, hbudget, h⟩ := CompileM.bind_eq_ok h
  obtain ⟨found, c₄, hlines, h⟩ := CompileM.bind_eq_ok h
  obtain ⟨_, c₅, hpop, h⟩ := CompileM.bind_eq_ok h
  cases hpush
  cases hpop
  cases h
  have hbefore : Compiler.Still { c with bindings := bindings :: c.bindings } c₃ :=
    Framing.trans ((Block.tracks_requireLine _).respects _ _ _ hline)
      (CompileM.tracks_budget.respects _ _ _ hbudget)
  -- The type parameters are in effect while the members are read, and taken back after them.
  have hread := tracks_memberLines hg.later.track.toTrackTypes depth n (Walk.good_free []) []
  have hlater := Framing.trans hbefore.later (hread.respects_left _ _ _ hlines)
  refine ⟨⟨hlater.types, hlater.tokens, congrArg List.tail hlater.bindings⟩, ?_⟩
  exact (turns_memberLines hg depth n [] [] c.types _ _ _ hbefore.types hlines).2

/-! ### Making an instance -/

theorem respects_instanceFields {R : Compiler → Compiler → Prop} [Framing R] (hg : g.Respect R)
    (d : StructureTemplate) (arguments : List Ty) (fields : List FieldTemplate) :
    Respects R (instanceFields g d arguments fields) :=
  (tracks_instanceFields hg.track.toTrackInstances d d fun hT =>
    absurd hT Walk.not_typed).respects_left

theorem turns_instanceFields (hg : g.Instantiates) (d : StructureTemplate) (arguments : List Ty)
    (fields : List FieldTemplate) (t : TypeTable) :
    Turns t (instanceFields g d arguments fields) fun laid t' =>
      List.Forall₂ (fun (f : FieldTemplate) (p : String × Ty) => p.1 = f.name ∧
        t'.resolved? (f.ty.substitute arguments) = some p.2) fields laid := by
  induction fields generalizing t with
  | nil => exact .pure .nil
  | cons f fields ih =>
    unfold instanceFields
    dsimp only
    split
    · exact .of_fails (.bind_left (.fail _ _) _)
    refine .bind (TypeExpr.turns_resolve hg f.token _ t) fun ty t₁ hty => ?_
    refine .bind ((ih t₁).and_later (respects_instanceFields hg.later d arguments fields)) ?_
    rintro laid t' ⟨hlater, hlaid⟩
    exact .pure (.cons ⟨rfl, hlater.resolved? _ hty⟩ hlaid)

theorem layout_spec {id : Nat} {fields : List (String × Ty)} {token : Token}
    (h : layout id fields token c = .ok ((), c')) : ∃ laid words,
      laid.map (fun f => (f.name, f.ty)) = fields ∧
      c' = { c with types := c.types.modifyStructure id fun s =>
        { s with fields := laid, wordLength := words, complete := true } } := by
  unfold layout at h
  rw [CompileM.ask_bind] at h
  cases hset : c.types.setFields id fields with
  | error e =>
    rw [hset] at h
    exact absurd h (Fails.failLayout token e _ _ _)
  | ok t =>
    rw [hset] at h
    cases h
    obtain ⟨laid, words, hlaid, rfl⟩ := TypeTable.setFields_eq_ok hset
    exact ⟨laid, words, TypeTable.map_layoutFields hlaid, rfl⟩

end Structure

namespace CompileM

/-- A token that has been consumed stood at the cursor. -/
theorem consume_eq_ok {k : TokenKind} {expected : String} {token : Token} (hk : k ≠ .endOfFile)
    (h : consume k expected c = .ok (token, c')) :
    c.tokens[c.cursor]? = some token ∧ c' = { c with cursor := c.cursor + 1 } := by
  unfold consume at h
  obtain ⟨matched, c₁, hcheck, h⟩ := bind_eq_ok h
  obtain ⟨rfl, rfl⟩ : (c.kindAt c.cursor == k) = matched ∧ c = c₁ :=
    Prod.mk.inj (Except.ok.inj hcheck)
  split at h
  · rename_i hkind
    have hkind : c.kindAt c.cursor = k := eq_of_beq hkind
    cases hget : c.tokens[c.cursor]? with
    | none =>
      rw [Compiler.kindAt, hget] at hkind
      exact absurd hkind.symm hk
    | some found =>
      obtain ⟨hlt, -⟩ := Array.getElem?_eq_some_iff.mp hget
      rw [advance, if_pos hlt, Compiler.current, Array.getD_eq_getD_getElem?, hget] at h
      cases h
      exact ⟨rfl, rfl⟩
  · exact absurd h ((Fails.bind fun _ => .failExpected _ _) _ _ _)

end CompileM

/-- The name of a function is the second token of its signature. -/
theorem Function.signature_name {s : Signature} (h : signature g c = .ok (s, c')) :
    c.tokens[c.cursor + 1]? = some s.name := by
  unfold signature at h
  obtain ⟨keyword, c₁, hkeyword, hsignature⟩ := CompileM.bind_eq_ok h
  obtain ⟨-, rfl⟩ := CompileM.consume_eq_ok (by decide) hkeyword
  obtain ⟨name, c₂, hname, hparameters⟩ := CompileM.bind_eq_ok hsignature
  obtain ⟨hname, -⟩ := CompileM.consume_eq_ok (by decide) hname
  -- The rest of the signature, whatever it does, returns the name.
  have hrest {x : CompileM Signature} (hx : Turns c₂.types x fun s _ => s.name = name)
      (h : x c₂ = .ok (s, c')) : s.name = name :=
    hx _ _ _ rfl h
  rw [hrest ?_ hparameters]
  · exact hname
  refine .bind .any fun _ _ _ => .bind .any fun closed _ _ => ?_
  extract_lets finish
  have hfinish (ps : List Parameter) (t : TypeTable) :
      Turns t (finish ps) fun s _ => s.name = name :=
    .bind .any fun _ _ _ => .bind .any fun _ _ _ => .pure rfl
  split
  · exact .bind .any fun ps t _ => hfinish ps t
  · exact .bind .any fun n _ _ => .bind .any fun ps t _ => hfinish ps t

/-! ### Methods -/

namespace Structure

variable {t₀ : TypeTable} {own : List ((Nat × List Ty) × Nat)} {s : StructureType}
  {d : StructureTemplate} {arguments : List Ty} {id : Nat}

/-- The head of a method: its signature is read where it stands, and its header is entered. -/
theorem methodHead_spec {at_ : Nat} {m : PendingMethod}
    (h : methodHead g id at_ c = .ok (m, c')) : ∃ s c₁ chunk,
      Function.signature g { c with cursor := at_ } = .ok (s, c₁) ∧
      c'.types = c₁.types.modifyStructure id (fun t =>
        { t with methods := t.methods ++ [s.header (.script chunk) (some id)] }) ∧
      c'.tokens = c₁.tokens ∧ c'.bindings = c₁.bindings := by
  unfold methodHead at h
  obtain ⟨_, c₁, hmove, h⟩ := CompileM.bind_eq_ok h
  cases hmove
  obtain ⟨s, c₂, hsignature, h⟩ := CompileM.bind_eq_ok h
  rw [CompileM.ask_bind] at h
  split at h
  · exact absurd h ((Fails.bind_left (.failRedeclared _) _) _ _ _)
  obtain ⟨chunk, c₃, hchunk, h⟩ := CompileM.bind_eq_ok h
  obtain ⟨_, c₄, hmodify, h⟩ := CompileM.bind_eq_ok h
  cases hmodify
  cases h
  have hstill : c₂.Still c₃ := 
    (Function.tracks_reserveChunk _ _ _).respects _ _ _ hchunk
  refine ⟨s, c₂, chunk, hsignature, ?_, hstill.tokens, hstill.bindings⟩
  show c₃.types.modifyStructure id _ = _
  rw [hstill.types]

/-- The compiler among the methods of a structure that is being made: it reads the tokens of the
declaration, with the arguments for the type parameters. -/
structure AtMethods (t₀ : TypeTable) (own : List ((Nat × List Ty) × Nat)) (s : StructureType)
    (d : StructureTemplate) (arguments : List Ty) (c : Compiler) : Prop where
  making : t₀.Making own s c.types
  tokens : c.tokens = d.tokens
  bindings : c.bindings.head? = some (d.placeholders.zip arguments)

/-- One head adds the header that is declared there. -/
theorem AtMethods.head (hg : g.Instantiates) {at_ : Nat} {m : PendingMethod}
    (hat : AtMethods t₀ own s d arguments c)
    (h : methodHead g t₀.structures.size at_ c = .ok (m, c')) : ∃ header,
      AtMethods t₀ own { s with methods := s.methods ++ [header] } d arguments c' ∧
      c'.types.Declares d arguments t₀.structures.size at_ header ∧
      c.types.Within c'.types ∧ c'.bindings = c.bindings := by
  obtain ⟨signature, c₁, chunk, hsignature, htypes, htokens, hbindings⟩ := methodHead_spec h
  have hread := Function.tracks_signature hg.later.track.toTrackTypes
  have hlater := hread.respects_left _ _ _ hsignature
  have hwithin : c₁.types.Within c'.types := by
    rw [htypes]
    exact .of_eq rfl rfl
  refine ⟨signature.header (.script chunk) (some t₀.structures.size), ⟨?_, ?_, ?_⟩, ⟨?_, ?_⟩,
    hlater.types.toWithin.trans hwithin, hbindings.trans hlater.bindings⟩
  · rw [htypes]
    exact (hat.making.later hlater.types).modify fun t => { t with
      methods := t.methods ++ [signature.header (.script chunk) (some t₀.structures.size)] }
  · rw [htokens, hlater.tokens]
    exact hat.tokens
  · rw [hbindings, hlater.bindings]
    exact hat.bindings
  · rw [← hat.tokens]
    exact congrArg (Option.map Token.lexeme) (Function.signature_name hsignature)
  · obtain ⟨fuel, rfl⟩ := hg.fuel
    exact ⟨fuel, { c with cursor := at_ }, c₁, signature, chunk, hat.tokens, rfl, hat.bindings,
      hsignature, hwithin, rfl⟩

/-- All heads add the headers that are declared there, one after the other. -/
theorem AtMethods.heads (hg : g.Instantiates) {ats : List Nat} {ms : List PendingMethod}
    (hat : AtMethods t₀ own s d arguments c)
    (h : ats.mapM (methodHead g t₀.structures.size) c = .ok (ms, c')) : ∃ headers,
      AtMethods t₀ own { s with methods := s.methods ++ headers } d arguments c' ∧
      List.Forall₂ (c'.types.Declares d arguments t₀.structures.size) ats headers ∧
      c.types.Within c'.types ∧ c'.bindings = c.bindings := by
  induction ats generalizing s c ms with
  | nil =>
    cases h
    exact ⟨[], by rwa [List.append_nil], .nil, .refl _, rfl⟩
  | cons at_ ats ih =>
    rw [List.mapM_cons] at h
    obtain ⟨m, c₁, hhead, h⟩ := CompileM.bind_eq_ok h
    obtain ⟨ms, c₂, hheads, h⟩ := CompileM.bind_eq_ok h
    cases h
    obtain ⟨header, hat₁, hdeclares, hwithin₁, hbindings₁⟩ := hat.head hg hhead
    obtain ⟨headers, hat₂, hall, hwithin₂, hbindings₂⟩ := ih hat₁ hheads
    refine ⟨header :: headers, ?_, .cons (hwithin₂.declares hdeclares) hall,
      hwithin₁.trans hwithin₂, hbindings₂.trans hbindings₁⟩
    rw [List.append_assoc] at hat₂
    exact hat₂

/-- The methods of a structure that is being made. -/
theorem making_methods (hg : g.Instantiates) (d : StructureTemplate) (arguments : List Ty)
    {ats : List Nat} {depth : Nat} (hmaking : t₀.Making own s c.types)
    (h : methods g t₀.structures.size ats depth d.tokens (d.placeholders.zip arguments) c =
      .ok ((), c')) : ∃ headers,
      t₀.Making own { s with methods := s.methods ++ headers } c'.types ∧
      List.Forall₂ (c'.types.Declares d arguments t₀.structures.size) ats headers ∧
      c.types.Within c'.types ∧ c'.tokens = c.tokens ∧ c'.bindings = c.bindings := by
  unfold methods at h
  rw [CompileM.ask_bind] at h
  obtain ⟨place, c₁, hcursor, h⟩ := CompileM.bind_eq_ok h
  cases hcursor
  obtain ⟨_, c₂, hinto, h⟩ := CompileM.bind_eq_ok h
  cases hinto
  obtain ⟨_, c₃, hbodies, hback⟩ := CompileM.bind_eq_ok h
  cases hback
  unfold methodBodies at hbodies
  obtain ⟨pending, c₄, hheads, hbodies⟩ := CompileM.bind_eq_ok hbodies
  obtain ⟨headers, hat, hall, hwithin, hbindings⟩ := AtMethods.heads hg (c := { c with
    tokens := d.tokens
    bindings := d.placeholders.zip arguments :: c.bindings }) ⟨hmaking, rfl, rfl⟩ hheads
  -- the bodies come after all heads and change none of them
  have hlater : c₄.Later c₃ := by
    refine Respects.forM (fun m => ?_) pending _ _ _ hbodies
    refine .bind (CompileM.tracks_moveTo _).respects fun _ => ?_
    exact (Function.tracks_body hg.later.track (Walk.good_free _) _ _ _).respects
  refine ⟨headers, hat.making.later hlater.types, hall.imp fun _ _ => hlater.types.declares,
    hwithin.trans hlater.types.toWithin, rfl, ?_⟩
  show c₃.bindings.tail = c.bindings
  rw [hlater.bindings, hbindings]
  rfl

/-! ### Instances -/

/-- An instance is made for good: the table is a later one, and the instance is found in it. -/
theorem makeInstance_spec (hg : g.Instantiates) {template : Nat} {token : Token}
    (hd : c.types.template? template = some d)
    (hnone : c.types.instance? template arguments = none)
    (h : makeInstance g template d arguments token c = .ok (id, c')) :
    c.Later c' ∧ c'.types.instance? template arguments = some id := by
  unfold makeInstance at h
  obtain ⟨id', c₁, henter, h⟩ := CompileM.bind_eq_ok h
  cases henter
  obtain ⟨fields, c₂, hfields, h⟩ := CompileM.bind_eq_ok h
  obtain ⟨_, c₃, hlayout, h⟩ := CompileM.bind_eq_ok h
  obtain ⟨_, c₄, hmethods, h⟩ := CompileM.bind_eq_ok h
  cases h
  have hlater := respects_instanceFields hg.later _ _ _ _ _ _ hfields
  have hresolved := turns_instanceFields hg d arguments d.fields _ _ _ _ rfl hfields
  obtain ⟨laid, words, rfl, rfl⟩ := layout_spec hlayout
  have hlaid := ((TypeTable.Making.of_instance _ hnone).later hlater.types).modify fun s =>
    { s with fields := laid, wordLength := words, complete := true }
  obtain ⟨headers, hmaking, hdeclared, hwithin, htokens, hbindings⟩ :=
    making_methods hg d arguments hlaid hmethods
  -- The layout comes in between, but it concerns neither names nor instances.
  replace hwithin : c₂.types.Within c'.types := by
    refine TypeTable.Within.trans ?_ hwithin
    exact .of_eq rfl rfl
  have hmade : c'.types.Made ((template, arguments), c.types.structures.size) := by
    refine ⟨d, _, hmaking.templates hd, hmaking.current, rfl, .inl ⟨?_, hdeclared⟩⟩
    refine (List.forall₂_map_right_iff.mp hresolved).imp ?_
    rintro f f' ⟨hname, hty⟩
    exact ⟨hname, hwithin.resolved? _ hty⟩
  refine ⟨⟨hmaking.finish ?_ ?_, htokens.trans hlater.tokens, hbindings.trans hlater.bindings⟩, ?_⟩
  · simp
  · simpa using hmade
  · exact hwithin.instances (hlater.types.instances List.lookup_cons_self)

/-- An instance is found in the table, or it is made while only the depth differs. -/
theorem instantiate_eq_ok {template : Nat} {token : Token}
    (h : instantiate g template arguments token c = .ok (id, c')) :
    c.types.instance? template arguments = some id ∧ c' = c ∨
      c.types.instance? template arguments = none ∧ ∃ d c₁ c₂,
        c.types.template? template = some d ∧ c.Still c₁ ∧
        makeInstance g template d arguments token c₁ = .ok (id, c₂) ∧
        c' = { c₂ with instantiationDepth := c₂.instantiationDepth - 1 } := by
  unfold instantiate at h
  rw [CompileM.ask_bind] at h
  cases hfound : c.types.instance? template arguments with
  | some found =>
    rw [hfound] at h
    cases h
    exact .inl ⟨rfl, rfl⟩
  | none =>
    rw [hfound] at h
    obtain ⟨_, c₁, hcount, h⟩ := CompileM.bind_eq_ok h
    have hstill : c.Still c₁ := 
      (TypeExpr.tracks_checkArgumentCount _ _ _ _).respects _ _ _ hcount
    rw [CompileM.ask_bind] at h
    cases hd : c₁.types.template? template with
    | none =>
      rw [hd] at h
      exact absurd h ((Fails.fail _ _) _ _ _)
    | some d =>
      rw [hd] at h
      dsimp only at h
      split at h
      · exact absurd h ((Fails.bind_left (.fail _ _) _) _ _ _)
      rw [CompileM.ask_bind] at h
      split at h
      · exact absurd h ((Fails.bind_left (.fail _ _) _) _ _ _)
      obtain ⟨_, c₂, hdeeper, h⟩ := CompileM.bind_eq_ok h
      cases hdeeper
      obtain ⟨id, c₃, hmake, h⟩ := CompileM.bind_eq_ok h
      obtain ⟨_, c₄, hback, h⟩ := CompileM.bind_eq_ok h
      cases hback
      cases h
      refine .inr ⟨rfl, d, { c₁ with instantiationDepth := c₁.instantiationDepth + 1 }, c₃, ?_⟩
      exact ⟨hstill.types ▸ hd, ⟨hstill.types, hstill.tokens, hstill.bindings⟩, hmake, rfl⟩

/-- An instance is found in the table or made. -/
theorem instantiate_spec (hg : g.Instantiates) {template : Nat} {token : Token}
    (h : instantiate g template arguments token c = .ok (id, c')) :
    c.Later c' ∧ c'.types.instance? template arguments = some id := by
  obtain ⟨hfound, rfl⟩ | ⟨hnone, d, c₁, c₂, hd, hstill, hmake, rfl⟩ := instantiate_eq_ok h
  · exact ⟨Framing.same rfl rfl rfl, hfound⟩
  · rw [← hstill.types] at hd hnone
    obtain ⟨hlater, hinstance⟩ := makeInstance_spec hg hd hnone hmake
    exact ⟨Framing.trans hstill.later ⟨hlater.types, hlater.tokens, hlater.bindings⟩, hinstance⟩

/-! ### Declarations -/

/-- A structure without type parameters. -/
theorem later_plain (hg : g.Instantiates) {name : Token} {depth : Nat}
    (hname : c.types.lookup? name.lexeme = none) (h : plain g name depth c = .ok ((), c')) :
    c.Later c' := by
  unfold plain at h
  obtain ⟨id', c₁, henter, h⟩ := CompileM.bind_eq_ok h
  cases henter
  obtain ⟨found, c₂, hmembers, h⟩ := CompileM.bind_eq_ok h
  obtain ⟨fields, ats⟩ := found
  obtain ⟨_, c₃, hlayout, h⟩ := CompileM.bind_eq_ok h
  rw [CompileM.ask_bind] at h
  obtain ⟨hlater, -⟩ := members_spec hg hmembers
  obtain ⟨laid, words, -, rfl⟩ := layout_spec hlayout
  have hlaid := ((TypeTable.Making.of_structure hname).later hlater.types).modify fun s =>
    { s with fields := laid, wordLength := words, complete := true }
  -- Methods are read as those of a template without type parameters.
  obtain ⟨headers, hmaking, -, -, htokens, hbindings⟩ := making_methods hg
    { name := name.lexeme, placeholders := [], tokens := c₂.tokens, token := name } [] hlaid h
  refine ⟨hmaking.finish ?_ ?_, htokens.trans hlater.tokens, hbindings.trans hlater.bindings⟩
  · simp
  · simp

/-- A template. -/
theorem later_template (hg : g.Instantiates) {name : Token} {placeholders : List String}
    {depth : Nat} (hname : c.types.lookup? name.lexeme = none)
    (h : template g name placeholders depth c = .ok ((), c')) : c.Later c' := by
  unfold template at h
  obtain ⟨_, c₁, hbyte, h⟩ := CompileM.bind_eq_ok h
  have hstill : c.Still c₁ := (CompileM.tracks_byte _ _).respects _ _ _ hbyte
  obtain ⟨id', c₂, henter, h⟩ := CompileM.bind_eq_ok h
  cases henter
  obtain ⟨found, c₃, hmembers, h⟩ := CompileM.bind_eq_ok h
  obtain ⟨fields, ats⟩ := found
  cases h
  obtain ⟨hlater, -, haccounts⟩ := members_spec hg hmembers
  rw [← hstill.types] at hname
  refine Framing.trans hstill.later ⟨?_, hlater.tokens, hlater.bindings⟩
  refine TypeTable.later_of_template hname rfl rfl hlater.types (haccounts.imp_right ?_)
  rintro ⟨ty, hty, hmentions⟩
  obtain ⟨f, hf, rfl⟩ := List.mem_map.mp hty
  exact ⟨f, hf, hmentions⟩

/-- The declaration of a structure, after the end of its first line: a name that did not stand for
anything, of a structure or of a template. -/
theorem declaration_eq_ok {depth : Nat}
    (h : declaration g depth c = .ok ((), c')) : ∃ name token c₀ c₁,
      c.Still c₁ ∧ c₁.types.lookup? name.lexeme = none ∧
      CompileM.consume .statementTerminator "end of line" c₀ = .ok (token, c₁) ∧
      (plain g name (depth + 1) c₁ = .ok ((), c') ∨
        ∃ placeholders, template g name placeholders (depth + 1) c₁ = .ok ((), c')) := by
  unfold declaration at h
  obtain ⟨_, c₁, hadvance, hnamed⟩ := CompileM.bind_eq_ok h
  obtain ⟨name, c₂, hname, hchecked⟩ := CompileM.bind_eq_ok hnamed
  have h₂ : c.Still c₂ := Framing.trans (CompileM.tracks_advance.respects _ _ _ hadvance)
    ((CompileM.tracks_identifier _).respects _ _ _ hname)
  rw [CompileM.ask_bind] at hchecked
  split at hchecked
  · exact absurd hchecked ((Fails.bind_left (.failRedeclared _) _) _ _ _)
  rename_i hfree
  replace hfree : c₂.types.lookup? name.lexeme = none := by
    simp only [Compiler.typeExists, Bool.or_eq_true, not_or] at hfree
    exact Option.not_isSome_iff_eq_none.mp hfree.2
  obtain ⟨generic, c₃, hmatch, hhead⟩ := CompileM.bind_eq_ok hchecked
  have h₃ : c.Still c₃ :=
    Framing.trans h₂ ((CompileM.tracks_matchKind _).respects _ _ _ hmatch)
  extract_lets finish at hhead
  -- The members, after the end of the line.
  have hfinish {placeholders : List String} {c₄ : Compiler} (h₄ : c.Still c₄)
      (h : finish placeholders c₄ = .ok ((), c')) : ∃ name token c₀ c₁,
        c.Still c₁ ∧ c₁.types.lookup? name.lexeme = none ∧
        CompileM.consume .statementTerminator "end of line" c₀ = .ok (token, c₁) ∧
        (plain g name (depth + 1) c₁ = .ok ((), c') ∨
          ∃ placeholders, template g name placeholders (depth + 1) c₁ = .ok ((), c')) := by
    obtain ⟨token, c₅, hline, h⟩ := CompileM.bind_eq_ok h
    have h₅ : c.Still c₅ :=
      Framing.trans h₄ ((CompileM.tracks_consume _ _).respects _ _ _ hline)
    refine ⟨name, token, c₄, c₅, h₅, by rw [h₅.types, ← h₂.types, hfree], hline, ?_⟩
    split at h
    · exact .inl h
    · exact .inr ⟨placeholders, h⟩
  clear_value finish
  split at hhead
  · obtain ⟨n, c₄, hbudget, hhead⟩ := CompileM.bind_eq_ok hhead
    obtain ⟨names, c₅, hnames, hhead⟩ := CompileM.bind_eq_ok hhead
    obtain ⟨_, c₆, hclose, hhead⟩ := CompileM.bind_eq_ok hhead
    have h₆ : c.Still c₆ := Framing.trans h₃ (Framing.trans
      (CompileM.tracks_budget.respects _ _ _ hbudget) (Framing.trans
        ((tracks_typeParameters _ _).respects _ _ _ hnames)
        ((CompileM.tracks_consume _ _).respects _ _ _ hclose)))
    exact hfinish h₆ hhead
  · exact hfinish h₃ hhead

theorem later_declaration (hg : g.Instantiates) (depth : Nat) :
    Respects Compiler.Later (declaration g depth) := by
  intro c _ c' h
  obtain ⟨name, token, c₀, c₁, hstill, hfree, -, hplain | ⟨placeholders, htemplate⟩⟩ :=
    declaration_eq_ok h
  · exact Framing.trans hstill.later (later_plain hg hfree hplain)
  · exact Framing.trans hstill.later (later_template hg hfree htemplate)

end Structure

/-! ### Programs -/

/-- The productions of every amount of fuel leave what was in the table and make whole instances. -/
theorem productions_instantiate (n : Nat) : (productions n).Instantiates := by
  induction n with
  | zero =>
    exact ⟨⟨0, rfl⟩, ⟨fun _ => .failFuel, .failFuel, fun _ => .failFuel, fun _ => .failFuel,
      fun _ _ _ => .failFuel⟩, fun _ _ => .of_fails .failFuel, fun _ _ _ _ => .of_fails .failFuel⟩
  | succ n ih =>
    have htrack := ih.later.track
    refine ⟨⟨n + 1, rfl⟩, ⟨fun min => (Expression.tracks_read htrack min).respects,
      (Expression.tracks_operand htrack).respects, fun depth => ?_,
      fun indirection => (TypeExpr.tracks_read htrack.toTrackTypes indirection).respects, ?_⟩,
      fun indirection t => TypeExpr.turns_read ih indirection t, ?_⟩
    · have hlater := Structure.later_declaration ih depth
      exact (Statement.tracks_read htrack (hlater.tracks _)).respects
    · intro template arguments token c id c' h
      exact (Structure.instantiate_spec ih h).1
    · intro template arguments token t c id c' _ h
      exact (Structure.instantiate_spec ih h).2

namespace Compiler

theorem respects_readModule {R : Compiler → Compiler → Prop} [Framing R]
    (hg : ∀ n, (productions n).Respect R) : Respects R readModule :=
  (tracks_readModule fun n => (hg n).track).respects

/-- The table after some modules is related to the one before them if reading one module relates
tables. -/
theorem types_of_addSources {T : TypeTable → TypeTable → Prop} (hrefl : ∀ t, T t t)
    (htrans : ∀ {t₁ t₂ t₃}, T t₁ t₂ → T t₂ t₃ → T t₁ t₃)
    (hread : ∀ {c c' : Compiler}, readModule c = .ok ((), c') → T c.types c'.types)
    {modules : List (String × String)} (h : addSources c modules = .ok c') :
    T c.types c'.types := by
  induction modules generalizing c with
  | nil =>
    cases h
    exact hrefl _
  | cons m modules ih =>
    obtain ⟨name, source⟩ := m
    rw [addSources] at h
    split at h
    · cases h
    rename_i c₁ hsource
    refine htrans ?_ (ih h)
    rw [addSource] at hsource
    split at hsource
    · cases hsource
    rename_i tokens _
    cases hmodule : c.addModule name tokens with
    | error e =>
      rw [hmodule] at hsource
      cases hsource
    | ok c₁ =>
      rw [hmodule] at hsource
      cases hsource
      rw [addModule] at hmodule
      split at hmodule
      · cases hmodule
      · rename_i hreads
        cases hmodule
        exact hread (c := c.atModule name tokens) hreads

/-- The table after some modules is later than the one before them. -/
theorem later_of_addSources {modules : List (String × String)}
    (h : addSources c modules = .ok c') : c.types.Later c'.types :=
  types_of_addSources (T := TypeTable.Later) .refl .trans (fun hread =>
    (respects_readModule (fun n => (productions_instantiate n).later) _ _ _ hread).types) h

end Compiler

/-- In every program that compiles, every instance of a template is complete.  It has exactly the
fields and methods that the template declares, in their order, or it has none.  The latter only
happens if a field of the template mentions an instance, so that instances were made before the
members of the template were known. -/
theorem faithful_or_bare_of_instance {modules : List (String × String)} {c : Compiler}
    (hcompile : addSources .start modules = .ok c) {template : Nat} {arguments : List Ty} {id : Nat}
    (hinstance : ((template, arguments), id) ∈ c.types.instances) :
    ∃ d s, c.types.template? template = some d ∧ c.types.structure? id = some s ∧
      s.complete = true ∧
      (c.types.Faithful d arguments id s ∨
        (s.fields = [] ∧ s.methods = []) ∧ ∃ f ∈ d.fields, c.types.Mentions f.ty) := by
  obtain hbefore | ⟨-, hmade⟩ := (Compiler.later_of_addSources hcompile).made _ hinstance
  · cases hbefore
  · exact hmade

/-- An instance, and the names of the fields that its template and it have. -/
def TypeTable.outline (t : TypeTable) (template : Nat) (arguments : List Ty) :
    Option (Nat × List String × List String) := do
  let id ← t.instance? template arguments
  let d ← t.template? template
  let s ← t.structure? id
  return (id, d.fields.map FieldTemplate.name, s.fields.map Field.name)

theorem exists_of_outline {modules : List (String × String)} {template id : Nat}
    {arguments : List Ty} {declared found : List String}
    (h : ((addSources .start modules).toOption.bind fun c => c.types.outline template arguments) =
      some (id, declared, found)) :
    ∃ c d s, addSources .start modules = .ok c ∧
      ((template, arguments), id) ∈ c.types.instances ∧
      c.types.template? template = some d ∧ c.types.structure? id = some s ∧
      d.fields.map FieldTemplate.name = declared ∧ s.fields.map Field.name = found := by
  cases hadd : addSources .start modules with
  | error e =>
    rw [hadd] at h
    cases h
  | ok c =>
    rw [hadd] at h
    have h : c.types.outline template arguments = some (id, declared, found) := h
    obtain ⟨id', hinstance, h⟩ := Option.bind_eq_some_iff.mp h
    obtain ⟨d, hd, h⟩ := Option.bind_eq_some_iff.mp h
    obtain ⟨s, hs, h⟩ := Option.bind_eq_some_iff.mp h
    cases h
    exact ⟨c, d, s, rfl, TypeTable.mem_of_lookup_eq_some hinstance, hd, hs, rfl, rfl⟩

/-- Chains of links that point to links of their own kind. -/
def chainModules : List (String × String) :=
  [("chains", "structure Link<T>\n    field T item\n    field Link<T>* next\n" ++
    "    function get() returns T\n        return self.item\n" ++
    "var c = Link<Int> \x7b\x7d\n")]

theorem faithful_of_chains :
    ∃ c d s, addSources .start chainModules = .ok c ∧ ((0, [.int]), 0) ∈ c.types.instances ∧
      c.types.template? 0 = some d ∧ c.types.structure? 0 = some s ∧
      d.fields.map FieldTemplate.name = ["item", "next"] ∧ s.complete = true ∧
      c.types.Faithful d [.int] 0 s := by
  have houtline : ((addSources .start chainModules).toOption.bind fun c =>
      c.types.outline 0 [.int]) = some (0, ["item", "next"], ["item", "next"]) := by
    decide +kernel
  obtain ⟨c, d, s, hcompile, hinstance, hd, hs, hdeclared, hfound⟩ := exists_of_outline houtline
  obtain ⟨d', s', hd', hs', hcomplete, hmembers⟩ := faithful_or_bare_of_instance hcompile hinstance
  obtain rfl : d = d' := Option.some.inj (hd.symm.trans hd')
  obtain rfl : s = s' := Option.some.inj (hs.symm.trans hs')
  refine ⟨c, d, s, hcompile, hinstance, hd, hs, hdeclared, hcomplete, ?_⟩
  obtain hfaithful | ⟨⟨hnone, -⟩, -⟩ := hmembers
  · exact hfaithful
  · rw [hnone] at hfound
    cases hfound

/-- Nodes of a list that point to nodes of integers. -/
def nodeModules : List (String × String) :=
  [("nodes", "structure Node<T>\n    field T value\n    field Node<Int>* next\n" ++
    "var n = Node<Int> \x7b\x7d\n")]

/-- The nodes of integers are mentioned by a field of the nodes, and have no fields. -/
theorem bare_instance_of_nodes :
    ∃ c d s, addSources .start nodeModules = .ok c ∧ ((0, [.int]), 0) ∈ c.types.instances ∧
      c.types.template? 0 = some d ∧ c.types.structure? 0 = some s ∧
      d.fields.map FieldTemplate.name = ["value", "next"] ∧ s.fields = [] ∧
      ¬ c.types.Faithful d [.int] 0 s := by
  have houtline : ((addSources .start nodeModules).toOption.bind fun c =>
      c.types.outline 0 [.int]) = some (0, ["value", "next"], []) := by
    decide +kernel
  obtain ⟨c, d, s, hcompile, hinstance, hd, hs, hdeclared, hfound⟩ := exists_of_outline houtline
  have hnone : s.fields = [] := List.map_eq_nil_iff.mp hfound
  refine ⟨c, d, s, hcompile, hinstance, hd, hs, hdeclared, hnone, fun hfaithful => ?_⟩
  have hlength := hfaithful.fields.length_eq
  rw [hnone, ← List.length_map, hdeclared] at hlength
  cases hlength

end WordScript
