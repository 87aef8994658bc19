/-
Walks through the declarations of structures.

The members of a structure and the fields of an instance are read along on every walk.
The rest, where the table of types and the type parameters in effect change, is read
along on walks that keep nothing: only the tokens stand elsewhere in the second state, or
the second computation may be cut short.

* `Structure.tracks_memberLines`, `Structure.tracks_instanceFields` — the members of a
  structure, and the fields of an instance;
* `Block.tracks_module` — a whole module;
* `Walk.Loose` — walks that keep nothing;
* `Structure.tracks_plain`, `Structure.tracks_template`, `Structure.tracks_instantiate`
  — structures, templates and instances;
* `productions_track` — the productions of the grammar.
-/
import WordScript.Proofs.GrammarWalks

namespace WordScript

variable {W : Walk} {g g' : Productions} {t t' : Token}

/-! ### Members of structures -/

namespace Structure

variable [W.Moves]

theorem tracks_field (hg : g.TrackTypes W g') (done : List FieldTemplate) :
    Tracks W (FieldTemplate.moved W.place) (field g done)
      (field g' (done.map (FieldTemplate.moved W.place))) := by
  unfold field
  refine .bind_token CompileM.tracks_advance fun _ => ?_
  refine .bind_token CompileM.tracks_current fun _ => ?_
  refine .bind (TypeExpr.tracks_read hg true) fun ty hty => ?_
  extract_lets finish finish'
  have hfinish : ∀ u, Tracks W (FieldTemplate.moved W.place) (finish u) (finish' u) := fun _ => by
    refine .bind_token (CompileM.tracks_identifier _) fun name => ?_
    simp only [List.any_map, Token.lexeme_moved]
    have hread : Tracks W (FieldTemplate.moved W.place)
        (do CompileM.endStatement; return ⟨name.lexeme, ty, name⟩)
        (do CompileM.endStatement; return ⟨name.lexeme, ty, name.moved W.place⟩) :=
      .skip CompileM.tracks_endStatement fun _ =>
        .pure_moved (a := FieldTemplate.mk name.lexeme ty name) hty
    show Tracks W _ (if (done.any fun f => f.name == name.lexeme) = true then _ else _)
      (if (done.any fun f => f.name == name.lexeme) = true then _ else _)
    split
    · exact .skip (.failRedeclared _ _) fun _ => hread
    · exact hread
  clear_value finish finish'
  split <;> grind -funext

theorem tracks_memberLines (hg : g.TrackTypes W g') (depth k : Nat)
    {fields : List FieldTemplate} (hfields : W.Good fields) (methods : List Nat) :
    Tracks W (Prod.map (List.map (FieldTemplate.moved W.place)) id)
      (memberLines g depth k fields methods)
      (memberLines g' depth k (fields.map (FieldTemplate.moved W.place)) methods) := by
  induction k generalizing fields methods with
  | zero => exact .failFuel _
  | succ k ih =>
    unfold memberLines
    refine .skip (.look fun c => c.indentation_moved) fun level => ?_
    refine .skip (.look fun c => c.atEnd_moved) fun done => ?_
    split
    · rw [← List.map_reverse]
      refine .pure_moved (a := (fields.reverse, methods.reverse)) ?_
      grind
    split
    · exact .bind_token (.look_token fun c => c.lineStart_moved) fun _ => .fail _ rfl _
    refine .skip CompileM.tracks_cursor fun _ => .skip (CompileM.tracks_moveTo _) fun _ => ?_
    refine .skip CompileM.tracks_kind fun kind => ?_
    split
    · refine .bind_moved (tracks_field hg fields) fun field hfield => ?_
      have hmore : W.Good (field :: fields) := by grind
      exact ih hmore methods
    · exact .skip (CompileM.tracks_skipBlock _) fun _ => ih hfields _
    · exact .bind_token CompileM.tracks_current fun _ => .failExpected _ _ _

@[grind ←] theorem tracks_typeParameters (k : Nat) (done : List String) :
    Tracks W id (typeParameters k done) (typeParameters k done) := by
  induction k generalizing done with
  | zero => exact .failFuel _
  | succ k ih =>
    unfold typeParameters
    refine .bind_token (CompileM.tracks_identifier _) fun name => ?_
    refine .skip (.look fun c => c.typeExists_moved _) fun taken => ?_
    grind -funext

/-- The declaration of a structure or template, if both kinds of members are read along. -/
theorem tracks_declaration {depth : Nat}
    (hplain : ∀ name, Tracks W id (plain g name (depth + 1))
      (plain g' (name.moved W.place) (depth + 1)))
    (htemplate : ∀ name placeholders, Tracks W id (template g name placeholders (depth + 1))
      (template g' (name.moved W.place) placeholders (depth + 1))) :
    Tracks W id (declaration g depth) (declaration g' depth) := by
  unfold declaration
  refine .bind_token CompileM.tracks_advance fun _ => ?_
  refine .bind_token (CompileM.tracks_identifier _) fun name => ?_
  refine .skip (.look fun c => c.typeExists_moved _) fun taken => ?_
  -- The members, after the end of the line, and before them the type parameters.
  extract_lets declared listed declared' listed'
  have hdeclared : ∀ names, Tracks W id (declared names) (declared' names) := by
    intro placeholders
    refine .bind_token (CompileM.tracks_consume _ _) fun _ => ?_
    split
    · exact hplain name
    · exact htemplate name placeholders
  clear_value declared declared'
  have hlisted : ∀ u, Tracks W id (listed u) (listed' u) := fun _ => by grind -funext
  clear_value listed listed'
  grind -funext

omit [W.Moves] in
/-- Ground types in the places of the parameters leave no placeholder in the fields. -/
theorem tracks_instanceFields [W.Closed] (hg : g.TrackInstances W g')
    (definition definition' : StructureTemplate) {arguments : List Ty} {fields : List FieldTemplate}
    (h : W.Typed → (∀ a ∈ arguments, a.Ground) ∧ ∀ f ∈ fields, f.ty.Over arguments.length) :
    Tracks W id (instanceFields g definition arguments fields)
      (instanceFields g' definition' arguments (fields.map (FieldTemplate.moved W.place))) := by
  induction fields with
  | nil => exact .pure (by simp)
  | cons field fields ih =>
    have hclosed (hT : W.Typed) : (field.ty.substitute arguments).containsPlaceholder = false :=
      Ty.Over.substitute (h hT).1 ((h hT).2 field List.mem_cons_self)
    have hrest := ih fun hT => ⟨(h hT).1, fun f hf => (h hT).2 f (List.mem_cons_of_mem _ hf)⟩
    rw [List.map_cons]
    unfold instanceFields
    extract_lets ty resolved ty' resolved'
    have hresolved : ∀ u, Tracks W id (resolved u) (resolved' u) := fun _ => by
      refine .bind (TypeExpr.tracks_resolve hg field.token _ hclosed) fun ty hty => ?_
      exact .bind hrest fun rest hlist => .pure (by grind)
    clear_value resolved resolved'
    show Tracks W id (if ty.containsPlaceholder = true then _ else _)
      (if ty.containsPlaceholder = true then _ else _)
    split
    · rename_i hopen
      refine .skip (.failFor ⟨by simp, fun _ hT => ?_⟩ _ _) hresolved
      exact Bool.noConfusion (hopen.symm.trans (hclosed hT))
    · exact hresolved ()

end Structure

/-! ### Modules -/

/-- Modules that are read by productions of some fuel go along with each other, if the productions
do. -/
theorem Block.tracks_module [W.Moves] {gs gs' : Nat → Productions}
    (hg : ∀ n, (gs n).Track W (gs' n)) :
    Tracks W id
      (do
        let g := gs (← CompileM.ask Compiler.fuel)
        statements g 0 (← CompileM.budget)
        if !(← CompileM.ask Compiler.atEnd) then
          CompileM.failExpected (← CompileM.current) "end of file")
      (do
        let g := gs' (← CompileM.ask Compiler.fuel)
        statements g 0 (← CompileM.budget)
        if !(← CompileM.ask Compiler.atEnd) then
          CompileM.failExpected (← CompileM.current) "end of file") := by
  refine .skip (.look fun c => by rw [Compiler.fuel, Compiler.fuel, c.longest_moved]) fun n => ?_
  refine .skip CompileM.tracks_budget fun k => .skip (tracks_statements (hg n) 0 k) fun _ => ?_
  refine .skip (.look fun c => c.atEnd_moved) fun ended => ?_
  grind -funext

theorem Compiler.tracks_readModule [W.Moves]
    (hg : ∀ n, (productions n).Track W (productions n)) : Tracks W id readModule readModule :=
  Block.tracks_module hg

/-! ### Walks that keep nothing -/

namespace Walk

/-- Walks on which nothing is kept. -/
class Loose (W : Walk) : Prop where
  free : W.params = none
  frame : ∀ c₀ c : Compiler, W.Frame c₀ c
  fuel : W.fuel

variable [h : W.Loose]

instance : W.Free :=
  ⟨h.free⟩

instance : W.Moves :=
  ⟨fun _ => h.frame _ _, h.fuel⟩

theorem at_ (c₀ c : Compiler) : W.At c₀ c :=
  ⟨h.frame c₀ c, fun hT => absurd hT not_typed⟩

end Walk

/-- A change of the state is followed by the same change of the second state. -/
theorem Tracks.modify [W.Loose] {h h' : Compiler → Compiler}
    (hmodify : ∀ c, h' (c.moved W.place) = (h c).moved W.place) :
    Tracks W id (modify h : CompileM Unit) (modify h') :=
  .of_modify hmodify fun _ _ _ => Walk.at_ _ _

theorem Tracks.modifyGet {α : Type} [HoldsTypes α] [W.Loose] {h h' : Compiler → α × Compiler}
    (hmodify : ∀ c, h' (c.moved W.place) = ((h c).1, (h c).2.moved W.place)) :
    Tracks W id (modifyGet h : CompileM α) (modifyGet h') :=
  .of_modifyGet hmodify fun _ _ _ => ⟨Walk.at_ _ _, Walk.good_free _⟩

namespace Structure

variable [W.Loose]

theorem tracks_members (hg : g.TrackTypes W g') (depth : Nat) (bindings : Bindings) :
    Tracks W (Prod.map (List.map (FieldTemplate.moved W.place)) id) (members g depth bindings)
      (members g' depth bindings) := by
  unfold members
  refine .skip (.modify fun _ => rfl) fun _ => .skip (Block.tracks_requireLine _) fun _ => ?_
  refine .skip CompileM.tracks_budget fun k => ?_
  refine .bind_moved (tracks_memberLines hg depth k (Walk.good_free []) []) fun found _ => ?_
  exact .skip (.modify fun _ => rfl) fun _ => .pure_moved (Walk.good_free found)

theorem tracks_methodHead (hg : g.TrackTypes W g') (k at_ : Nat) :
    Tracks W (PendingMethod.moved W.place) (methodHead g k at_) (methodHead g' k at_) := by
  unfold methodHead
  refine .skip (CompileM.tracks_moveTo _) fun _ => ?_
  refine .bind_moved (Function.tracks_signature hg) fun s _ => ?_
  refine .skip (.look fun _ => rfl) fun owner => ?_
  extract_lets name entered name' entered'
  have hentered : ∀ u, Tracks W (PendingMethod.moved W.place) (entered u) (entered' u) := by
    refine fun _ => .skip (Function.tracks_reserveChunk _ s.name _) fun chunk => ?_
    refine .skip (.modify fun _ => rfl) fun _ => .skip CompileM.tracks_cursor fun body => ?_
    exact .pure_moved (Walk.good_free (PendingMethod.mk _ s.name body))
  clear_value entered entered'
  show Tracks W _
    (if ((owner.method? s.name.lexeme).isSome || (owner.field? s.name.lexeme).isSome) = true then _
      else _)
    (if ((owner.method? s.name.lexeme).isSome || (owner.field? s.name.lexeme).isSome) = true then _
      else _)
  split
  · exact .skip (.failRedeclared _ _) hentered
  · exact hentered ()

theorem tracks_methods (hg : g.Track W g') (k : Nat) (at_ : List Nat) (depth : Nat)
    (tokens : Array Token) (bindings : Bindings) :
    Tracks W id (methods g k at_ depth tokens bindings)
      (methods g' k at_ depth (tokens.map (Token.moved W.place)) bindings) := by
  have hbodies : Tracks W id (methodBodies g k at_ depth) (methodBodies g' k at_ depth) := by
    unfold methodBodies
    refine .bind_moved (.mapM fun at_ _ => tracks_methodHead hg.toTrackTypes k at_)
      fun pending _ => ?_
    refine .forM_moved fun m _ => .skip (CompileM.tracks_moveTo _) fun _ => ?_
    exact Function.tracks_body hg (Walk.good_free _) _ m.name _
  unfold methods
  refine .bind_moved (m := Array.map (Token.moved W.place)) (.of_ask (fun _ => rfl) fun _ _ _ =>
    Walk.good_free _) fun here _ => ?_
  refine .skip CompileM.tracks_cursor fun place => .skip (.modify fun _ => rfl) fun _ => ?_
  exact .skip hbodies fun _ => .modify fun _ => rfl

theorem tracks_layout (k : Nat) (fields : List (String × Ty)) (t t' : Token) :
    Tracks W id (layout k fields t) (layout k fields t') := by
  unfold layout
  refine .bind_moved (m := Except.map (TypeTable.moved W.place))
    (.of_ask (fun c => c.types.setFields_moved _ _) fun _ _ _ => Walk.good_free _) fun found _ => ?_
  cases found with
  | error e => exact .failLayout (fun hT => absurd hT Walk.not_typed) _ _
  | ok types => exact .modify fun _ => rfl

theorem tracks_plain (hg : g.Track W g') (name : Token) (depth : Nat) :
    Tracks W id (plain g name depth) (plain g' (name.moved W.place) depth) := by
  unfold plain
  refine .skip (.modifyGet fun _ => rfl) fun number => ?_
  refine .bind_moved (tracks_members hg.toTrackTypes _ _) fun found _ => ?_
  obtain ⟨fields, at_⟩ := found
  dsimp only [Prod.map]
  rw [List.map_map]
  refine .skip (tracks_layout _ _ _ _) fun _ => ?_
  exact .bind_moved (.of_ask (fun _ => rfl) fun _ _ _ => Walk.good_free _)
    fun tokens _ => tracks_methods hg _ _ _ tokens _

theorem tracks_template (hg : g.TrackTypes W g') (name : Token) (placeholders : List String)
    (depth : Nat) :
    Tracks W id (template g name placeholders depth)
      (template g' (name.moved W.place) placeholders depth) := by
  unfold template
  refine .skip (CompileM.tracks_byte _ _) fun _ => ?_
  refine .skip (.modifyGet fun c => ?_) fun number => ?_
  · have hadded := c.types.addTemplate_moved (f := W.place)
      { name := name.lexeme, placeholders, memberDepth := depth, tokens := c.tokens, token := name }
    exact congrArg (fun p : Nat × TypeTable => (p.1, { c.moved W.place with types := p.2 })) hadded
  refine .bind_moved (tracks_members hg _ _) fun found _ => .modify fun c => ?_
  obtain ⟨fields, methods⟩ := found
  have htypes := c.types.modifyTemplate_moved number (f := W.place)
    (h := fun t => { t with fields, methods })
    (k := fun t => { t with fields := fields.map (FieldTemplate.moved W.place), methods })
    fun _ => rfl
  exact congrArg (fun types => { c.moved W.place with types }) htypes

theorem tracks_makeInstance (hg : g.Track W g') (template : Nat) (definition : StructureTemplate)
    (arguments : List Ty) (t t' : Token) :
    Tracks W id (makeInstance g template definition arguments t)
      (makeInstance g' template (definition.moved W.place) arguments t') := by
  unfold makeInstance
  refine .skip (.modifyGet fun c => ?_) fun number => ?_
  · simp only [Compiler.types_moved, TypeTable.namesOf_moved]
    rfl
  refine .skip (tracks_instanceFields hg.toTrackInstances definition _ fun hT =>
    absurd hT Walk.not_typed) fun fields => ?_
  refine .skip (tracks_layout _ _ _ _) fun _ => ?_
  exact .skip (tracks_methods hg _ _ _ _ _) fun _ => .done _

theorem tracks_instantiate (hg : g.Track W g') (template : Nat) (arguments : List Ty)
    (t t' : Token) :
    Tracks W id (instantiate g template arguments t) (instantiate g' template arguments t') := by
  unfold instantiate
  refine .bind (.ask (fun _ => rfl) fun _ _ _ => Walk.good_free _) fun found _ => ?_
  split
  · exact .done _
  refine .skip (TypeExpr.tracks_checkArgumentCount _ _ _ _) fun _ => ?_
  refine .bind_moved (m := Option.map (StructureTemplate.moved W.place))
    (.of_ask (fun c => c.types.template?_moved template) fun _ _ _ => Walk.good_free _)
    fun found _ => ?_
  cases found with
  | none => exact .fail _ rfl _
  | some definition =>
    simp -zeta only [Option.map_some]
    extract_lets made checked made' checked'
    have hmade : ∀ u, Tracks W id (made u) (made' u) := fun _ => by
      refine .skip (.modify fun _ => rfl) fun _ => ?_
      refine .skip (tracks_makeInstance hg template definition arguments _ _) fun number => ?_
      exact .skip (.modify fun _ => rfl) fun _ => .done number
    clear_value made made'
    have hchecked : ∀ u, Tracks W id (checked u) (checked' u) := fun _ => by
      refine .skip (.look fun _ => rfl) fun _ => ?_
      grind -funext
    clear_value checked checked'
    split
    · exact .skip (.failFor ⟨by simp, fun _ => Walk.not_typed⟩ _ _) hchecked
    · exact hchecked ()

end Structure

/-! ### The productions -/

variable [W.Loose]

/-- Productions read along if those that they use are. -/
theorem Productions.Track.statement_read (hg : g.Track W g') (depth : Nat) :
    Tracks W id (Statement.read g depth) (Statement.read g' depth) :=
  Statement.tracks_read hg (Structure.tracks_declaration
    (fun name => Structure.tracks_plain hg name _)
    fun name placeholders => Structure.tracks_template hg.toTrackTypes name placeholders _)

/-- The productions of the grammar go along with themselves. -/
theorem productions_track (k : Nat) : (productions k).Track W (productions k) := by
  induction k with
  | zero =>
    exact
      { instantiate := fun _ _ _ _ _ => .failFuel _
        typeExpr := fun _ => .failFuel _
        bound := fun _ _ _ _ _ => Walk.good_free _
        expression := fun _ => .failFuel _
        operand := .failFuel _
        statement := fun _ => .failFuel _ }
  | succ k ih =>
    exact
      { instantiate := fun _ _ _ _ _ => Structure.tracks_instantiate ih _ _ _ _
        typeExpr := fun _ => TypeExpr.tracks_read ih.toTrackTypes _
        bound := fun _ _ _ _ _ => Walk.good_free _
        expression := fun _ => Expression.tracks_read ih _
        operand := Expression.tracks_operand ih
        statement := ih.statement_read }

end WordScript
