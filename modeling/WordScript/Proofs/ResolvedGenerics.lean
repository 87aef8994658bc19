/-
Generics are resolved.

A template keeps the types of its fields with placeholders, and types that mention
placeholders wait for their instance.  None of this leaves the template.  An
instance is made for ground types only, the numbers of arguments and of parameters
agree, and the types of its fields are resolved after the arguments have been put in
their places; its methods are read with its parameters standing for the arguments,
whatever was in effect where the instance was asked for.

* `Structure.grounds_template` — the fields of a template are over its parameters;
* `Structure.grounds_instantiate` — an instance has ground fields and methods;
* `watchedProductions`, `Compiler.Visited` — the states that the compiler comes to;
* `ground_watchedProductions` — the productions resolve generics, watched or not;
* `generics_resolved` — no parameter is left unresolved;
* `Compiler.visited_of_addSources` — the last state is one of those that are visited.

Design notes: a state is visited if a compiler that is to stop there does.  The
productions that are watched stop with an error of one's choice, so that a state
which kept a type with parameters would make them refuse a module for an unresolved
parameter.  One fact thus rules out both.
-/
import WordScript.Build
import WordScript.Proofs.GroundStates

namespace WordScript

variable {α : Type} {g : Productions} {K K' : Setting} {k : Nat}

/-! ### Structures -/

/-- The setting with more type parameters in effect. -/
def Setting.inside (K : Setting) (bindings : Bindings) : Setting :=
  ⟨bindings :: K.bindings, K.arity?⟩

theorem Setting.over_inside {bindings : Bindings} (h : ∀ e ∈ bindings, e.2.Over k) :
    (K.inside bindings).Over k := by
  intro layer hlayer
  obtain rfl : bindings = layer := Option.some.inj hlayer
  exact h

theorem Compiler.Under.enter {c : Compiler} (h : c.Under K) (bindings : Bindings) :
    ({ c with bindings := bindings :: c.bindings } : Compiler).Under (K.inside bindings) :=
  { h with bindings := congrArg (bindings :: ·) h.bindings }

theorem Compiler.Under.leave {c : Compiler} {bindings : Bindings} (h : c.Under (K.inside bindings)) :
    ({ c with bindings := c.bindings.tail } : Compiler).Under K :=
  { h with bindings := congrArg List.tail h.bindings }

namespace Structure

/-- The fields that are read are over the parameters that are in effect meanwhile. -/
theorem meets_members (hg : g.Ground) {bindings : Bindings} (h : ∀ e ∈ bindings, e.2.Over k)
    (depth : Nat) :
    Meets K K (members g depth bindings) fun found => ∀ f ∈ found.1, f.ty.Over k := by
  have hread := hg.trackTypes (Setting.over_inside (K := K) h)
  unfold members
  have hentered : Meets K (K.inside bindings)
      (modify fun c => { c with bindings := bindings :: c.bindings }) fun _ => True :=
    .modify fun c hc => hc.enter bindings
  refine hentered.bind fun _ _ => .skip (Block.tracks_requireLine depth).grounds fun _ => ?_
  refine .skip CompileM.tracks_budget.grounds fun n => ?_
  refine .bind (tracks_memberLines hread depth n (by simp) []).meets fun found hfound => ?_
  have hfields : ∀ f ∈ found.1, f.ty.Over k := by
    simpa using ((Walk.good_prod found).mp hfound).1
  exact (Meets.modify fun c hc => hc.leave).bind fun _ _ => .pure hfields

theorem grounds_methodHead (hg : g.Ground) (hK : K.Over 0) (id at_ : Nat) :
    Grounds K (methodHead g id at_) := by
  unfold methodHead
  refine .skip (CompileM.tracks_moveTo at_).grounds fun _ => ?_
  refine .bind (Function.tracks_signature (hg.trackTypes hK)).meets fun s hs => ?_
  refine .skip (.look _) fun owner => ?_
  extract_lets name entered
  have hentered : ∀ u, Grounds K (entered u) := by
    refine fun _ => .skip (Function.tracks_reserveChunk _ s.name s.name).grounds fun chunk => ?_
    have hheader := Signature.good_header hs (.script chunk) (some id)
    refine .skip (.modify fun c hc => ?_) fun _ => ?_
    · refine hc.withTypes (TypeTable.ground_modifyStructure hc.structures fun t ht => ?_) rfl
      exact ⟨ht.fields, fun m hm => (List.mem_append.mp hm).elim (ht.methods m) fun hm =>
        List.mem_singleton.mp hm ▸ hheader.groundHeader rfl⟩
    · exact .skip CompileM.tracks_cursor.grounds fun _ => .pure hheader
  clear_value entered
  split
  · exact .skip (P := fun _ => True) (.fail rfl) hentered
  · exact hentered ()

theorem grounds_methodBodies (hg : g.Ground) (hK : K.Over 0) (id_ : Nat) (ats : List Nat)
    (depth : Nat) : Grounds K (methodBodies g id_ ats depth) := by
  have hhead : ∀ at_ ∈ ats, Tracks (.ground K 0) id (methodHead g id_ at_) (methodHead g id_ at_) :=
    fun at_ _ => (grounds_methodHead hg hK id_ at_).tracks _
  unfold methodBodies
  refine .bind (Tracks.mapM hhead).grounds fun pending hpending => ?_
  let readBody (m : PendingMethod) : CompileM Unit := do
    CompileM.moveTo m.body
    Function.body g m.header depth m.name
  have hbody : ∀ m ∈ pending, Tracks (.ground K 0) id (readBody m) (readBody m) := by
    refine fun m hm => .skip (CompileM.tracks_moveTo _) fun _ => ?_
    exact Function.tracks_body (hg.track hK) ((Walk.good_list _).mp hpending m hm) _ _ _
  exact (Tracks.forM hbody).grounds

/-- The methods of a structure are read while ground types are in effect, wherever it is made. -/
theorem grounds_methods (hg : g.Ground) {bindings : Bindings} (h : ∀ e ∈ bindings, e.2.Ground)
    (id : Nat) (at_ : List Nat) (depth : Nat) (tokens : Array Token) :
    Grounds K (methods g id at_ depth tokens bindings) := by
  have hover : ∀ e ∈ bindings, e.2.Over 0 := fun e he => (h e he).over 0
  unfold methods
  refine .skip (.look _) fun _ => .skip CompileM.tracks_cursor.grounds fun _ => ?_
  have hentered : Meets K (K.inside bindings)
      (modify fun c => { c with tokens, bindings := bindings :: c.bindings }) fun _ => True :=
    .modify fun c hc => (hc.enter bindings).of_eq rfl rfl rfl rfl rfl
  refine hentered.bind fun _ _ => ?_
  refine .skip (grounds_methodBodies hg (Setting.over_inside hover) id at_ depth) fun _ => ?_
  refine (Meets.modify fun c hc => ?_).mono fun _ _ => Walk.good_none _
  exact hc.leave.of_eq rfl rfl rfl rfl rfl

theorem grounds_layout {fields : List (String × Ty)} (h : ∀ f ∈ fields, f.2.Ground) (id : Nat)
    (token : Token) : Grounds K (layout id fields token) := by
  intro c hc
  rw [layout, CompileM.ask_bind]
  cases hset : c.types.setFields id fields with
  | error e =>
    refine Meets.failLayout (fun i he => ?_) token c hc
    exact TypeTable.setFields_ne_unresolved h (he ▸ hset)
  | ok types =>
    obtain ⟨hstructures, htemplates⟩ := TypeTable.ground_setFields hc.structures h hset
    exact ⟨hc.withTypes hstructures htemplates, Walk.good_none _⟩

theorem grounds_plain (hg : g.Ground) (name : Token) (depth : Nat) :
    Grounds K (plain g name depth) := by
  unfold plain
  refine .skip (.modifyGet fun c hc => ?_) fun id => ?_
  · exact hc.withTypes (TypeTable.ground_addStructure hc.structures _ _) rfl
  refine .bind (meets_members (k := 0) hg (List.forall_mem_nil _) depth) fun found hfound => ?_
  have hfields : ∀ f ∈ found.1.map (fun f => (f.name, f.ty)), f.2.Ground := by
    intro f hf
    obtain ⟨f', hf', rfl⟩ := List.mem_map.mp hf
    exact Ty.over_zero_iff.mp (hfound f' hf')
  refine .skip (grounds_layout hfields id name) fun _ => .skip (.look _) fun _ => ?_
  exact grounds_methods hg (List.forall_mem_nil _) id found.2 depth _

/-- The fields that a template is given are over its parameters. -/
theorem grounds_templateMembers (hg : g.Ground) {id : Nat} (hid : K.arity? id = some k)
    {bindings : Bindings} (h : ∀ e ∈ bindings, e.2.Over k) (depth : Nat) :
    Grounds K (do
      let (fields, methods) ← members g depth bindings
      modify fun c =>
        { c with types := c.types.modifyTemplate id fun t => { t with fields, methods } }) := by
  refine .bind (meets_members hg h depth) fun found hfound => ?_
  refine (Meets.modify fun c hc => ?_).mono fun _ _ => Walk.good_none _
  exact { hc with
    templates := hc.templates.modifyTemplate (hc.arity? id k hid) hfound
    arity? := fun i n hn =>
      (TypeTable.arity?_modifyTemplate id i _ _).trans (hc.arity? i n hn) }

/-- The parameters of a template are numbered from zero. -/
theorem grounds_template (hg : g.Ground) (name : Token) (placeholders : List String) (depth : Nat) :
    Grounds K (template g name placeholders depth) := by
  unfold template
  have hbyte : Meets K K (CompileM.byte placeholders.length name "type parameter list")
      fun _ => placeholders.length < 256 := by
    unfold CompileM.byte
    split
    · exact .pure ‹_›
    · exact .fail rfl
  refine hbyte.bind fun _ hlt c hc => ?_
  have hbindings : ∀ e ∈ placeholders.mapIdx fun i p => (p, Ty.placeholder (UInt8.ofNat i)),
      e.2.Over placeholders.length := by
    intro e he
    obtain ⟨i, hi, rfl⟩ := List.mem_mapIdx.mp he
    rw [Ty.Over, UInt8.toNat_ofNat_of_lt' (Nat.lt_trans hi hlt)]
    exact hi
  -- The new template counts among those that were there before its members are read.
  let entered := (c.types.addTemplate
    { name := name.lexeme, placeholders, memberDepth := depth, tokens := c.tokens, token := name }).2
  have hentered : ({ c with types := entered } : Compiler).Under { K with arity? := entered.arity? } :=
    { hc with
      templates := hc.templates.addTemplate rfl
      arity? := fun _ _ => id }
  have hread := grounds_templateMembers hg (K := { K with arity? := entered.arity? })
    (TypeTable.arity?_addTemplate_self _) hbindings depth
  exact hread.weaken (fun i n hn => TypeTable.arity?_addTemplate (hc.arity? i n hn)) _ hentered

theorem grounds_makeInstance (hg : g.Ground) (template : Nat) {definition : StructureTemplate}
    {arguments : List Ty} (harguments : ∀ a ∈ arguments, a.Ground)
    (hfields : ∀ f ∈ definition.fields, f.ty.Over arguments.length) (token : Token) :
    Grounds K (makeInstance g template definition arguments token) := by
  unfold makeInstance
  refine .skip (.modifyGet fun c hc => ?_) fun id => ?_
  · exact hc.withTypes (TypeTable.ground_addStructure hc.structures _ false) rfl
  -- What an instance keeps as fields is ground: the arguments take the places of all parameters.
  have hread := tracks_instanceFields (W := .ground K 0) hg.trackInstances definition definition
    fun _ => ⟨harguments, hfields⟩
  refine .bind hread.meets fun laid hlaid => ?_
  have hground : ∀ f ∈ laid, f.2.Ground := fun f hf =>
    ((Walk.good_prod f).mp ((Walk.good_list laid).mp hlaid f hf)).2.ground rfl
  have hbound : ∀ e ∈ definition.placeholders.zip arguments, e.2.Ground := fun e he =>
    harguments _ (List.of_mem_zip he).2
  refine .skip (grounds_layout hground id token) fun _ => ?_
  exact .skip (grounds_methods hg hbound id _ _ _) fun _ => .pure (Walk.good_none _)

/-- Whether a template has been given as many arguments as it has parameters. -/
theorem checkArgumentCount_run (template n : Nat) (token : Token) (c : Compiler) :
    TypeExpr.checkArgumentCount template n token c =
      match c.types.template? template with
      | none => .ok ((), c)
      | some d => if d.placeholders.length = n then .ok ((), c) else
        .error ⟨token, .typeArgumentCount d.name d.placeholders.length n⟩ := by
  rw [TypeExpr.checkArgumentCount, CompileM.ask_bind]
  cases c.types.template? template with
  | none => rfl
  | some d =>
    dsimp only
    split <;> simp_all <;> rfl

/-- A template that has been given `n` arguments has as many parameters. -/
theorem meets_template? {template n : Nat} {token : Token} {x : Option StructureTemplate → CompileM α}
    {Q : α → Prop} (hnone : Meets K K' (x none) Q)
    (hsome : ∀ d, (∀ f ∈ d.fields, f.ty.Over n) → Meets K K' (x (some d)) Q) :
    Meets K K' (do
      TypeExpr.checkArgumentCount template n token
      x (← CompileM.ask fun c => c.types.template? template)) Q := by
  intro c hc
  -- the lookup sees the state that the check was given
  have hopen : ∀ c, (do
      TypeExpr.checkArgumentCount template n token
      x (← CompileM.ask fun c => c.types.template? template) : CompileM α) c =
      (TypeExpr.checkArgumentCount template n token c >>=
        fun p => x (p.2.types.template? template) p.2) :=
    fun _ => rfl
  rw [hopen, checkArgumentCount_run]
  cases hd : c.types.template? template with
  | none =>
    have hrun := hnone c hc
    rw [← hd] at hrun
    exact hrun
  | some d =>
    dsimp only
    by_cases hlength : d.placeholders.length = n
    · have hrun := hsome d (hlength ▸ hc.templates template d hd) c hc
      rw [← hd] at hrun
      rw [if_pos hlength]
      exact hrun
    · rw [if_neg hlength]
      rfl

/-- Applied to ground types, a template gets as many as it has parameters or is refused. -/
theorem grounds_instantiate (hg : g.Ground) (template : Nat) {arguments : List Ty}
    (harguments : ∀ a ∈ arguments, a.Ground) (token : Token) :
    Grounds K (instantiate g template arguments token) := by
  unfold instantiate
  refine .skip (.look _) fun made => ?_
  split
  · exact .pure (Walk.good_none _)
  refine meets_template? (.fail rfl) fun d hd => ?_
  have hclosed : ¬ arguments.any Ty.containsPlaceholder = true := by
    simpa using fun a ha => (harguments a ha).containsPlaceholder_eq_false
  have hmake : Grounds K (do
      modify fun c => { c with instantiationDepth := c.instantiationDepth + 1 }
      let id ← makeInstance g template d arguments token
      modify fun c => { c with instantiationDepth := c.instantiationDepth - 1 }
      return id) := by
    refine .skip (.modify fun c hc => hc.of_eq rfl rfl rfl rfl rfl) fun _ => ?_
    refine .skip (grounds_makeInstance hg template harguments hd token) fun id => ?_
    refine .skip (.modify fun c hc => hc.of_eq rfl rfl rfl rfl rfl) fun _ => ?_
    exact .pure (Walk.good_none _)
  dsimp only
  rw [if_neg hclosed]
  refine .skip (.look _) fun depth => ?_
  split
  · exact .skip (P := fun _ => True) (.fail rfl) fun _ => hmake
  · exact hmake

end Structure

theorem Statement.grounds_read (hg : g.Ground) (hK : K.Over 0) (depth : Nat) :
    Grounds K (read g depth) :=
  (Statement.tracks_read (hg.track hK) (Structure.tracks_declaration
    (fun name => (Structure.grounds_plain hg name _).tracks _)
    fun name placeholders => (Structure.grounds_template hg name placeholders _).tracks _)).meets

/-! ### Watching the compiler -/

namespace CompileM

/-- Stops at a state to which `stop` assigns an error. -/
def pause (stop : Compiler → Option CompileError) : CompileM Unit := fun c =>
  match stop c with
  | none => .ok ((), c)
  | some e => .error e

/-- Pauses before a computation and after it. -/
def watched (stop : Compiler → Option CompileError) (x : CompileM α) : CompileM α := do
  pause stop
  let a ← x
  pause stop
  return a

end CompileM

/-- The productions, watched wherever one begins or ends. -/
def watchedProductions (stop : Compiler → Option CompileError) : Nat → Productions
  | 0 => productions 0
  | fuel + 1 =>
    let g := watchedProductions stop fuel
    { expression := fun min => CompileM.watched stop (Expression.read g min)
      operand := CompileM.watched stop (Expression.operand g)
      statement := fun depth => CompileM.watched stop (Statement.read g depth)
      typeExpr := fun indirection => CompileM.watched stop (TypeExpr.read g indirection)
      instantiate := fun template arguments token =>
        CompileM.watched stop (Structure.instantiate g template arguments token) }

/-- Reads the statements of a module, watched. -/
def Compiler.watchModule (stop : Compiler → Option CompileError) : CompileM Unit :=
  CompileM.watched stop do
    let g := watchedProductions stop (← CompileM.ask fuel)
    Block.statements g 0 (← CompileM.budget)
    if !(← CompileM.ask atEnd) then CompileM.failExpected (← CompileM.current) "end of file"

/-- Tokenizes and compiles modules after those before them, watched. -/
def watchSources (stop : Compiler → Option CompileError) (c : Compiler) :
    List (String × String) → Except BuildError Compiler
  | [] => .ok c
  | (name, source) :: rest =>
    match tokenize name source with
    | .error e => .error (.scan e)
    | .ok tokens =>
      match Compiler.watchModule stop (c.atModule name tokens) with
      | .error e => .error (.compile e)
      | .ok ((), c) => watchSources stop c rest

/-- The compiler comes to the state `s`: if it is to stop there with an error, and nowhere else, it
stops with that error, whatever the error is.  It is watched where a production begins or ends and
where a module begins or ends.  Whatever is stored in a state is still there when the next
production begins or ends. -/
def Compiler.Visited (modules : List (String × String)) (s : Compiler) : Prop :=
  ∀ (stop : Compiler → Option CompileError) (e : CompileError), stop s = some e →
    (∀ c, c ≠ s → stop c = none) → watchSources stop .start modules = .error (.compile e)

/-! ### With nothing to stop at -/

theorem CompileM.watched_never (x : CompileM α) : watched (fun _ => none) x = x := by
  funext c
  show (x c >>= fun p => (.ok p : Except CompileError (α × Compiler))) = x c
  cases x c <;> rfl

theorem watchedProductions_never (n : Nat) : watchedProductions (fun _ => none) n = productions n := by
  induction n with
  | zero => rfl
  | succ n ih =>
    rw [watchedProductions, ih, productions]
    simp only [CompileM.watched_never]

theorem Compiler.watchModule_never : watchModule (fun _ => none) = readModule := by
  rw [watchModule, CompileM.watched_never]
  simp only [watchedProductions_never]
  rfl

/-- With nothing to stop at, the compiler that is watched is the compiler. -/
theorem watchSources_never (modules : List (String × String)) (c : Compiler) :
    watchSources (fun _ => none) c modules = addSources c modules := by
  induction modules generalizing c with
  | nil => rfl
  | cons m rest ih =>
    obtain ⟨name, source⟩ := m
    rw [watchSources, addSources, addSource, Compiler.watchModule_never]
    cases tokenize name source with
    | error e => rfl
    | ok tokens =>
      dsimp only
      rw [Compiler.addModule]
      cases Compiler.readModule (c.atModule name tokens) with
      | error e => rfl
      | ok p => exact ih p.2

/-! ### Programs -/

section

variable {stop : Compiler → Option CompileError} (hstop : ∀ c : Compiler, c.Ground → stop c = none)
include hstop

theorem CompileM.grounds_pause : Grounds K (pause stop) := by
  intro c hc
  rw [pause, hstop c hc.toGround]
  exact ⟨hc, Walk.good_none _⟩

theorem CompileM.meets_watched {x : CompileM α} {Q : α → Prop} (hx : Meets K K' x Q) :
    Meets K K' (watched stop x) Q :=
  .skip (grounds_pause hstop) fun _ => .bind hx fun _ ha =>
    .skip (grounds_pause hstop) fun _ => .pure ha

/-- The productions of every amount of fuel resolve generics, and are not stopped where only ground
types are kept. -/
theorem ground_watchedProductions (n : Nat) : (watchedProductions stop n).Ground := by
  induction n with
  | zero =>
    exact ⟨fun _ _ => Meets.failFuel, fun _ => Meets.failFuel, fun _ _ => Meets.failFuel,
      fun _ _ => Meets.failFuel, fun _ _ _ => Meets.failFuel⟩
  | succ n ih =>
    exact
      { expression := fun hK min =>
          CompileM.meets_watched hstop (Expression.tracks_read (ih.track hK) min).grounds
        operand := fun hK =>
          CompileM.meets_watched hstop (Expression.tracks_operand (ih.track hK)).grounds
        statement := fun hK depth => CompileM.meets_watched hstop (Statement.grounds_read ih hK depth)
        typeExpr := fun hK indirection => CompileM.meets_watched hstop
          ((TypeExpr.tracks_read (ih.trackTypes hK) indirection).meets.mono fun _ =>
            Walk.good_over.mp)
        instantiate := fun harguments template token => CompileM.meets_watched hstop
          (Structure.grounds_instantiate ih template harguments token) }

theorem Compiler.grounds_watchModule (hK : K.Over 0) : Grounds K (watchModule stop) := by
  refine CompileM.meets_watched hstop ?_
  refine .skip (.look _) fun fuel => .skip CompileM.tracks_budget.grounds fun n => ?_
  have hg := (ground_watchedProductions hstop fuel).track hK
  refine .skip (Block.tracks_statements hg 0 n).grounds fun _ => ?_
  refine .skip (.look _) fun ended => ?_
  split
  · exact .skip CompileM.tracks_current.grounds fun _ => .fail rfl
  · exact .pure (Walk.good_none _)

/-- Modules are compiled from ground states to ground states, or refused for another reason than an
unresolved parameter. -/
theorem watchSources_spec (hK : K.Over 0) (modules : List (String × String)) {c : Compiler}
    (hc : c.Under K) : (∀ c', watchSources stop c modules = .ok c' → c'.Ground) ∧
      ∀ e, watchSources stop c modules = .error (.compile e) → e.cause.isUnresolved = false := by
  induction modules generalizing c with
  | nil =>
    refine ⟨fun c' h => ?_, fun e h => ?_⟩
    · obtain rfl : c = c' := Except.ok.inj h
      exact hc.toGround
    · cases h
  | cons m rest ih =>
    obtain ⟨name, source⟩ := m
    rw [watchSources]
    cases tokenize name source with
    | error e => simp
    | ok tokens =>
      have hrun := Compiler.grounds_watchModule hstop hK (c.atModule name tokens)
        (hc.of_eq rfl rfl rfl rfl rfl)
      dsimp only
      cases hmodule : Compiler.watchModule stop (c.atModule name tokens) with
      | error e =>
        rw [hmodule] at hrun
        simpa using hrun
      | ok p =>
        rw [hmodule] at hrun
        exact ih (c := p.2) hrun.1

end

/-- Before the first module there are no type parameters and no templates. -/
theorem Compiler.under_start : start.Under ⟨[], fun _ => none⟩ where
  scopes s hs := by
    obtain rfl := Array.mem_singleton.mp hs
    exact Scope.ground_default
  structures s hs := absurd hs (Array.not_mem_empty s)
  entry := trivial
  nested := List.forall_mem_nil _
  templates i d hd := by cases hd
  bindings := rfl
  arity? i n hn := by cases hn

theorem Setting.over_start : Setting.Over 0 ⟨[], fun _ => none⟩ := by
  intro layer hlayer
  cases hlayer

/-- Generics leave no traces: no module is refused because a parameter is unresolved, and in every
state that the compiler comes to only ground types are kept, in the variables, in the heads of
functions and methods, in the results of the chunks under construction and in the fields of
structures. -/
theorem generics_resolved (modules : List (String × String)) :
    (∀ token name, compileModules modules ≠ .error (.compile ⟨token, .unresolvedPlaceholder name⟩)) ∧
    (∀ s, Compiler.Visited modules s → s.Ground) ∧
    ∀ c, addSources .start modules = .ok c → c.Ground := by
  have hplain := watchSources_spec (fun _ _ => rfl) Setting.over_start modules Compiler.under_start
  rw [watchSources_never] at hplain
  refine ⟨fun token name h => ?_, fun s hs => ?_, hplain.1⟩
  · rw [compileModules] at h
    cases hadd : addSources .start modules with
    | ok c =>
      rw [hadd] at h
      cases h
    | error e =>
      rw [hadd] at h
      cases h
      exact Bool.noConfusion (hplain.2 _ hadd)
  · -- Stopping at a state with other types, the compiler would refuse a module for this reason.
    by_contra hground
    classical
    let e : CompileError := ⟨s.eof, .unresolvedPlaceholder ""⟩
    let stop : Compiler → Option CompileError := fun c => if c = s then some e else none
    have hstop : ∀ c : Compiler, c.Ground → stop c = none := by
      intro c hc
      refine if_neg ?_
      rintro rfl
      exact hground hc
    have hrun := (watchSources_spec hstop Setting.over_start modules Compiler.under_start).2 e
    exact Bool.noConfusion (hrun (hs stop e (if_pos rfl) fun c hc => if_neg hc))

/-! ### States that the compiler comes to -/

/-- The walk along the watched compiler, which may be cut short. -/
def Walk.watching (e : CompileError) : Walk where
  place := id
  Frame _ _ := True
  cut := some e
  frame _ _ := trivial

section

variable {stop : Compiler → Option CompileError} {e : CompileError}

instance : (Walk.watching e).Loose :=
  ⟨rfl, fun _ _ => trivial, trivial⟩

theorem CompileM.watched_eq_ok {x : CompileM α} {c c' : Compiler} {a : α}
    (h : watched stop x c = .ok (a, c')) : stop c' = none := by
  obtain ⟨_, c₁, -, h⟩ := bind_eq_ok h
  obtain ⟨a', c₂, -, h⟩ := bind_eq_ok h
  obtain ⟨_, c₃, hpause, h⟩ := bind_eq_ok h
  cases h
  rw [pause] at hpause
  split at hpause
  · cases hpause
    assumption
  · cases hpause

variable (hstop : ∀ c, stop c = none ∨ stop c = some e)
include hstop

/-- Where it is not stopped, what is watched does what it would do anyway. -/
theorem CompileM.tracks_watched [HoldsTypes α] {x x' : CompileM α}
    (h : Tracks (.watching e) id x x') : Tracks (.watching e) id x (watched stop x') := by
  have hpause : Tracks (.watching e) id (pure ()) (pause stop) := by
    refine fun c₀ c hc => ⟨?_, hc, Walk.good_none _⟩
    rw [pause]
    obtain hnone | hsome := hstop (c.moved (Walk.watching e).place)
    · rw [hnone]
      exact .done
    · rw [hsome]
      exact .short rfl
  have hx : x = (pure () >>= fun _ => x >>= fun a => pure () >>= fun _ => pure a) := by simp
  rw [hx]
  exact .skip hpause fun _ => .bind h fun a ha => .skip hpause fun _ => .pure ha

/-- The compiler goes along with itself when it is watched. -/
theorem track_watchedProductions (n : Nat) :
    (productions n).Track (.watching e) (watchedProductions stop n) := by
  induction n with
  | zero => exact productions_track 0
  | succ n ih =>
    have hwatched {α : Type} [HoldsTypes α] {x x' : CompileM α}
        (h : Tracks (.watching e) id x x') := CompileM.tracks_watched hstop h
    exact
      { instantiate := fun _ _ _ _ _ => hwatched (Structure.tracks_instantiate ih _ _ _ _)
        typeExpr := fun _ => hwatched (TypeExpr.tracks_read ih.toTrackTypes _)
        bound := fun _ _ _ _ _ => Walk.good_free _
        expression := fun _ => hwatched (Expression.tracks_read ih _)
        operand := hwatched (Expression.tracks_operand ih)
        statement := fun depth => hwatched (ih.statement_read depth) }

theorem Compiler.tracks_watchModule : Tracks (.watching e) id readModule (watchModule stop) :=
  CompileM.tracks_watched hstop (Block.tracks_module (track_watchedProductions hstop))

end

/-- The compiler comes to the state that it leaves after its last module. -/
theorem Compiler.visited_of_addSources {modules : List (String × String)} {c : Compiler}
    (h : addSources .start modules = .ok c) (hmodules : modules ≠ []) : Visited modules c := by
  intro stop e hend helse
  have hstop : ∀ c, stop c = none ∨ stop c = some e := by
    intro c'
    by_cases hc : c' = c
    · exact .inr (hc ▸ hend)
    · exact .inl (helse c' hc)
  generalize start = c₀ at h
  induction modules generalizing c₀ with
  | nil => exact absurd rfl hmodules
  | cons m rest ih =>
    obtain ⟨name, source⟩ := m
    rw [addSources, addSource] at h
    rw [watchSources]
    cases htokens : tokenize name source with
    | error e' =>
      rw [htokens] at h
      cases h
    | ok tokens =>
      rw [htokens] at h
      dsimp only at h ⊢
      rw [addModule] at h
      cases hread : readModule (c₀.atModule name tokens) with
      | error e' =>
        rw [hread] at h
        cases h
      | ok p =>
        rw [hread] at h
        have hrun := tracks_watchModule hstop c₀ (c₀.atModule name tokens) (Walk.at_ _ _)
        rw [hread] at hrun
        have hyields : Walk.Yields _ (p.1, p.2.moved id) (watchModule stop (Compiler.moved id _)) :=
          hrun.1
        rw [moved_id, moved_id] at hyields
        generalize hwatch : watchModule stop (c₀.atModule name tokens) = r at hyields
        cases hyields with
        | short he =>
          obtain rfl := Option.some.inj he
          rfl
        | alone h _ => exact absurd h id
        | done =>
          cases rest with
          | nil =>
            cases h
            rw [CompileM.watched_eq_ok hwatch] at hend
            cases hend
          | cons m' rest => exact ih (List.cons_ne_nil m' rest) _ h

/-- Pairs of boxes, where the boxes wait for the arguments of the pair. -/
def pairSource : String :=
  "structure Box<T>\n    field T item\n    field Box<T>* next\n" ++
    "    function get() returns T\n        return self.item\n" ++
    "structure Pair<A, B>\n    field Box<A> first\n    field Box<B[]>* rest\n" ++
    "var p = Pair<Int, Box<Float>> \x7b\x7d\n"

/-- Four instances are made for one pair; the compiler comes to the state that keeps them. -/
theorem generics_resolved_of_pairs : ∃ c,
    addSources .start [("pairs", pairSource)] = .ok c ∧ c.types.templates.size = 2 ∧
    c.types.structures.toList.map StructureType.name =
      ["Box<Float>", "Pair<Int, Box<Float>>", "Box<Int>", "Box<Box<Float>[]>"] ∧
    Compiler.Visited [("pairs", pairSource)] c ∧ c.Ground := by
  have hcompile : ((addSources .start [("pairs", pairSource)]).toOption.map fun c =>
      (c.types.templates.size, c.types.structures.toList.map StructureType.name)) =
        some (2, ["Box<Float>", "Pair<Int, Box<Float>>", "Box<Int>", "Box<Box<Float>[]>"]) := by
    have hchars : pairSource.toList = _ :=
      toList_append_of (toList_append_of (toList_append_of String.toList_ofList
        String.toList_ofList) String.toList_ofList) String.toList_ofList
    rw [addSources, addSource, tokenize_of_toList hchars]
    decide +kernel
  obtain ⟨-, hvisited, -⟩ := generics_resolved [("pairs", pairSource)]
  cases hadd : addSources .start [("pairs", pairSource)] with
  | error e =>
    rw [hadd] at hcompile
    cases hcompile
  | ok c =>
    rw [hadd] at hcompile
    obtain ⟨htemplates, hstructures⟩ := Prod.mk.inj (Option.some.inj hcompile)
    have hcomes := Compiler.visited_of_addSources hadd (List.cons_ne_nil _ _)
    exact ⟨c, rfl, htemplates, hstructures, hcomes, hvisited c hcomes⟩

end WordScript
