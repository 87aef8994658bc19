/-
Where the bodies of methods are read.

The members of a structure are found before any of its methods is compiled, and an
instance of a template compiles them long after the template has been read.  The
places that are kept for this lead lines: each is the first behind the indents of a
line of the depth of the members, and the body of the method is read from further
along that line.  So an `else` in the body of a method is bound like one in the body
of a function.

* `Structure.BodyBound` — the body of the method at some place has been read, and every
  `else` in it is bound;
* `Structure.bodies_of_methods` — all methods that are compiled together;
* `TypeTable.Placed` — every template keeps places that lead lines;
* `Structure.bodies_of_statement`, `Structure.bodies_of_instantiate` — the methods of a
  structure that is declared, and those of an instance;
* `productions_keepPlaced`, `Compiler.placed_of_addSources` — templates are in place at
  all times.

Design notes: a body may end before the block of its method does, namely before an `else`
in the middle of a line, and what is left there is read by nobody.  That is why
`BodyBound` speaks of what the reading of the body passes.
-/
import WordScript.Proofs.ElseBinding
import WordScript.Proofs.GenericInstances

namespace WordScript

variable {g : Productions} {n depth : Nat} {c c' c₁ : Compiler}

namespace Structure

/-! ### Bodies that are read -/

/-- The body of the method at `k` has been read, from further along its line, and every `else` that
was passed is bound. -/
def BodyBound (n : Nat) (tokens : Array Token) (depth k : Nat) : Prop :=
  ∃ c c' : Compiler, c.tokens = tokens ∧ SameLine tokens k c.cursor ∧
    Site.Reads ⟨n, .tail depth, c⟩ c' ∧
    ∀ j, c.cursor ≤ j → j < c'.cursor → kindIn tokens j = .keyword .else_ →
      Site.Bound ⟨n, .tail depth, c⟩ j

/-- A body that is read along a line of the depth of its method is bound. -/
theorem BodyBound.of_reads {k : Nat} (hline : OnLine c.tokens depth k)
    (hsame : SameLine c.tokens k c.cursor) (h : Site.Reads ⟨n, .tail depth, c⟩ c') :
    BodyBound n c.tokens depth k := by
  refine ⟨c, c', rfl, hsame, h, fun j hle hlt helse => ?_⟩
  obtain ⟨hcovered, -⟩ := Site.settled_tail (Site.settles _ _) .refl h
  exact hcovered.bound ⟨rfl, .inl (hline.trans hsame)⟩ hle hlt helse

/-- The head of a method ends on the line where it begins. -/
theorem sameLine_of_methodHead (hg : g.Inline) {id at_ : Nat} {m : PendingMethod}
    (h : methodHead g id at_ c = .ok (m, c')) :
    c'.tokens = c.tokens ∧ SameLine c.tokens at_ m.body ∧
      ∃ chunk, m.header.kind = .script chunk := by
  unfold methodHead at h
  obtain ⟨_, c₁, hmove, h⟩ := CompileM.bind_eq_ok h
  cases hmove
  obtain ⟨s, c₂, hsignature, h⟩ := CompileM.bind_eq_ok h
  rw [CompileM.ask_bind] at h
  split at h
  · exact absurd h (Fails.bind_left (.failRedeclared _) _ _ _ _)
  obtain ⟨chunk, c₃, hchunk, h⟩ := CompileM.bind_eq_ok h
  obtain ⟨_, c₄, hmodify, h⟩ := CompileM.bind_eq_ok h
  cases hmodify
  cases h
  have halong := Function.inlines_signature hg _ _ _ hsignature
  have hbeside := (Function.tracks_reserveChunk _ _ _).idle.beside_of_eq_ok hchunk
  refine ⟨hbeside.tokens.trans halong.tokens, ?_, chunk, rfl⟩
  show SameLine c.tokens at_ c₃.cursor
  rw [hbeside.cursor]
  exact halong.sameLine

/-- All heads are read before the first body, each along its line. -/
theorem sameLine_of_heads (hg : g.Inline) {id : Nat} {ats : List Nat} {ms : List PendingMethod}
    (h : ats.mapM (methodHead g id) c = .ok (ms, c')) :
    c'.tokens = c.tokens ∧ (∀ at_ ∈ ats, ∃ m ∈ ms, SameLine c.tokens at_ m.body) ∧
      ∀ m ∈ ms, ∃ chunk, m.header.kind = .script chunk := by
  induction ats generalizing c ms with
  | nil =>
    cases h
    exact ⟨rfl, List.forall_mem_nil _, List.forall_mem_nil _⟩
  | cons at_ ats ih =>
    rw [List.mapM_cons] at h
    obtain ⟨m, c₁, hhead, h⟩ := CompileM.bind_eq_ok h
    obtain ⟨ms, c₂, hheads, h⟩ := CompileM.bind_eq_ok h
    cases h
    obtain ⟨htokens₁, hsame, hscript⟩ := sameLine_of_methodHead hg hhead
    obtain ⟨htokens₂, hall, hscripts⟩ := ih hheads
    rw [htokens₁] at hall
    refine ⟨htokens₂.trans htokens₁, List.forall_mem_cons.mpr ⟨?_, fun k hk => ?_⟩,
      List.forall_mem_cons.mpr ⟨hscript, hscripts⟩⟩
    · exact ⟨m, List.mem_cons_self, hsame⟩
    · obtain ⟨m', hm', hsame'⟩ := hall k hk
      exact ⟨m', List.mem_cons_of_mem m hm', hsame'⟩

/-- Between the head of a method and its body nothing is read. -/
theorem reads_of_body {header : FunctionHeader} {name : Token} {chunk : UInt16}
    (hkind : header.kind = .script chunk)
    (h : Function.body (productions n) header depth name c = .ok ((), c')) :
    ∃ c₁ c₂, c.Beside c₁ ∧ Site.Reads ⟨n, .tail depth, c₁⟩ c₂ := by
  rw [Function.body, hkind] at h
  obtain ⟨_, c₁, hopen, h⟩ := CompileM.bind_eq_ok h
  obtain ⟨_, c₂, hparameters, h⟩ := CompileM.bind_eq_ok h
  obtain ⟨_, c₃, htail, -⟩ := CompileM.bind_eq_ok h
  have hopened := (Function.tracks_open_ (Walk.good_free _) _).idle.beside_of_eq_ok hopen
  have hdeclared :=
    (Function.tracks_declareParameters (Walk.good_free _) _ _).idle.beside_of_eq_ok hparameters
  exact ⟨c₂, c₃, hopened.trans hdeclared, htail⟩

/-- The bodies of methods, each read from where its head ends. -/
theorem reads_of_bodies {ms : List PendingMethod}
    (hscript : ∀ m ∈ ms, ∃ chunk, m.header.kind = .script chunk)
    (h : (ms.forM fun m => do
      CompileM.moveTo m.body
      Function.body (productions n) m.header depth m.name) c = .ok ((), c')) :
    ∀ m ∈ ms, ∃ c₁ c₂, c₁.tokens = c.tokens ∧ c₁.cursor = m.body ∧
      Site.Reads ⟨n, .tail depth, c₁⟩ c₂ := by
  induction ms generalizing c with
  | nil => exact List.forall_mem_nil _
  | cons m ms ih =>
    obtain ⟨⟨chunk, hkind⟩, hscript⟩ := List.forall_mem_cons.mp hscript
    obtain ⟨_, c₁, hfirst, hrest⟩ := CompileM.bind_eq_ok h
    obtain ⟨_, c₀, hmove, hbody⟩ := CompileM.bind_eq_ok hfirst
    cases hmove
    refine List.forall_mem_cons.mpr ⟨?_, ?_⟩
    · obtain ⟨c₂, c₃, hbeside, hreads⟩ := reads_of_body hkind hbody
      exact ⟨c₂, c₃, hbeside.tokens, hbeside.cursor, hreads⟩
    · -- a body leaves the tokens to the next one
      have hlater := (Function.tracks_body (productions_instantiate n).later.track
        (Walk.good_free _) _ _ _).respects _ _ _ hbody
      have htokens : c₁.tokens = c.tokens := hlater.tokens
      rw [← htokens]
      exact ih hscript hrest

/-- Methods that lead lines of some depth are read there. -/
theorem bodies_of_methods {id : Nat} {ats : List Nat} {tokens : Array Token} {bindings : Bindings}
    (h : methods (productions n) id ats depth tokens bindings c = .ok ((), c'))
    (hleads : ∀ k ∈ ats, Leads tokens depth k) : ∀ k ∈ ats, BodyBound n tokens depth k := by
  unfold methods at h
  have h := (CompileM.ask_bind _ _ c).symm.trans h
  have h := (CompileM.ask_bind _ _ c).symm.trans h
  obtain ⟨_, c₁, hinto, h⟩ := CompileM.bind_eq_ok h
  cases hinto
  obtain ⟨_, c₂, hbodies, -⟩ := CompileM.bind_eq_ok h
  unfold methodBodies at hbodies
  obtain ⟨pending, c₃, hheads, hbodies⟩ := CompileM.bind_eq_ok hbodies
  obtain ⟨htokens, hall, hscript⟩ := sameLine_of_heads (productions_inline n) hheads
  intro k hk
  obtain ⟨m, hm, hsame⟩ := hall k hk
  obtain ⟨c₄, c₅, htokens₄, hcursor, hbody⟩ := reads_of_bodies hscript hbodies m hm
  obtain rfl : c₄.tokens = tokens := htokens₄.trans htokens
  exact .of_reads (hleads k hk).onLine (hcursor ▸ hsame) hbody

/-- A structure without type parameters reads the bodies of the methods among its members. -/
theorem bodies_of_plain {name : Token} (hdepth : depth ≠ 0) (hc : c.Rests)
    (h : plain (productions n) name depth c = .ok ((), c')) : ∃ found c₁ c₂,
      c₁.tokens = c.tokens ∧ c₁.cursor = c.cursor ∧
      members (productions n) depth [] c₁ = .ok (found, c₂) ∧
      ∀ k ∈ found.2, Leads c.tokens depth k ∧ BodyBound n c.tokens depth k := by
  unfold plain at h
  obtain ⟨id, c₁, hadd, h⟩ := CompileM.bind_eq_ok h
  cases hadd
  obtain ⟨found, c₂, hmembers, h⟩ := CompileM.bind_eq_ok h
  obtain ⟨_, c₃, hlayout, h⟩ := CompileM.bind_eq_ok h
  have h := (CompileM.ask_bind _ _ c₃).symm.trans h
  obtain ⟨htokens, -, hleads⟩ := rests_members (productions_inline n) hdepth [] hmembers hc
  have hbeside := (idle_layout _ _ _).beside_of_eq_ok hlayout
  rw [hbeside.tokens.trans htokens] at h
  refine ⟨found, _, c₂, ?_, ?_, hmembers, fun k hk => ?_⟩
  · rfl
  · rfl
  exact ⟨hleads k hk, bodies_of_methods h hleads k hk⟩

end Structure

/-! ### Templates -/

/-- The methods that a template keeps lead lines of the depth of its members. -/
def TypeTable.Placed (t : TypeTable) : Prop :=
  ∀ template d, t.template? template = some d → ∀ k ∈ d.methods, Leads d.tokens d.memberDepth k

/-- The templates of the later state are in place if those of the earlier one are. -/
def Compiler.KeepsPlaced (c c' : Compiler) : Prop :=
  c.types.Placed → c'.types.Placed

instance : Framing Compiler.KeepsPlaced where
  same htypes _ _ := by
    rw [Compiler.KeepsPlaced, htypes]
    exact id
  trans h₁ h₂ h := h₂ (h₁ h)

theorem TypeTable.Placed.of_templates {t t' : TypeTable} (ht : t.Placed)
    (h : t'.templates = t.templates) : t'.Placed := by
  intro template d hd
  rw [template?, h] at hd
  exact ht template d hd

/-- A template is entered without methods. -/
theorem TypeTable.Placed.addTemplate {t : TypeTable} (ht : t.Placed) {d : StructureTemplate}
    (hnone : d.methods = []) : (t.addTemplate d).2.Placed := by
  intro template d' hd
  rw [template?_addTemplate] at hd
  split at hd
  · cases hd
    rw [hnone]
    exact List.forall_mem_nil _
  · exact ht template d' hd

theorem Respects.of_templates {α : Type} {f : Compiler → α × Compiler}
    (h : ∀ c, (f c).2.types.templates = c.types.templates) :
    Respects Compiler.KeepsPlaced (modifyGet f : CompileM α) := by
  intro c a c' hx hc
  have hx : (Except.ok (f c) : Except CompileError (α × Compiler)) = .ok (a, c') := hx
  obtain rfl : (f c).2 = c' := congrArg Prod.snd (Except.ok.inj hx)
  exact hc.of_templates (h c)

namespace Structure

theorem bodies_of_makeInstance {template id : Nat} {d : StructureTemplate} {arguments : List Ty}
    {token : Token} (hleads : ∀ k ∈ d.methods, Leads d.tokens d.memberDepth k)
    (h : makeInstance (productions n) template d arguments token c = .ok (id, c')) :
    ∀ k ∈ d.methods, BodyBound n d.tokens d.memberDepth k := by
  unfold makeInstance at h
  obtain ⟨_, c₁, -, h⟩ := CompileM.bind_eq_ok h
  obtain ⟨fields, c₂, -, h⟩ := CompileM.bind_eq_ok h
  obtain ⟨_, c₃, -, h⟩ := CompileM.bind_eq_ok h
  obtain ⟨_, c₄, hmethods, -⟩ := CompileM.bind_eq_ok h
  exact bodies_of_methods hmethods hleads

/-- A new instance reads the bodies of the methods that its template keeps. -/
theorem bodies_of_instantiate {template id : Nat} {arguments : List Ty} {token : Token}
    (hplaced : c.types.Placed) (hnone : c.types.instance? template arguments = none)
    (h : instantiate (productions n) template arguments token c = .ok (id, c')) :
    ∃ d, c.types.template? template = some d ∧
      ∀ k ∈ d.methods, Leads d.tokens d.memberDepth k ∧ BodyBound n d.tokens d.memberDepth k := by
  obtain ⟨hfound, -⟩ | ⟨-, d, c₁, c₂, hd, -, hmake, -⟩ := instantiate_eq_ok h
  · rw [hnone] at hfound
    cases hfound
  refine ⟨d, hd, fun k hk => ⟨hplaced template d hd k hk, ?_⟩⟩
  exact bodies_of_makeInstance (hplaced template d hd) hmake k hk

/-! ### Templates stay in place -/

theorem keepsPlaced_methodHead (hg : g.Respect Compiler.KeepsPlaced) (id at_ : Nat) :
    Respects Compiler.KeepsPlaced (methodHead g id at_) := by
  intro c m c' h hc
  obtain ⟨s, c₁, chunk, hsignature, htypes, -, -⟩ := methodHead_spec h
  have hread := Function.tracks_signature hg.track.toTrackTypes
  refine (hread.respects_left _ _ _ hsignature hc).of_templates ?_
  rw [htypes]
  rfl

theorem keepsPlaced_methods (hg : g.Respect Compiler.KeepsPlaced) (id : Nat) (ats : List Nat)
    (depth : Nat) (tokens : Array Token) (bindings : Bindings) :
    Respects Compiler.KeepsPlaced (methods g id ats depth tokens bindings) := by
  unfold methods
  refine .bind (.ask _) fun here => .bind CompileM.tracks_cursor.respects fun place => ?_
  refine .bind (.of_templates fun _ => rfl) fun _ => .bind ?_ fun _ => .of_templates fun _ => rfl
  unfold methodBodies
  refine .bind (.mapM (keepsPlaced_methodHead hg id) ats) fun pending => .forM (fun m => ?_) pending
  refine .bind (CompileM.tracks_moveTo _).respects fun _ => ?_
  exact (Function.tracks_body hg.track (Walk.good_free _) _ _ _).respects

theorem keepsPlaced_layout (id : Nat) (fields : List (String × Ty)) (token : Token) :
    Respects Compiler.KeepsPlaced (layout id fields token) := by
  intro c _ c' h hc
  obtain ⟨laid, words, -, rfl⟩ := layout_spec h
  exact hc.of_templates rfl

theorem keepsPlaced_instantiate (hg : g.Respect Compiler.KeepsPlaced) (template : Nat)
    (arguments : List Ty) (token : Token) :
    Respects Compiler.KeepsPlaced (instantiate g template arguments token) := by
  intro c id c' h
  obtain ⟨-, rfl⟩ | ⟨-, d, c₁, c₂, -, hstill, hmake, rfl⟩ := instantiate_eq_ok h
  · exact Framing.same rfl rfl rfl
  · have hmakes : Respects Compiler.KeepsPlaced (makeInstance g template d arguments token) := by
      unfold makeInstance
      refine .bind (.of_templates fun _ => rfl) fun id => ?_
      refine .bind (respects_instanceFields hg d _ _) fun fields => ?_
      refine .bind (keepsPlaced_layout _ _ _) fun _ => ?_
      exact .bind (keepsPlaced_methods hg _ _ _ _ _) fun _ => .pure id
    intro hc
    exact hmakes c₁ id c₂ hmake (hstill.types.symm ▸ hc)

theorem keepsPlaced_members (hg : g.Respect Compiler.KeepsPlaced) (depth : Nat)
    (bindings : Bindings) : Respects Compiler.KeepsPlaced (members g depth bindings) := by
  unfold members
  refine .bind (.of_templates fun _ => rfl) fun _ => ?_
  refine .bind (Block.tracks_requireLine _).respects fun _ => ?_
  refine .bind CompileM.tracks_budget.respects fun n => ?_
  have hread := tracks_memberLines hg.track.toTrackTypes depth n (Walk.good_free []) []
  refine .bind hread.respects_left fun found => ?_
  exact .bind (.of_templates fun _ => rfl) fun _ => .pure found

theorem keepsPlaced_plain (hg : g.Respect Compiler.KeepsPlaced) (name : Token) (depth : Nat) :
    Respects Compiler.KeepsPlaced (plain g name depth) := by
  unfold plain
  refine .bind (.of_templates fun _ => rfl) fun id => ?_
  refine .bind (keepsPlaced_members hg _ _) fun found => ?_
  refine .bind (keepsPlaced_layout _ _ _) fun _ => .bind (.ask _) fun tokens => ?_
  exact keepsPlaced_methods hg _ _ _ _ _

/-- A template is entered without methods, and later takes over those that have been found. -/
theorem template_spec {name : Token} {placeholders : List String} (hdepth : depth ≠ 0)
    (hc : c.Rests) (h : template (productions n) name placeholders depth c = .ok ((), c')) :
    ∃ found bindings c₁ c₂ id d, c₁.tokens = c.tokens ∧ c.KeepsPlaced c₁ ∧
      members (productions n) depth bindings c₁ = .ok (found, c₂) ∧
      (∀ k ∈ found.2, Leads c.tokens depth k) ∧
      (d.methods = found.2 ∧ d.tokens = c.tokens ∧ d.memberDepth = depth) ∧
      ∀ i, c'.types.template? i = if id = i then some d else c₂.types.template? i := by
  unfold template at h
  obtain ⟨_, c₁, hbyte, h⟩ := CompileM.bind_eq_ok h
  obtain ⟨id, c₂, hadd, h⟩ := CompileM.bind_eq_ok h
  cases hadd
  obtain ⟨found, c₃, hmembers, h⟩ := CompileM.bind_eq_ok h
  cases h
  have hbeside := (CompileM.tracks_byte _ _).idle.beside_of_eq_ok hbyte
  have hbefore : c.KeepsPlaced c₁ := (CompileM.tracks_byte _ _).respects _ _ _ hbyte
  obtain ⟨-, -, hleads⟩ :=
    rests_members (productions_inline n) hdepth _ hmembers (hbeside.rests hc)
  obtain ⟨hlater, -⟩ := members_spec (productions_instantiate n) hmembers
  have hentered := (TypeTable.template?_addTemplate c₁.types
    ⟨name.lexeme, placeholders, [], [], depth, c₁.tokens, name⟩ _).trans (if_pos rfl)
  refine ⟨found, _, _, c₃, c₁.types.templates.size,
    ⟨name.lexeme, placeholders, found.1, found.2, depth, c₁.tokens, name⟩, ?_, ?_, hmembers, ?_,
    ⟨rfl, hbeside.tokens, rfl⟩, fun i => ?_⟩
  · exact hbeside.tokens
  · exact fun h => (hbefore h).addTemplate rfl
  · rw [← hbeside.tokens]
    exact hleads
  · rw [TypeTable.template?_modifyTemplate]
    split
    · next hi => rw [← hi, hlater.types.templates hentered, Option.map_some]
    · rfl

theorem keepsPlaced_template (hg : (productions n).Respect Compiler.KeepsPlaced) {name : Token}
    {placeholders : List String} (hdepth : depth ≠ 0) (hc : c.Rests)
    (h : template (productions n) name placeholders depth c = .ok ((), c')) : c.KeepsPlaced c' := by
  obtain ⟨found, bindings, c₁, c₂, id, d, htokens, hbefore, hmembers, hleads,
    ⟨hmethods, hd, hdepth⟩, htemplates⟩ := template_spec hdepth hc h
  intro hplaced template d' hd'
  rw [htemplates] at hd'
  split at hd'
  · cases hd'
    rw [hmethods, hd, hdepth]
    exact hleads
  · exact keepsPlaced_members hg _ _ _ _ _ hmembers (hbefore hplaced) template d' hd'

theorem keepsPlaced_declaration (hg : (productions n).Respect Compiler.KeepsPlaced) (depth : Nat) :
    Respects Compiler.KeepsPlaced (declaration (productions n) depth) := by
  intro c _ c' h
  obtain ⟨name, token, c₀, c₁, hstill, -, hline, hplain | ⟨placeholders, htemplate⟩⟩ :=
    declaration_eq_ok h
  · exact Framing.trans (Framing.same hstill.types hstill.tokens hstill.bindings)
      (keepsPlaced_plain hg _ _ _ _ _ hplain)
  · obtain ⟨-, hrests⟩ := CompileM.rests_of_terminator hline
    exact Framing.trans (Framing.same hstill.types hstill.tokens hstill.bindings)
      (keepsPlaced_template hg (Nat.succ_ne_zero depth) hrests htemplate)

/-- A structure is declared by a statement: the bodies of its methods are read, or the methods are
kept by a template. -/
theorem bodies_of_statement (hkind : c.kindAt c.cursor = .keyword .structure_)
    (h : Site.Reads ⟨n + 1, .statement depth, c⟩ c') : ∃ found bindings c₁ c₂,
      c₁.tokens = c.tokens ∧ members (productions n) (depth + 1) bindings c₁ = .ok (found, c₂) ∧
      (∀ k ∈ found.2, Leads c.tokens (depth + 1) k) ∧
      ((∀ k ∈ found.2, BodyBound n c.tokens (depth + 1) k) ∨
        ∃ template d, c'.types.template? template = some d ∧
          d.methods = found.2 ∧ d.tokens = c.tokens ∧ d.memberDepth = depth + 1) := by
  have h : Statement.read (productions n) depth c = .ok ((), c') := h
  rw [Statement.read] at h
  have h := (CompileM.ask_bind _ _ c).symm.trans h
  rw [hkind] at h
  obtain ⟨_, c₁, htop, h⟩ := CompileM.bind_eq_ok h
  have hbeside := (Statement.tracks_requireTopLevel _).idle.beside_of_eq_ok htop
  obtain ⟨name, token, c₀, c₂, hstill, -, hline, hdeclared⟩ := declaration_eq_ok h
  obtain ⟨-, hrests⟩ := CompileM.rests_of_terminator hline
  have htokens : c₂.tokens = c.tokens := hstill.tokens.trans hbeside.tokens
  rw [← htokens]
  obtain hplain | ⟨placeholders, htemplate⟩ := hdeclared
  · obtain ⟨found, c₃, c₄, htokens₃, -, hmembers, hall⟩ :=
      bodies_of_plain (Nat.succ_ne_zero depth) hrests hplain
    exact ⟨found, [], c₃, c₄, htokens₃, hmembers, fun k hk => (hall k hk).1,
      .inl fun k hk => (hall k hk).2⟩
  · obtain ⟨found, bindings, c₃, c₄, id, d, htokens₃, -, hmembers, hleads, hd, htemplates⟩ :=
      template_spec (Nat.succ_ne_zero depth) hrests htemplate
    exact ⟨found, bindings, c₃, c₄, htokens₃, hmembers, hleads,
      .inr ⟨id, d, (htemplates id).trans (if_pos rfl), hd⟩⟩

end Structure

/-- Whatever is read, every template keeps places that lead lines. -/
theorem productions_keepPlaced (n : Nat) : (productions n).Respect Compiler.KeepsPlaced := by
  induction n with
  | zero =>
    exact ⟨fun _ => .failFuel, .failFuel, fun _ => .failFuel, fun _ => .failFuel,
      fun _ _ _ => .failFuel⟩
  | succ n ih =>
    have htrack := ih.track
    refine ⟨fun min => (Expression.tracks_read htrack min).respects,
      (Expression.tracks_operand htrack).respects, fun depth => ?_,
      fun indirection => (TypeExpr.tracks_read htrack.toTrackTypes indirection).respects,
      Structure.keepsPlaced_instantiate ih⟩
    have hstructure := Structure.keepsPlaced_declaration ih depth
    exact (Statement.tracks_read htrack (hstructure.tracks _)).respects

theorem Compiler.placed_of_addSources {modules : List (String × String)}
    (h : addSources .start modules = .ok c) : c.types.Placed :=
  types_of_addSources (T := fun t t' => t.Placed → t'.Placed) (fun _ => id)
    (fun h₁ h₂ h => h₂ (h₁ h)) (respects_readModule productions_keepPlaced _ _ _) h
    fun _ _ hd => by cases hd

end WordScript
