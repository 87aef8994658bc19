/-
Structures keep the discipline of the stack.

A structure is entered without a layout, and what is read until it has one may point
to it but not depend on its size.  Its methods are compiled afterwards, all heads
before the first body.

* `Outlook.make` — a structure that waits for its layout;
* `Stage.Ready.resolve`, `Stage.Ready.members` — the types of its fields;
* `Stage.Ready.methods` — its methods;
* `Stage.Ready.construct` — the three of them one after the other;
* `Stage.Ready.instantiate`, `Stage.Rests.structure_` — instances and declarations.
-/
import WordScript.Proofs.Functions

namespace WordScript

/-- A structure waits for its layout.  The functions that are known already do not mention it. -/
def Outlook.make (G : Outlook) (id : Nat) : Outlook :=
  { G with
    making := fun j => j = id ∨ G.making j
    headers := fun f => f.Bounded id ∧ G.headers f }

/-- Some functions wait for their code. -/
def Outlook.oweAll (G : Outlook) (headers : List FunctionHeader) : Outlook :=
  { G with
    chunks := fun i => (∃ f ∈ headers, ∃ k, f.kind = .script k ∧ k.toNat = i) ∨ G.chunks i
    headers := fun f => f ∈ headers ∨ G.headers f }

namespace Stage

variable {D : Debts} {G : Outlook} {s s' : Stage} {n : Nat} {g : Productions} {header : FunctionHeader}
  {id : Nat}

/-! ### Types of fields -/

mutual

theorem Ready.resolve (hg : g.Disciplined) (token : Token) : ∀ (ty : Ty) {s : Stage}, s.Ready G n →
    ty.Bounded s.types.structures.size →
    Moves .value s (TypeExpr.resolve g token ty) fun ty' s' =>
      ty'.Bounded s'.types.structures.size ∧ s'.Ready G n
  | .generic template args, s, h, hb => by
    rw [TypeExpr.resolve]
    refine Moves.bind (Ready.resolveAll hg token args h (Ty.bounded_generic.mp hb))
      fun args' s₁ _ ⟨hargs, hs₁⟩ => ?_
    refine Moves.bind (hg.instantiate template args' token hs₁ hargs) fun id s₂ _ ⟨hid, hs₂⟩ => ?_
    exact .pure ⟨Ty.bounded_structure.mpr hid, hs₂⟩
  | .span element length, s, h, hb => by
    rw [TypeExpr.resolve]
    exact Moves.bind (Ready.resolve hg token element h (Ty.bounded_span.mp hb))
      fun ty s₁ _ ⟨hty, hs₁⟩ => .pure ⟨Ty.bounded_span.mpr hty, hs₁⟩
  | .list element, s, h, hb => by
    rw [TypeExpr.resolve]
    exact Moves.bind (Ready.resolve hg token element h (Ty.bounded_list.mp hb))
      fun ty s₁ _ ⟨hty, hs₁⟩ => .pure ⟨Ty.bounded_list.mpr hty, hs₁⟩
  | .pointer element, s, h, hb => by
    rw [TypeExpr.resolve]
    exact Moves.bind (Ready.resolve hg token element h (Ty.bounded_pointer.mp hb))
      fun ty s₁ _ ⟨hty, hs₁⟩ => .pure ⟨Ty.bounded_pointer.mpr hty, hs₁⟩
  | .reference element, s, h, hb => by
    rw [TypeExpr.resolve]
    exact Moves.bind (Ready.resolve hg token element h (Ty.bounded_reference.mp hb))
      fun ty s₁ _ ⟨hty, hs₁⟩ => .pure ⟨Ty.bounded_reference.mpr hty, hs₁⟩
  | .placeholder _, s, _, _ => by
    rw [TypeExpr.resolve]
    exact (Fails.fail _ _).moves
  | .void, s, h, hb | .bool, s, h, hb | .int, s, h, hb | .float, s, h, hb | .string, s, h, hb
  | .structure_ _, s, h, hb => by
    rw [TypeExpr.resolve]
    exact .pure ⟨hb, h⟩

theorem Ready.resolveAll (hg : g.Disciplined) (token : Token) : ∀ (tys : List Ty) {s : Stage},
    s.Ready G n → (∀ ty ∈ tys, ty.Bounded s.types.structures.size) →
    Moves .value s (TypeExpr.resolveAll g token tys) fun tys' s' =>
      (∀ ty ∈ tys', ty.Bounded s'.types.structures.size) ∧ s'.Ready G n
  | [], s, h, _ => by
    rw [TypeExpr.resolveAll]
    exact .pure ⟨fun _ hty => (nomatch hty), h⟩
  | ty :: tys, s, h, hb => by
    rw [TypeExpr.resolveAll]
    refine Moves.bind (Ready.resolve hg token ty h (hb ty List.mem_cons_self))
      fun ty' s₁ hle₁ ⟨hty, hs₁⟩ => ?_
    refine Moves.bind (Ready.resolveAll hg token tys hs₁
      fun t ht => hle₁.types.bounded (hb t (List.mem_cons_of_mem _ ht)))
      fun tys' s₂ hle₂ ⟨htys, hs₂⟩ => .pure ⟨fun t ht => ?_, hs₂⟩
    cases ht with
    | head => exact hle₂.types.bounded hty
    | tail _ ht => exact htys t ht

end

theorem Ready.field (hg : g.Disciplined) (h : s.Ready G n) (done : List FieldTemplate) :
    Moves .value s (Structure.field g done) fun f s' =>
      f.ty.Bounded s'.types.structures.size ∧ s'.Ready G n := by
  refine Moves.read .advance fun _ _ => Moves.read .current fun token _ => ?_
  refine Moves.bind (h.typeExpr hg true) fun ty s₁ _ ⟨hty, hs₁⟩ => ?_
  extract_lets finish
  have hdone : ∀ u, Moves .value s₁ (finish u) fun f s' =>
      f.ty.Bounded s'.types.structures.size ∧ s'.Ready G n := by
    intro _
    refine Moves.read (.identifier _) fun name _ => Moves.guard (.failRedeclared _) fun _ => ?_
    exact Moves.read .endStatement fun _ _ => .pure ⟨hty, hs₁⟩
  split
  · exact Fails.moves (.bind fun _ => .bind_left (.failMismatch _ _ _) _)
  · exact Fails.moves (.bind fun _ => .bind_left (.failMismatch _ _ _) _)
  · exact hdone ()

theorem Ready.memberLines (hg : g.Disciplined) (depth : Nat) : ∀ (budget : Nat) {s : Stage}
    {fields : List FieldTemplate} (methods : List Nat),
    (∀ f ∈ fields, f.ty.Bounded s.types.structures.size) → s.Ready G n →
      Moves .value s (Structure.memberLines g depth budget fields methods) fun r s' =>
        (∀ f ∈ r.1, f.ty.Bounded s'.types.structures.size) ∧ s'.Ready G n := by
  intro budget
  induction budget with
  | zero => exact fun _ _ _ => Fails.failFuel.moves
  | succ budget ih =>
    intro s fields methods hfields h
    refine Moves.read (.of_ask _) fun level _ => Moves.read (.of_ask _) fun done _ => ?_
    split
    · exact .pure ⟨fun f hf => hfields f (List.mem_reverse.mp hf), h⟩
    · split
      · exact Fails.moves (.bind fun _ => .fail _ _)
      · refine Moves.read .cursor fun at_ _ => Moves.read (.moveTo _) fun _ _ =>
          Moves.read .kind fun k _ => ?_
        split
        · refine Moves.bind (h.field hg fields) fun f s₁ hle₁ ⟨hf, hs₁⟩ => ih methods ?_ hs₁
          intro f' hf'
          cases hf' with
          | head => exact hf
          | tail _ hf' => exact hle₁.types.bounded (hfields f' hf')
        · exact Moves.read (.skipBlock _) fun _ _ => ih _ hfields h
        · exact Fails.moves (.bind fun _ => .failExpected _ _)

/-- Other type parameters come into effect. -/
theorem Ready.bind (h : s.Ready G n) {bs : List Bindings}
    (hbs : ∀ b ∈ bs, ∀ e ∈ b, e.2.Bounded s.types.structures.size) :
    Ready G n { s with bindings := bs } :=
  ⟨⟨h.sound.types, h.sound.scopes, h.sound.methods, h.sound.functions, hbs, h.sound.size,
    h.sound.entry, h.sound.done, h.sound.externals, h.sound.declared⟩,
    h.at_.scope, h.at_.loops, h.at_.current, h.at_.frame, h.at_.code⟩

theorem le_bindings (s : Stage) (bs : List Bindings) : s.Le .value { s with bindings := bs } :=
  ⟨.refl _, .refl _, rfl, rfl, rfl, rfl, rfl, Chunk.Adds.refl _, .of_eq rfl rfl⟩

theorem Ready.unbind (h : s.Ready G n) : Ready G n { s with bindings := s.bindings.tail } :=
  h.bind fun b hb => h.sound.bindings b (List.mem_of_mem_tail hb)

/-- The members of a structure. -/
theorem Ready.members (hg : g.Disciplined) (h : s.Ready G n) (depth : Nat) {bindings : Bindings}
    (hb : ∀ e ∈ bindings, e.2.Bounded s.types.structures.size) :
    Moves .value s (Structure.members g depth bindings) fun r s' =>
      (∀ f ∈ r.1, f.ty.Bounded s'.types.structures.size) ∧ s'.Ready G n := by
  have hbound : ∀ b ∈ bindings :: s.bindings, ∀ e ∈ b, e.2.Bounded s.types.structures.size := by
    intro b hmem
    cases hmem with
    | head => exact hb
    | tail _ hmem => exact h.sound.bindings b hmem
  refine Moves.bind (Q := fun _ s' => s' = { s with bindings := bindings :: s.bindings })
    (.modify (fun r => ⟨r, rfl⟩) (s.le_bindings _) rfl) fun _ s₁ _ hs₁ => ?_
  subst hs₁
  refine Moves.read (.requireLine _) fun _ _ => Moves.read .budget fun budget _ => ?_
  refine Moves.bind (Ready.memberLines hg depth budget [] (fun _ hf => nomatch hf) (h.bind hbound))
    fun r s₂ _ ⟨hr, hs₂⟩ => ?_
  refine Moves.bind (Q := fun _ s' => s' = { s₂ with bindings := s₂.bindings.tail })
    (.modify (fun r => ⟨r, rfl⟩) (s₂.le_bindings _) rfl) fun _ s₃ _ hs₃ => .pure ?_
  subst hs₃
  exact ⟨hr, hs₂.unbind⟩

/-! ### Methods -/

/-- The tables owe more. -/
theorem Ready.mono (h : s.Ready G n) (D : Debts) (hmaking : ∀ id, G.making id → D.making id)
    (hheaders : ∀ f, G.headers f → D.headers f) (hchunks : ∀ k, G.chunks k → D.chunks k) :
    s.Ready { G with toDebts := D } n :=
  ⟨h.sound.mono hmaking hheaders hchunks, h.at_.debts D⟩

/-- A method whose head has been read: it is linked with the shape that its body will have. -/
structure Pending (id : Nat) (s : Stage) (f : FunctionHeader) : Prop where
  bounded : f.Bounded s.types.structures.size
  receiver : f.receiver = some id
  linked : ∃ k, f.kind = .script k ∧
    s.linkage.chunks[k.toNat]? = some (some ⟨f.callShape s.types, s.scopes.wordLength 0⟩)

theorem Pending.le {f : FunctionHeader} (h : s.Pending id f) (hle : s.Le .value s') :
    s'.Pending id f := by
  obtain ⟨k, hkind, hlinked⟩ := h.linked
  refine ⟨h.bounded.mono hle.types.size_le, h.receiver, k, hkind, ?_⟩
  rw [FunctionHeader.callShape_congr hle.types.layout h.bounded, hle.scopes_eq]
  exact hle.linkage.chunk hlinked

/-- A structure is given a method. -/
theorem Sound.addMethod (h : s.Sound D) (hid : id < s.types.structures.size)
    (hreceiver : header.receiver.isSome = true)
    (hknown : header.Known D s.linkage s.types (s.scopes.wordLength 0)) :
    Sound D { s with types := s.types.modifyStructure id fun t =>
      { t with methods := t.methods ++ [header] } } := by
  have hle := s.types.addMethod_le hid header
  refine ⟨h.types.addMethod hid header, h.scopes.keep hle.keeps, fun j f hf => ?_, fun e he => ?_,
    fun b hb e he => hle.bounded (h.bindings b hb e he), h.size, h.entry, h.done, h.externals,
    h.declared⟩
  · have hf : f ∈ ((s.types.modifyStructure id fun t =>
        { t with methods := t.methods ++ [header] }).at_ j).methods := hf
    rw [TypeTable.at_modifyStructure _ hid] at hf
    have hold : ∀ {f}, f ∈ (s.types.at_ j).methods → f.receiver.isSome = true ∧
        f.Known D s.linkage _ (s.scopes.wordLength 0) :=
      fun hf => ⟨(h.methods j _ hf).1, (h.methods j _ hf).2.mono (.refl _) hle (Nat.le_refl _)⟩
    split at hf
    · rename_i hj
      subst hj
      obtain hf | hf := List.mem_append.mp hf
      · exact hold hf
      · obtain rfl := List.mem_singleton.mp hf
        exact ⟨hreceiver, hknown.mono (.refl _) hle (Nat.le_refl _)⟩
    · exact hold hf
  · exact ⟨(h.functions e he).1, (h.functions e he).2.mono (.refl _) hle (Nat.le_refl _)⟩

/-- The head of a method. -/
theorem Ready.methodHead (hg : g.Disciplined) (h : s.Ready G n) (hid : id < s.types.structures.size)
    (at_ : Nat) :
    Moves .value s (Structure.methodHead g id at_) fun m s' =>
      s'.Ready (G.owe m.header) n ∧ s'.Pending id m.header := by
  refine Moves.read (.moveTo _) fun _ _ => ?_
  refine Moves.bind (h.signature hg) fun sig s₁ hle₁ ⟨hsig, hs₁⟩ => ?_
  refine Moves.ask (a := s₁.types.at_ id) (fun _ => rfl) ?_
  refine Moves.guard (.failRedeclared _) fun _ => ?_
  refine Moves.bind (hs₁.reserveChunk
    ⟨(sig.header (.script 0) (some id)).callShape s₁.types, s₁.scopes.wordLength 0⟩ _ _)
    fun k s₂ hle₂ ⟨hs₂, htypes₂, hlinked⟩ => ?_
  extract_lets header
  have hid₂ : id < s₂.types.structures.size :=
    Nat.lt_of_lt_of_le hid (hle₁.trans hle₂).types.size_le
  have hlinked : s₂.linkage.chunks[k.toNat]? =
      some (some ⟨header.callShape s₂.types, s₂.scopes.wordLength 0⟩) := by
    rw [hlinked, htypes₂, hle₂.scopes_eq]
    rfl
  have hpending : s₂.Pending id header := by
    refine ⟨?_, rfl, k, rfl, hlinked⟩
    rw [htypes₂]
    exact hsig
  -- the chunk is entered before its code is there, so the method is owed
  have howed : s₂.Ready (G.owe header) n := by
    refine hs₂.mono _ (fun _ hid => hid) (fun _ hf => .inr hf) fun i hi => ?_
    exact hi.imp_left fun heq => ⟨k, rfl, heq.symm⟩
  have hknown : header.Known (G.owe header).toDebts s₂.linkage s₂.types (s₂.scopes.wordLength 0) :=
    ⟨hpending.bounded, .inl (.inl rfl), _, Nat.le_refl _, hlinked⟩
  let s₃ : Stage := { s₂ with types := s₂.types.modifyStructure id fun t =>
    { t with methods := t.methods ++ [header] } }
  have hle₃ : s₂.Le .value s₃ :=
    ⟨.refl _, s₂.types.addMethod_le hid₂ header, rfl, rfl, rfl, rfl, rfl, Chunk.Adds.refl _,
      .of_eq rfl rfl⟩
  refine Moves.bind (Q := fun _ s' => s' = s₃) (.modify (fun r => ⟨r, rfl⟩) hle₃ rfl)
    fun _ s' _ hs' => Moves.read .cursor fun body _ => .pure ?_
  subst hs'
  exact ⟨⟨howed.sound.addMethod hid₂ rfl hknown, howed.at_.le hle₃ rfl⟩, hpending.le hle₃⟩

theorem Ready.methodHeads (hg : g.Disciplined) : ∀ (at_ : List Nat) {G : Outlook} {s : Stage},
    s.Ready G n → id < s.types.structures.size →
      Moves .value s (at_.mapM (Structure.methodHead g id)) fun ms s' =>
        s'.Ready (G.oweAll (ms.map Structure.PendingMethod.header)) n ∧
          ∀ m ∈ ms, s'.Pending id m.header := by
  intro at_
  induction at_ with
  | nil =>
    intro G s h _
    rw [List.mapM_nil]
    refine .pure ⟨?_, fun _ hm => nomatch hm⟩
    exact h.mono _ (fun _ hid => hid) (fun _ hf => .inr hf) fun _ hk => .inr hk
  | cons at_ rest ih =>
    intro G s h hid
    rw [List.mapM_cons]
    refine Moves.bind (h.methodHead hg hid at_) fun m s₁ hle₁ ⟨hs₁, hm⟩ => ?_
    refine Moves.bind (ih hs₁ (Nat.lt_of_lt_of_le hid hle₁.types.size_le))
      fun ms s₂ hle₂ ⟨hs₂, hms⟩ => .pure ⟨?_, fun m' hm' => ?_⟩
    -- what the first head owes and what the others owe, put together
    · refine hs₂.mono _ (fun _ hid => hid) (fun f hf => ?_) fun i hi => ?_
      · obtain hf | rfl | hf := hf
        · exact .inl (List.mem_cons_of_mem _ hf)
        · exact .inl List.mem_cons_self
        · exact .inr hf
      · obtain ⟨f, hf, hk⟩ | hk | hi := hi
        · exact .inl ⟨f, List.mem_cons_of_mem _ hf, hk⟩
        · exact .inl ⟨m.header, List.mem_cons_self, hk⟩
        · exact .inr hi
    · cases hm' with
      | head => exact hm.le hle₂
      | tail _ hm' => exact hms m' hm'

theorem Ready.methodTails (hg : g.Disciplined) (depth : Nat) :
    ∀ (ms : List Structure.PendingMethod) {s : Stage},
      s.Ready (G.oweAll (ms.map Structure.PendingMethod.header)) n →
      (∀ m ∈ ms, s.Pending id m.header) → id < s.types.structures.size →
      Moves .value s
        (ms.forM fun m => do
          CompileM.moveTo m.body
          Function.body g m.header depth m.name) fun _ s' => s'.Ready G n := by
  -- each body settles the debt of one method; the others are owed until their turn
  intro ms
  induction ms with
  | nil =>
    intro s h _ _
    refine .pure (h.mono G.toDebts (fun _ hid => hid) (fun f hf => ?_) fun k hk => ?_)
    · exact hf.resolve_left fun hf => nomatch hf
    · exact hk.resolve_left fun ⟨_, hf, _⟩ => nomatch hf
  | cons m ms ih =>
    intro s h hpending hid
    have hm := hpending m List.mem_cons_self
    obtain ⟨k, hkind, hlinked⟩ := hm.linked
    have howed : s.Ready ((G.oweAll (ms.map Structure.PendingMethod.header)).owe m.header) n := by
      refine h.mono _ (fun _ hid => hid) (fun f hf => ?_) fun i hi => ?_
      · obtain hf | hf := hf
        · cases hf with
          | head => exact .inl rfl
          | tail _ hf => exact .inr (.inl hf)
        · exact .inr (.inr hf)
      · obtain ⟨f, hf, hk⟩ | hi := hi
        · cases hf with
          | head => exact .inl hk
          | tail _ hf => exact .inr (.inl ⟨f, hf, hk⟩)
        · exact .inr (.inr hi)
    refine Moves.bind (Q := fun _ s' =>
      s'.Ready (G.oweAll (ms.map Structure.PendingMethod.header)) n) ?_ fun _ s₁ hle₁ hs₁ => ?_
    · refine Moves.read (.moveTo _) fun _ _ => ?_
      refine (howed.functionBody hg hkind hlinked hm.bounded ?_ depth m.name).mono
        fun _ s₁ _ hs₁ => hs₁.1
      intro owner howner
      obtain rfl : id = owner := Option.some_inj.mp (hm.receiver.symm.trans howner)
      exact hid
    · refine ih hs₁ (fun m' hm' => (hpending m' (List.mem_cons_of_mem _ hm')).le hle₁) ?_
      exact Nat.lt_of_lt_of_le hid hle₁.types.size_le

/-- The methods of a structure. -/
theorem Ready.methods (hg : g.Disciplined) (h : s.Ready G n) (hid : id < s.types.structures.size)
    (at_ : List Nat) (depth : Nat) (tokens : Array Token) {bindings : Bindings}
    (hb : ∀ e ∈ bindings, e.2.Bounded s.types.structures.size) :
    Moves .value s (Structure.methods g id at_ depth tokens bindings) fun _ s' => s'.Ready G n := by
  have hbound : ∀ b ∈ bindings :: s.bindings, ∀ e ∈ b, e.2.Bounded s.types.structures.size := by
    intro b hmem
    cases hmem with
    | head => exact hb
    | tail _ hmem => exact h.sound.bindings b hmem
  refine Moves.read (.of_ask _) fun here _ => Moves.read .cursor fun place _ => ?_
  refine Moves.bind (Q := fun _ s' => s' = { s with bindings := bindings :: s.bindings })
    (.modify (fun r => ⟨{ r with tokens }, rfl⟩) (s.le_bindings _) rfl) fun _ s₁ _ hs₁ => ?_
  subst hs₁
  refine Moves.bind (Q := fun _ s' => s'.Ready G n) ?_ fun _ s₂ _ hs₂ => ?_
  · refine Moves.bind (Ready.methodHeads hg at_ (h.bind hbound) hid) fun ms s₂ hle₂ ⟨hs₂, hms⟩ => ?_
    exact Ready.methodTails hg depth ms hs₂ hms (Nat.lt_of_lt_of_le hid hle₂.types.size_le)
  · exact .modify (fun r => ⟨{ r with tokens := here, cursor := place }, rfl⟩) (s₂.le_bindings _)
      hs₂.unbind

/-! ### Layout -/

theorem le_types {t : TypeTable} (hle : s.types.Le t) : s.Le .value { s with types := t } :=
  ⟨.refl _, hle, rfl, rfl, rfl, rfl, rfl, Chunk.Adds.refl _, .of_eq rfl rfl⟩

/-- The table of types grows. -/
theorem Sound.retype {D' : Debts} {t : TypeTable} (h : s.Sound D) (hle : s.types.Le t)
    (ht : t.Sound D'.making) (hmethods : ∀ id, (t.at_ id).methods = (s.types.at_ id).methods)
    (hheaders : ∀ f, f.Bounded s.types.structures.size → D.headers f → D'.headers f)
    (hchunks : ∀ k, D.chunks k → D'.chunks k) : Sound D' { s with types := t } := by
  have hknown : ∀ {f : FunctionHeader}, f.Known D s.linkage s.types (s.scopes.wordLength 0) →
      f.Known D' s.linkage t (s.scopes.wordLength 0) := by
    intro f hf
    have hf' := hf.mono (.refl _) hle (Nat.le_refl _)
    exact ⟨hf'.bounded, hf'.fixed.imp_left (hheaders f hf.bounded), hf'.linked⟩
  refine ⟨ht, h.scopes.keep hle.keeps, fun id f hf => ?_, fun e he => ?_,
    fun b hb e he => hle.bounded (h.bindings b hb e he), h.size, h.entry,
    fun k hk hlt => (h.done k hk hlt).imp_left (hchunks k), h.externals, h.declared⟩
  · have hf : f ∈ (t.at_ id).methods := hf
    rw [hmethods] at hf
    exact ⟨(h.methods id f hf).1, hknown (h.methods id f hf).2⟩
  · exact ⟨(h.functions e he).1, hknown (h.functions e he).2⟩

/-- A new structure is entered, which waits for its layout. -/
theorem Ready.enter (h : s.Ready G n) {t : TypeTable} (hle : s.types.Le t)
    (ht : t.Sound (G.make s.types.structures.size).making)
    (hmethods : ∀ id, (t.at_ id).methods = (s.types.at_ id).methods) :
    Ready (G.make s.types.structures.size) n { s with types := t } :=
  ⟨h.sound.retype hle ht hmethods (fun _ hb hf => ⟨hb, hf⟩) fun _ hk => hk,
    (h.at_.le (le_types hle) rfl).debts _⟩

theorem Sound.layout (h : s.Sound (G.make id).toDebts) (hid : id < s.types.structures.size)
    (hnew : (s.types.at_ id).complete = false) {fields : List (String × Ty)}
    (hfields : ∀ f ∈ fields, f.2.Bounded s.types.structures.size) {t : TypeTable}
    (hset : s.types.setFields id fields = .ok t) : Sound G.toDebts { s with types := t } := by
  have hk := TypeTable.setFields_keeps hid hnew hset
  have hlayout : ∀ j < id, t.layoutAt j = s.types.layoutAt j :=
    fun j hj => TypeTable.layoutAt_setFields hid hset (Nat.ne_of_lt hj)
  -- a function either has fixed words or does not mention the structure
  have hknown : ∀ {f : FunctionHeader},
      f.Known (G.make id).toDebts s.linkage s.types (s.scopes.wordLength 0) →
      f.Known G.toDebts s.linkage t (s.scopes.wordLength 0) := by
    intro f hf
    have hb : f.Bounded t.structures.size := hf.bounded.mono hk.size_le
    obtain ⟨hbelow, howed⟩ | hfixed := hf.fixed
    · exact ⟨hb, .inl howed, hf.linked.mono (.refl _) (Nat.le_refl _)
        (FunctionHeader.callShape_congr hlayout hbelow)⟩
    · exact ⟨hb, .inr (hfixed.keep hk), hf.linked.mono (.refl _) (Nat.le_refl _)
        (FunctionHeader.callShape_of_keeps hk hfixed)⟩
  refine ⟨h.types.setFields hid hnew hfields hset, h.scopes.keep hk, fun j f hf => ?_, fun e he => ?_,
    fun b hb e he => (h.bindings b hb e he).mono hk.size_le, h.size, h.entry, h.done, h.externals,
    h.declared⟩
  · have hf : f ∈ (t.at_ j).methods := hf
    rw [TypeTable.methods_setFields hid hset] at hf
    exact ⟨(h.methods j f hf).1, hknown (h.methods j f hf).2⟩
  · exact ⟨(h.functions e he).1, hknown (h.functions e he).2⟩

/-- Laying out a structure that the result of the function does not mention. -/
theorem At.layout (h : s.At G n) (hid : id < s.types.structures.size) {fields : List (String × Ty)}
    {t : TypeTable} (hset : s.types.setFields id fields = .ok t)
    (hreturns : ∀ shape, G.shape = some shape → s.builder.returns.Bounded id) :
    At G n { s with types := t } := by
  refine ⟨h.scope, h.loops, h.current, ?_, h.code⟩
  have hframe := h.frame
  cases hshape : G.shape with
  | none =>
    rw [hshape] at hframe
    exact hframe
  | some shape =>
    rw [hshape] at hframe
    obtain ⟨hnested, hglobal, hglobals, hb, hwords⟩ := hframe
    refine ⟨hnested, hglobal, hglobals, ?_, hwords.trans ?_⟩
    · show s.builder.returns.Bounded t.structures.size
      rw [TypeTable.size_setFields hset]
      exact hb
    · exact (TypeTable.words_congr (fun j hj => TypeTable.layoutAt_setFields hid hset
        (Nat.ne_of_lt hj)) (hreturns shape hshape)).symm

theorem layout_eq_ok {fields : List (String × Ty)} {token : Token} {r : Reader} {c : Compiler}
    (h : Structure.layout id fields token (s.toCompiler.on r) = .ok ((), c)) :
    ∃ t, s.types.setFields id fields = .ok t ∧ c = (Stage.toCompiler { s with types := t }).on r := by
  obtain ⟨result, c₁, hask, h⟩ := CompileM.bind_eq_ok h
  obtain ⟨rfl, rfl⟩ : s.types.setFields id fields = result ∧ s.toCompiler.on r = c₁ :=
    Prod.mk.inj (Except.ok.inj hask)
  cases hset : s.types.setFields id fields with
  | error e =>
    rw [hset] at h
    exact absurd h (Fails.failLayout token e _ _ _)
  | ok t =>
    rw [hset] at h
    cases h
    exact ⟨t, rfl, rfl⟩

/-- A structure from its entry to its methods: its fields are read, it is laid out, and the rest is
read.  What happens is described from the stage before the entry on. -/
theorem Ready.construct {α β : Type} {Q : β → Stage → Prop} {t : TypeTable} (h : s.Ready G n)
    (hle : s.types.Le t) (ht : t.Sound (G.make s.types.structures.size).making)
    (hmethods : ∀ id, (t.at_ id).methods = (s.types.at_ id).methods)
    (hid : s.types.structures.size < t.structures.size)
    (hnew : (t.at_ s.types.structures.size).complete = false) {x : CompileM α}
    (fields : α → List (String × Ty)) {k : α → CompileM β} {token : Token}
    (hx : Ready (G.make s.types.structures.size) n { s with types := t } →
      Moves .value { s with types := t } x fun a s' =>
        (∀ f ∈ fields a, f.2.Bounded s'.types.structures.size) ∧
          s'.Ready (G.make s.types.structures.size) n)
    (hk : ∀ a s', s.Le .value s' → s.types.structures.size < s'.types.structures.size →
      s'.Ready G n → Moves .value s' (k a) Q) {r : Reader} {b : β} {c : Compiler}
    (hrun : (x >>= fun a => Structure.layout s.types.structures.size (fields a) token >>= fun _ =>
      k a) ((Stage.toCompiler { s with types := t }).on r) = .ok (b, c)) :
    ∃ (s' : Stage) (r' : Reader), c = s'.toCompiler.on r' ∧ s.Le .value s' ∧ Q b s' := by
  obtain ⟨a, c₁, hread, hrun⟩ := CompileM.bind_eq_ok hrun
  obtain ⟨s₁, r₁, rfl, hle₁, hfields, hs₁⟩ := hx (h.enter hle ht hmethods) r a c₁ hread
  obtain ⟨_, c₂, hlayout, hrun⟩ := CompileM.bind_eq_ok hrun
  obtain ⟨t₂, hset, rfl⟩ := layout_eq_ok hlayout
  -- the entry is still open when the fields are known, since nobody else lays it out
  have hid₁ : s.types.structures.size < s₁.types.structures.size :=
    Nat.lt_of_lt_of_le hid hle₁.types.size_le
  have hnew₁ : (s₁.types.at_ s.types.structures.size).complete = false :=
    (congrArg (fun l => l.2.2) (hle₁.types.layout _ hid)).trans hnew
  have hsize := TypeTable.size_setFields hset
  have hle' := (le_types hle).trans hle₁
  have hle₂ : s.Le .value { s₁ with types := t₂ } := by
    refine ⟨hle'.linkage, ⟨?_, fun j hj => ?_⟩, hle'.scopes, hle'.chunk, hle'.scope, hle'.returns,
      hle'.loops, hle'.code, hle'.below.trans (.of_eq rfl rfl)⟩
    · show _ ≤ t₂.structures.size
      omega
    · exact (TypeTable.layoutAt_setFields hid₁ hset (Nat.ne_of_lt hj)).trans (hle'.types.layout j hj)
  have hs₂ : Ready G n { s₁ with types := t₂ } := by
    refine ⟨hs₁.sound.layout hid₁ hnew₁ hfields hset, (hs₁.at_.layout hid₁ hset ?_).debts _⟩
    intro shape hshape
    have hframe := h.at_.frame
    rw [show G.shape = some shape from hshape] at hframe
    rw [hle'.returns]
    exact hframe.2.2.2.1
  obtain ⟨s₃, r₃, hc, hle₃, hb⟩ := hk a _ hle₂ (by show _ < t₂.structures.size; omega) hs₂ r₁ b c hrun
  exact ⟨s₃, r₃, hc, hle₂.trans hle₃, hb⟩

/-! ### Declarations -/

theorem Ready.plain (hg : g.Disciplined) (h : s.Ready G n) (name : Token) (depth : Nat) :
    Moves .value s (Structure.plain g name depth) fun _ s' => s'.Ready G n := by
  have hnew : ((s.types.addStructure name.lexeme true).2.at_ s.types.structures.size).complete =
      false := by
    rw [TypeTable.at_addStructure, if_pos rfl]
  have hsize := s.types.size_addStructure name.lexeme true
  intro r a c hplain
  -- the structure is entered under its name before its members are read
  obtain ⟨id, c₁, henter, hplain⟩ := CompileM.bind_eq_ok hplain
  cases henter
  have hplain : (Structure.members g depth [] >>= fun found =>
      Structure.layout s.types.structures.size (found.1.map fun f => (f.name, f.ty)) name >>= fun _ =>
        CompileM.ask Compiler.tokens >>= fun tokens =>
          Structure.methods g s.types.structures.size found.2 depth tokens [])
      ((Stage.toCompiler { s with types := (s.types.addStructure name.lexeme true).2 }).on r) =
        .ok (a, c) := hplain
  refine h.construct (Q := fun _ s' => s'.Ready G n) (s.types.addStructure_le _ _) (h.sound.types.addStructure _ _)
    (s.types.methods_addStructure _ _) (by omega) hnew
    (fun found : List FieldTemplate × List Nat => found.1.map fun f => (f.name, f.ty))
    (fun hs₁ => ?_) (fun found s₂ _ hid hs₂ => ?_) hplain
  · have hnone : ∀ e ∈ ([] : Bindings), e.2.Bounded
        (s.types.addStructure name.lexeme true).2.structures.size := fun _ he => nomatch he
    have hmembers := hs₁.members hg depth hnone
    refine hmembers.mono fun found s' _ ⟨hr, hs'⟩ => ⟨fun f hf => ?_, hs'⟩
    obtain ⟨f', hf', rfl⟩ := List.mem_map.mp hf
    exact hr f' hf'
  · refine Moves.read (.of_ask _) fun tokens _ => ?_
    exact hs₂.methods hg hid found.2 depth tokens fun _ he => nomatch he

theorem Ready.template (hg : g.Disciplined) (h : s.Ready G n) (name : Token)
    (placeholders : List String) (depth : Nat) :
    Moves .value s (Structure.template g name placeholders depth) fun _ s' => s'.Ready G n := by
  refine Moves.read (.byte _ _ _) fun _ _ => ?_
  extract_lets bindings
  have hbindings : ∀ (m : Nat), ∀ e ∈ bindings, e.2.Bounded m := by
    intro m e he
    obtain ⟨i, hi, rfl⟩ := List.mem_mapIdx.mp he
    exact Ty.bounded_placeholder m _
  intro r a c htemplate
  obtain ⟨id, c₁, henter, htemplate⟩ := CompileM.bind_eq_ok htemplate
  cases henter
  -- the template remembers the tokens that are read from
  let d : StructureTemplate :=
    { name := name.lexeme, placeholders, memberDepth := depth, tokens := r.tokens, token := name }
  have hs₁ : Ready G n { s with types := (s.types.addTemplate d).2 } :=
    ⟨h.sound.retype (s.types.addTemplate_le d) (h.sound.types.addTemplate rfl) (fun _ => rfl)
      (fun _ _ hf => hf) fun _ hk => hk, h.at_.le (le_types (s.types.addTemplate_le d)) rfl⟩
  have hrest : Moves .value { s with types := (s.types.addTemplate d).2 }
      (Structure.members g depth bindings >>= fun found =>
        modify fun c => { c with types := c.types.modifyTemplate s.types.templates.size fun t =>
          { t with fields := found.1, methods := found.2 } }) fun _ s' => s'.Ready G n := by
    refine Moves.bind (hs₁.members hg depth (hbindings _)) fun found s₂ _ ⟨hfields, hs₂⟩ => ?_
    have hle := s₂.types.modifyTemplate_le s.types.templates.size fun t =>
      { t with fields := found.1, methods := found.2 }
    refine .modify (fun r => ⟨r, rfl⟩) (le_types hle) ⟨?_, hs₂.at_.le (le_types hle) rfl⟩
    exact hs₂.sound.retype hle (hs₂.sound.types.modifyTemplate _ _ _ hfields) (fun _ => rfl)
      (fun _ _ hf => hf) fun _ hk => hk
  obtain ⟨s', r', hc, hle, hs'⟩ := hrest r a c htemplate
  exact ⟨s', r', hc, (le_types (s.types.addTemplate_le d)).trans hle, hs'⟩

/-- The type parameters of a template. -/
theorem reads_typeParameters {c : Compiler} : ∀ (budget : Nat) (done : List String),
    Reads c (Structure.typeParameters budget done) fun _ => True := by
  intro budget
  induction budget with
  | zero => exact fun _ => Fails.failFuel.reads
  | succ budget ih =>
    intro done
    refine (Reads.identifier _).bind fun name _ => (Reads.of_ask _).bind fun taken _ => ?_
    split
    · exact Fails.reads (.bind_left (.failRedeclared _) _)
    · refine (Reads.matchKind _).bind fun more _ => ?_
      split
      · exact ih _
      · exact .pure trivial

/-- A structure or a template at the top level. -/
theorem Rests.structure_ (hg : g.Disciplined) (h : s.Rests G) (depth : Nat) :
    Moves .statement s (Structure.declaration g depth) fun _ s' => s'.Rests G := by
  refine Moves.read .advance fun _ _ => Moves.read (.identifier _) fun name _ => ?_
  refine Moves.read (.of_ask _) fun taken _ => Moves.guard (.failRedeclared _) fun _ => ?_
  refine Moves.read (.matchKind _) fun generic _ => ?_
  extract_lets finish
  have hdone : ∀ placeholders, Moves .statement s (finish placeholders) fun _ s' => s'.Rests G := by
    intro placeholders
    refine Moves.read (.consume _ _) fun _ _ => ?_
    split
    · exact Moves.last (h.ready.plain hg name (depth + 1))
        fun _ s₁ hle₁ hs₁ => h.le hle₁ rfl hle₁.scopeWords_eq hs₁
    · exact Moves.last (h.ready.template hg name placeholders (depth + 1))
        fun _ s₁ hle₁ hs₁ => h.le hle₁ rfl hle₁.scopeWords_eq hs₁
  split
  · refine Moves.read .budget fun budget _ => Moves.read (reads_typeParameters _ _) fun names _ => ?_
    refine Moves.read (.consume _ _) fun _ _ => ?_
    exact Moves.read (.pure (q := fun _ => True) trivial) fun _ _ => hdone _
  · exact Moves.read (.pure (q := fun _ => True) trivial) fun _ _ => hdone _

/-! ### Instances -/

theorem Ready.instanceFields (hg : g.Disciplined) (definition : StructureTemplate)
    {arguments : List Ty} : ∀ (fields : List FieldTemplate) {s : Stage}, s.Ready G n →
    (∀ a ∈ arguments, a.Bounded s.types.structures.size) →
    (∀ f ∈ fields, f.ty.Bounded s.types.structures.size) →
    Moves .value s (Structure.instanceFields g definition arguments fields) fun fs s' =>
      (∀ f ∈ fs, f.2.Bounded s'.types.structures.size) ∧ s'.Ready G n := by
  intro fields
  induction fields with
  | nil => exact fun h _ _ => .pure ⟨fun _ hf => (nomatch hf), h⟩
  | cons f rest ih =>
    intro s h harguments hfields
    rw [Structure.instanceFields]
    refine Moves.guard (.fail _ _) fun _ => ?_
    have hb := Ty.Bounded.substitute harguments f.ty (hfields f List.mem_cons_self)
    refine Moves.bind (Ready.resolve hg f.token _ h hb) fun ty s₁ hle₁ ⟨hty, hs₁⟩ => ?_
    refine Moves.bind (ih hs₁ (fun a ha => hle₁.types.bounded (harguments a ha))
      fun f' hf' => hle₁.types.bounded (hfields f' (List.mem_cons_of_mem _ hf')))
      fun fs s₂ hle₂ ⟨hfs, hs₂⟩ => .pure ⟨fun f' hf' => ?_, hs₂⟩
    cases hf' with
    | head => exact hle₂.types.bounded hty
    | tail _ hf' => exact hfs f' hf'

theorem Ready.makeInstance (hg : g.Disciplined) (h : s.Ready G n) {template : Nat}
    {definition : StructureTemplate} (hdefinition : s.types.templates[template]? = some definition)
    {arguments : List Ty} (harguments : ∀ a ∈ arguments, a.Bounded s.types.structures.size)
    (token : Token) :
    Moves .value s (Structure.makeInstance g template definition arguments token) fun id s' =>
      id < s'.types.structures.size ∧ s'.Ready G n := by
  intro r a c hmake
  obtain ⟨id, c₁, henter, hmake⟩ := CompileM.bind_eq_ok hmake
  obtain ⟨rfl, rfl⟩ := Prod.mk.inj (Except.ok.inj henter)
  generalize hname : definition.name ++ "<" ++ _ ++ ">" = name at hmake
  have hsize := s.types.size_addStructure name false
  have hle : s.types.Le ((s.types.addStructure name false).2.recordInstance template arguments
      s.types.structures.size) :=
    (s.types.addStructure_le name false).trans (TypeTable.recordInstance_le _ _ _ _)
  have hid : s.types.structures.size < (s.types.addStructure name false).2.structures.size := by
    omega
  have hsound := (h.sound.types.addStructure name false).recordInstance hid template arguments
  have hnew : (((s.types.addStructure name false).2.recordInstance template arguments
      s.types.structures.size).at_ s.types.structures.size).complete = false := by
    show ((s.types.addStructure name false).2.at_ _).complete = false
    rw [TypeTable.at_addStructure, if_pos rfl]
  -- the instance is recorded first, so that its own members find it
  refine h.construct (Q := fun id s' => id < s'.types.structures.size ∧ s'.Ready G n) hle hsound
    (s.types.methods_addStructure name false) hid hnew (fun fs => fs)
    (fun hs₁ => ?_) (fun _ s₂ hle₂ hid hs₂ => ?_) hmake
  · refine Ready.instanceFields hg definition definition.fields hs₁
      (fun a ha => hle.bounded (harguments a ha)) fun f hf => hle.bounded ?_
    exact h.sound.types.templates template definition hdefinition f hf
  · refine Moves.bind (hs₂.methods hg hid _ _ _ ?_) fun _ s₃ hle₃ hs₃ => .pure ⟨?_, hs₃⟩
    · intro e he
      exact hle₂.types.bounded (harguments e.2 (List.of_mem_zip he).2)
    · exact Nat.lt_of_lt_of_le hid hle₃.types.size_le

/-- The instance of a template. -/
theorem Ready.instantiate (hg : g.Disciplined) (h : s.Ready G n) (template : Nat)
    {arguments : List Ty} (harguments : ∀ a ∈ arguments, a.Bounded s.types.structures.size)
    (token : Token) :
    Moves .value s (Structure.instantiate g template arguments token) fun id s' =>
      id < s'.types.structures.size ∧ s'.Ready G n := by
  refine Moves.ask (a := s.types.instance? template arguments) (fun _ => rfl) ?_
  cases hinstance : s.types.instance? template arguments with
  | some id => exact .pure ⟨h.sound.types.instance_lt hinstance, h⟩
  | none =>
    refine Moves.read (reads_checkArgumentCount _ _ _) fun _ _ => ?_
    refine Moves.ask (a := s.types.template? template) (fun _ => rfl) ?_
    cases htemplate : s.types.template? template with
    | none => exact (Fails.fail _ _).moves
    | some definition =>
      refine Moves.guard (.fail _ _) fun _ => Moves.read (.of_ask _) fun depth _ => ?_
      refine Moves.guard (.fail _ _) fun _ => ?_
      refine Moves.read (.modify fun r => ⟨{ r with depth := r.depth + 1 }, rfl⟩) fun _ _ => ?_
      refine Moves.bind (h.makeInstance hg htemplate harguments token) fun id s₁ _ hs₁ => ?_
      exact Moves.read (.modify fun r => ⟨{ r with depth := r.depth - 1 }, rfl⟩) fun _ _ => .pure hs₁

end Stage

end WordScript
