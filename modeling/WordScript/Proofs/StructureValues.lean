/-
Structures as literals leave them and as fields are read.

A literal leaves the words of its structure on top of the stack, each field with the value of
its last initialiser.  From there they become those of a variable, which is declared where
they lie or takes them over, and a field of the variable is read from the same words.

* `Stage.Ready.reaches`, `Stage.Ready.slot_of_declare` — where variables lie;
* `Compiler.AccessAt`, `Expression.gives_of_access` — the code of a field of a variable;
* `Machine.Keeps`, `Stage.Stores` — the words of a variable, and a structure that becomes one;
* `Stage.Means`, `fields_of_literal` — from the literal to the field of a variable;
* `field_overwritten` — an initialiser whose evaluation changes another field;
* `order_of_strings` — string literals as initialisers cannot change places.

Design notes: an initialiser can call a function that writes through a pointer it has freed, and
so into the words under construction.  That evaluating leaves these alone is therefore said of the
run and not of the code, and proved where an initialiser is a literal or a variable.
-/
import WordScript.Proofs.PlainLiterals

namespace WordScript

/-! ### Where variables lie -/

/-- A variable that is declared lies behind those that its scope has so far, and the structures stay. -/
theorem CompileM.declare_eq_ok {name : Token} {ty : Ty} {v : Variable} {c c' : Compiler}
    (h : declare name ty c = .ok (v, c')) :
    v = ⟨ty, c.scopeWords, c.scopes.isGlobal c.scope⟩ ∧ c'.types = c.types := by
  obtain ⟨words, c₁, hwords, hrest⟩ := bind_eq_ok h
  obtain ⟨rfl, -⟩ := wordsOf_eq_ok hwords
  rw [ask_bind] at hrest
  cases hdeclared : c₁.scopes.declareVariable c₁.scope name.lexeme ty words with
  | error e =>
    rw [hdeclared] at hrest
    exact absurd hrest (Fails.fail _ _ _ _ _)
  | ok declared =>
    rw [hdeclared] at hrest
    cases hrest
    rw [ScopeTree.declareVariable] at hdeclared
    split at hdeclared
    · cases hdeclared
    · cases hdeclared
      exact ⟨rfl, rfl⟩

namespace Stage

variable {G : Outlook} {s : Stage} {n : Nat} {m : Machine}

/-- The variables in scope lie on the stack of a machine that has the frame of the code. -/
theorem Ready.reaches (h : s.Ready G n) (hstands : StandsOn G.shape m.fp)
    (hsize : m.fp + s.scopeWords ≤ m.stack.size) : s.toCompiler.Reaches m := by
  intro name v hv _
  have hlt : s.scope < s.scopes.scopes.size := by
    have := h.at_.scope
    omega
  have hfits := h.sound.scopes.variable_fits hlt hv
  have hwords : s.scopes.wordLength s.scope = s.scopeWords := rfl
  rw [Machine.slot]
  split
  · rename_i hglobal
    have hin := hfits.global hglobal
    split at hin
    · omega
    · have hglobals := h.globals_le (Nat.le_refl s.scopeWords)
      have hreach := hstands.reach_le s.scopeWords
      omega
  · rename_i hlocal
    have hin := (hfits.frame (Bool.eq_false_iff.mpr hlocal)).2
    omega

/-- A variable is declared behind those that are in scope. -/
theorem Ready.slot_of_declare (h : s.Ready G n) (hstands : StandsOn G.shape m.fp) {name : Token}
    {ty : Ty} {v : Variable} {r : Reader} {c' : Compiler}
    (hdeclare : CompileM.declare name ty (s.toCompiler.on r) = .ok (v, c')) :
    v.ty = ty ∧ m.slot v = m.fp + s.scopeWords := by
  obtain ⟨rfl, -⟩ := CompileM.declare_eq_ok hdeclare
  refine ⟨rfl, ?_⟩
  have hframe := h.at_.frame
  rw [Machine.slot]
  split
  · rename_i hglobal
    -- the frame of the first chunk begins at the bottom of the stack
    cases hshape : G.shape with
    | none =>
      rw [hshape] at hstands
      rw [show m.fp = 0 from hstands, Nat.zero_add]
      rfl
    | some shape =>
      rw [hshape] at hframe
      exact absurd hglobal (by rw [show Variable.global _ = false from hframe.2.1]; decide)
  · rfl

end Stage

/-! ### Reading a field -/

/-- At the cursor a variable, a dot and the name of a member make up a whole expression. -/
structure Compiler.AccessAt (c : Compiler) (v : Variable) (name : String) : Prop where
  variable_ : ∃ token, c.tokens[c.cursor]? = some token ∧ token.kind = .identifier ∧
    c.scopes.lookupVariable? c.scope token.lexeme = some v
  dot : c.kindAt (c.cursor + 1) = .symbol .dot
  member : ∃ token, c.tokens[c.cursor + 2]? = some token ∧ token.kind = .identifier ∧
    token.lexeme = name
  ends : c.kindAt (c.cursor + 3) ∈ Expression.ends

instance (c : Compiler) (v : Variable) (name : String) : Decidable (c.AccessAt v name) :=
  decidable_of_iff (c.tokens[c.cursor]?.any (fun token => decide (token.kind = .identifier ∧
        c.scopes.lookupVariable? c.scope token.lexeme = some v)) = true ∧
      c.kindAt (c.cursor + 1) = .symbol .dot ∧
      c.tokens[c.cursor + 2]?.any (fun token => decide (token.kind = .identifier ∧
        token.lexeme = name)) = true ∧
      c.kindAt (c.cursor + 3) ∈ Expression.ends) <| by
    simp only [Option.any_eq_true, decide_eq_true_eq]
    exact ⟨fun h => ⟨h.1, h.2.1, h.2.2.1, h.2.2.2⟩, fun h => ⟨h.variable_, h.dot, h.member, h.ends⟩⟩

namespace Access

open CompileM

variable {g : Productions} {c c' : Compiler} {o : Operand} {q : Place} {id : Nat}
  {dot token : Token}

/-- A field of a structure that has a place. -/
theorem member_of_field (hty : q.ty = .structure_ id) (hdot : c.tokens[c.cursor]? = some dot)
    (htoken : c.tokens[c.cursor + 1]? = some token) (hkind : token.kind = .identifier)
    (hends : c.kindAt (c.cursor + 2) ∈ Expression.ends)
    (h : member g (.place q) c = .ok (o, c')) :
    ∃ f, c.types.field? id token.lexeme = some f ∧ c' = c.past.past ∧
      o = .place { q with ty := f.ty, offset := q.offset + f.offset } := by
  obtain ⟨t, c₁, hadvance, h₁⟩ := bind_eq_ok h
  rw [advance_eq hdot] at hadvance
  cases hadvance
  obtain ⟨o₁, c₁, hderef, h₂⟩ := bind_eq_ok h₁
  obtain ⟨rfl, rfl⟩ := deref_eq_self (fun inner hinner => by
    rw [show Operand.ty (.place q) = q.ty from rfl, hty] at hinner
    cases hinner) hderef
  obtain ⟨t, c₁, hadvance, h₃⟩ := bind_eq_ok h₂
  rw [advance_eq (c := c.past) htoken] at hadvance
  cases hadvance
  simp only [hkind] at h₃
  obtain ⟨called, c₁, hcheck, h₄⟩ := bind_eq_ok h₃
  cases hcheck
  -- what stands behind the field ends an expression, so it is no call
  have hcalled : (c.past.past.kindAt c.past.past.cursor == .symbol .leftParen) = false := by
    refine beq_eq_false_iff_ne.mpr fun hparen => ?_
    have hends : c.past.past.kindAt c.past.past.cursor ∈ Expression.ends := hends
    rw [hparen] at hends
    exact absurd hends (by decide)
  simp only [hcalled, Bool.false_eq_true, if_false] at h₄
  rw [field, show Operand.ty (.place q) = .structure_ id from hty] at h₄
  simp only at h₄
  rw [ask_bind] at h₄
  cases hf : c.past.past.types.field? id token.lexeme with
  | none =>
    rw [hf] at h₄
    exact absurd h₄ (Fails.failMember _ _ _ _ _)
  | some f =>
    rw [hf] at h₄
    cases h₄
    exact ⟨f, hf, rfl, rfl⟩

end Access

namespace Expression

open CompileM Compiler

variable {g : Productions} {c c' : Compiler} {m : Machine} {v : Variable} {id : Nat} {name : String}
  {ty : Ty}

/-- A field of a variable is read like a variable of its own. -/
theorem read_of_access (hv : v.ty = .structure_ id) (haccess : c.AccessAt v name)
    (hread : read g .or c = .ok (ty, c')) :
    ∃ f, c.types.field? id name = some f ∧ ty = f.ty ∧
      ∃ (words : UInt8) (offset : UInt16), c.types.wordLength f.ty = .ok words.toNat ∧
        offset.toNat = v.offset + f.offset ∧ c' = c.past.past.past.mapBuilder
          (·.push (.ofByteShort (Place.ofVariable v).storage.loadOp words offset)) := by
  obtain ⟨base, hbase, hkind, hlookup⟩ := haccess.variable_
  obtain ⟨token, htoken, hmember, rfl⟩ := haccess.member
  have hplain : c.Plain base := by
    simp only [Plain, hkind]
    exact ⟨v, hlookup⟩
  obtain ⟨t, c₀, hcurrent, h₁⟩ := bind_eq_ok hread
  cases hcurrent
  obtain ⟨o, c₁, hoperand, hcontinue⟩ := bind_eq_ok h₁
  rw [operand_of_plain hbase hplain] at hoperand
  obtain ⟨first, c₂, hprimary, hrest⟩ := bind_eq_ok hoperand
  -- the variable, and its field behind the dot
  have hslot := primary_of_variable hbase hkind hlookup hprimary
  rw [variableOperand_eq (fun inner hinner => by rw [hv] at hinner; cases hinner)] at hslot
  cases hslot
  obtain ⟨n, c₂, hbudget, haccessors⟩ := bind_eq_ok hrest
  obtain rfl : c₂ = c.past := by
    cases hbudget
    rfl
  cases n with
  | zero => exact absurd haccessors (Fails.failFuel _ _ _)
  | succ n =>
    have hlt : c.cursor + 1 < c.tokens.size := by
      have := (Array.getElem?_eq_some_iff.mp htoken).1
      omega
    have hdot : c.past.kindAt c.past.cursor = .symbol .dot := haccess.dot
    rw [accessors, kind, ask_bind, hdot] at haccessors
    obtain ⟨narrowed, c₃, hfield, hrest⟩ := bind_eq_ok haccessors
    obtain ⟨f, hf, rfl, rfl⟩ := Access.member_of_field (c := c.past) (q := .ofVariable v) hv
      (Array.getElem?_eq_getElem hlt) htoken hmember haccess.ends hfield
    have hends : c.past.past.past.kindAt c.past.past.past.cursor ∈ ends := haccess.ends
    cases n with
    | zero => exact absurd hrest (Fails.failFuel _ _ _)
    | succ n =>
      obtain ⟨rfl, rfl⟩ := accessors_eq_self hends hrest
      obtain ⟨left, c₄, hload, hoperators⟩ := bind_eq_ok hcontinue
      have hbeside := (tracks_load (Walk.good_free _)).idle.beside hload
      obtain ⟨rfl, words, offset, hwords, hoffset, rfl⟩ := load_eq_ok hload
      have hend : _ ∈ ends := hends
      rw [Compiler.kindAt, ← hbeside.tokens, ← hbeside.cursor, ← Compiler.kindAt] at hend
      obtain ⟨rfl, rfl⟩ := operators_eq_self hend hoperators
      exact ⟨f, hf, rfl, words, offset, hwords, hoffset, rfl⟩

/-- The code of a field of a variable puts the words of the field on the stack. -/
theorem gives_of_access (hv : v.ty = .structure_ id) (haccess : c.AccessAt v name)
    (hread : read g .or c = .ok (ty, c')) :
    ∃ f, c.types.field? id name = some f ∧ ty = f.ty ∧
      (m.slot v + f.offset + c.types.words f.ty ≤ m.stack.size →
        c.Gives c' m (Words.run m.stack (m.slot v + f.offset) (c.types.words f.ty))) := by
  obtain ⟨f, hf, rfl, words, offset, hwords, hoffset, rfl⟩ := read_of_access hv haccess hread
  refine ⟨f, hf, rfl, fun hin => ?_⟩
  rw [TypeTable.words_of_wordLength hwords] at hin ⊢
  exact .of_past (.of_past (.of_past (gives_loadSlot hoffset hin)))

end Expression

/-! ### A variable that holds a structure -/

namespace Machine

/-- The words of a variable. -/
structure Keeps (m : Machine) (v : Variable) (V : Array Word) : Prop where
  inside : m.slot v + V.size ≤ m.stack.size
  words : Words.run m.stack (m.slot v) V.size = V

variable {m : Machine} {v : Variable} {V : Array Word}

/-- Words of the variable are words of its value. -/
theorem Keeps.run (h : m.Keeps v V) {offset n : Nat} (hin : offset + n ≤ V.size) :
    Words.run m.stack (m.slot v + offset) n = Words.run V offset n := by
  refine Words.run_eq_run fun j hj => ?_
  have hword := congrArg (·[offset + j]?) h.words
  rw [Words.getElem?_run, if_pos (by omega), ← Nat.add_assoc] at hword
  exact hword

end Machine

/-- A value that is stored in a variable is kept there. -/
theorem CompileM.keeps_of_store {c c' : Compiler} {p : Program} {time : Float} {m : Machine}
    {v : Variable} {token : Token} {S V : Array Word}
    (hstore : store (.ofVariable v) token c = .ok ((), c')) (hhas : m.Has p c c')
    (hV : V.size = c.types.words v.ty) (hin : m.slot v + V.size ≤ S.size) :
    Exec.Leads p time 1 (m.at_ c.here (S ++ V))
        (m.at_ c'.here (Words.write S (m.slot v) V.toList)) ∧
      (m.at_ c'.here (Words.write S (m.slot v) V.toList)).Keeps v V := by
  obtain ⟨words, offset, hwords, hoffset, rfl⟩ := store_eq_ok hstore
  obtain ⟨P, hP, hholds⟩ := hhas
  have hw : V.size = words.toNat := hV.trans (TypeTable.words_of_wordLength hwords)
  rw [Compiler.here_push]
  refine ⟨Exec.leads_storeSlot hP (Compiler.getElem?_of_holds_push hholds (.refl _)) hoffset hw hin,
    ?_, ?_⟩
  · show m.slot v + V.size ≤ (Words.write S (m.slot v) V.toList).size
    rwa [Words.size_write]
  · have hrun : Words.run (Words.write S (m.slot v) V.toList) (m.slot v) V.toList.length = _ :=
      Words.run_write (by rwa [Array.length_toList])
    rwa [Array.length_toList, Array.toArray_toList] at hrun

namespace Stage

/-- The structure on top of the stack of the machine `m`, whose literal ends at the stage `s`, has been
stored in a variable: declared where it lies, with nothing else above the variables in scope, or
assigned to. -/
inductive Stores (s : Stage) (p : Program) (time : Float) (id : Nat) (m : Machine) :
    Variable → Machine → Prop
  | declared {v : Variable} {name : Token} {r : Reader} {c : Compiler}
      (hsize : m.stack.size = m.fp + s.scopeWords + (s.types.at_ id).wordLength)
      (hdeclare : CompileM.declare name (.structure_ id) (s.toCompiler.on r) = .ok (v, c)) :
      Stores s p time id m v m
  | assigned {v : Variable} {m' : Machine} {name : String} {token : Token} {r : Reader}
      {c : Compiler} (hv : s.scopes.lookupVariable? s.scope name = some v)
      (hty : v.ty = .structure_ id)
      (hstore : CompileM.store (.ofVariable v) token (s.toCompiler.on r) = .ok ((), c))
      (hcode : m.Has p (s.toCompiler.on r) c) (hleads : Exec.Leads p time 1 m m') :
      Stores s p time id m v m'

variable {G : Outlook} {s : Stage} {n id : Nat} {p : Program} {time : Float} {m m' : Machine}
  {v : Variable} {S V : Array Word}

/-- The variable then has the words of the structure. -/
theorem Stores.keeps (h : s.Stores p time id m v m') (hs : s.Ready G n)
    (hstands : StandsOn G.shape m.fp) (hbelow : m.fp + s.scopeWords ≤ S.size)
    (hm : m.stack = S ++ V) (hip : m.ip = s.here) (hV : V.size = (s.types.at_ id).wordLength) :
    v.ty = .structure_ id ∧ m'.Keeps v V := by
  cases h with
  | declared hsize hdeclare =>
    obtain ⟨hty, hslot⟩ := hs.slot_of_declare hstands hdeclare
    have hS : m.slot v = S.size := by
      rw [hm, Array.size_append] at hsize
      omega
    refine ⟨hty, ?_, ?_⟩
    · rw [hm, hS, Array.size_append]
    · rw [hm, hS, Words.run_append_right]
  | @assigned _ name token r c hv hty hstore hcode hleads =>
    have hw : V.size = s.types.words v.ty := by rw [hV, hty, TypeTable.words]
    -- the variable was there before the value, so it lies below it
    have hin : m.slot v + V.size ≤ S.size := by
      have hreaches := hs.reaches (m := m.at_ m.ip S) hstands hbelow name v hv
        fun ty href => by rw [hty] at href; cases href
      rw [Machine.slot_at_, ← hw] at hreaches
      exact hreaches
    have hfront : m = m.at_ s.here (S ++ V) := by rw [← hip, ← hm]; rfl
    have hassigned : Exec.Leads p time 1 (m.at_ (s.toCompiler.on r).here (S ++ V)) _ ∧ Machine.Keeps _ v V :=
      CompileM.keeps_of_store hstore hcode hw hin
    obtain ⟨hstored, hkeeps⟩ := hassigned
    rw [hfront] at hleads
    obtain rfl := hleads.unique hstored
    exact ⟨hty, hkeeps⟩

end Stage

/-! ### Literals and the fields of variables -/

namespace Stage

/-- The machine stands in front of the code between two stages, in a program that goes on as the second
one does, with the variables in scope on its stack. -/
structure InFront (s s' : Stage) (L : Linkage) (heights : Nat → Nat → Nat) (p : Program)
    (m : Machine) : Prop where
  linkage : s'.linkage.Le L
  shaped : p.Shaped L heights
  stable : m.Stable L heights p
  code : m.Has p s.toCompiler s'.toCompiler
  chunk : m.chunk = s.builder.chunk
  ip : m.ip = s.here
  below : m.fp + s.scopeWords ≤ m.stack.size

variable {G : Outlook} {s s' : Stage} {n : Nat} {L : Linkage} {heights : Nat → Nat → Nat} {p : Program}
  {m : Machine}

/-- Its frame is one of the chunk under construction. -/
theorem InFront.stands (h : s.InFront s' L heights p m) (hs : s.Ready G n)
    (hle : s.Le .value s') : StandsOn G.shape m.fp := by
  obtain ⟨shape, hshape, hstands⟩ := h.stable.frames.stands
  have hcurrent := (hle.linkage.trans h.linkage).chunk hs.at_.current
  rw [← h.chunk, hshape] at hcurrent
  cases hcurrent
  exact hstands

end Stage

/-- What a literal of the structure does, with the initialisers `l` and its code between two stages, from
a machine in front of the code. -/
structure Stage.Means (s s' : Stage) (id : Nat) (l : List Initialiser) (p : Program) (time : Float)
    (m : Machine) : Prop where
  /-- it builds the words of the structure, and each field has the value of its last initialiser -/
  builds : m.Builds p time s.types (s.types.at_ id) l s'.here
  /-- if the initialisers are literals other than strings, or variables, they leave the same words as
  in another literal, of any program, that has those of each field in the same order -/
  reordered : ∀ {k₂ : Nat} {c₂ c₂' : Compiler} {l₂ : List Initialiser} {p₂ : Program} {m₂ : Machine}
    (time₂ : Float), c₂.Constructs (productions k₂) id l₂ c₂' → s.SameNames c₂ →
    Compiler.SameSources l l₂ → (∀ i ∈ l, i.Simple m) → (∀ i ∈ l₂, i.Simple m₂) →
    m.SameMemory m₂ → m₂.Has p₂ c₂ c₂' →
    ∃ V : Array Word, V.size = (s.types.at_ id).wordLength ∧
      (∃ j, Exec.Leads p time j m (m.at_ s'.here (m.stack ++ V))) ∧
      ∃ j, Exec.Leads p₂ time₂ j (m₂.at_ c₂.here m₂.stack) (m₂.at_ c₂'.here (m₂.stack ++ V))
  /-- if evaluating the initialisers leaves the words under construction alone and the structure is
  stored in a variable, the variable's fields are read as the values of their last initialisers, or
  as zeros -/
  read_back : ∀ {lv : List (Initialiser × Array Word)} {m' m₁ : Machine} {v : Variable} {k₂ : Nat}
    {name : String} {ty : Ty} {c₂ c₂' : Compiler}, lv.map Prod.fst = l →
    Machine.Fills p time m.stack.size (s.types.at_ id).wordLength (m.at_ (m.ip + 1)
      (m.stack ++ Array.replicate (s.types.at_ id).wordLength 0)) lv m' →
    s'.Stores p time id m' v m₁ → s.types.Keeps c₂.types → c₂.AccessAt v name →
    Expression.read (productions k₂) .or c₂ = .ok (ty, c₂') →
    ∃ f, (s.types.at_ id).field? name = some f ∧ ty = f.ty ∧
      c₂.Gives c₂' m₁ ((f.last? (Machine.values lv)).getD (Array.replicate (s.types.words f.ty) 0))
  /-- evaluating literals other than strings, or variables, leaves them alone -/
  simple : (∀ i ∈ l, i.Simple m) → ∃ m', Machine.Fills p time m.stack.size (s.types.at_ id).wordLength
    (m.at_ (m.ip + 1) (m.stack ++ Array.replicate (s.types.at_ id).wordLength 0))
    (l.map fun i => (i, (s.toCompiler.valueOf m i.source).2)) m'

namespace TypeTable

variable {t t' : TypeTable} {id : Nat} {name : String} {f : Field}

/-- The fields of a complete structure stay as they are. -/
theorem Keeps.field? (h : t.Keeps t') (hcomplete : (t.at_ id).complete = true)
    (hf : t'.field? id name = some f) : (t.at_ id).field? name = some f := by
  obtain ⟨d, hd, hf⟩ := Option.bind_eq_some_iff.mp hf
  have hstructure : t'.structures[id]? = some d := hd
  have hd : t'.at_ id = d := by rw [at_, Array.getD_eq_getD_getElem?, hstructure, Option.getD_some]
  have hfields : (t'.at_ id).fields = (t.at_ id).fields :=
    congrArg Prod.fst (h.layout id hcomplete)
  rw [StructureType.field?, ← hfields, hd]
  exact hf

end TypeTable

/-- A structure literal builds what field access reads.  Its code puts as many words on the stack as
the structure has.  As long as evaluating the initialisers leaves these words alone, each field ends
up with the value of its last initialiser, or with zeros, and is read as that from any variable that
the structure is stored in.  Literals and variables as initialisers, other than string literals, may
be written in every order that keeps those of each field in theirs. -/
theorem fields_of_literal {k n id : Nat} {G : Outlook} {s : Stage} {token : Token} {o : Operand}
    {c' : Compiler} (hs : s.Ready G n) (hn : s.scopeWords ≤ n)
    (hcomplete : (s.types.at_ id).complete = true)
    (hliteral : Expression.structureLiteral (productions k) id token s.toCompiler = .ok (o, c')) :
    o = .value (.structure_ id) ∧ ∃ (s' : Stage) (r : Reader),
      c' = s'.toCompiler.on r ∧ s'.Ready G (n + (s.types.at_ id).wordLength) ∧
      s.types.Keeps s'.types ∧
      s.toCompiler.Constructs (productions k) id (s.toCompiler.initialisers (productions k) id) c' ∧
      ∀ {L : Linkage} {heights : Nat → Nat → Nat} {p : Program} {m : Machine} (time : Float),
        s.InFront s' L heights p m →
          s.Means s' id (s.toCompiler.initialisers (productions k) id) p time m := by
  obtain ⟨ho, hconstructs⟩ := Expression.constructs_of_ok hliteral
  obtain ⟨s', r, rfl, hle, hs', hconstruction⟩ :=
    hs.construction (productions_disciplined k) hn hconstructs
  have hplaces := (TypeTable.Laid.of_reached hs.sound.types.reached id hcomplete).places
  refine ⟨ho, s', r, rfl, hs', hle.types.keeps, hconstructs, fun {L heights p m} time hm => ?_⟩
  obtain ⟨P, hP, hholds⟩ := hm.code
  have hstands := hm.stands hs hle
  have hbuilds : m.Builds p time s.types (s.types.at_ id) _ s'.here :=
    hconstruction.builds hm.linkage hm.shaped hm.stable hP hholds hm.ip hplaces
  have hcode : m.Has p s.toCompiler (s'.toCompiler.on r) := hm.code
  refine ⟨hbuilds, fun time₂ h₂ hnames hsources hsimple hsimple₂ hmemory hhas => ?_,
    fun {lv m' m₁ v k₂ name ty c₂ c₂'} hlv hfills hstores hkeeps haccess hread => ?_, fun hsimple => ?_⟩
  · have hsame := hconstructs.same_words (.refl _) hnames hsimple hsimple₂ hsources
      (hs.reaches hstands hm.below) hmemory hcode hhas time time₂ hplaces h₂
    rwa [← hm.ip] at hsame
  · obtain ⟨-, hip, -, hfp, -, S, V, hstack, hS, hV, hfields⟩ := hbuilds.fields hlv hfills
    have hwords : s'.scopeWords = s.scopeWords := hle.scopeWords_eq
    have hlayout := hle.types.keeps.layout id hcomplete
    have hlength : (s'.types.at_ id).wordLength = (s.types.at_ id).wordLength :=
      congrArg (·.2.1) hlayout
    obtain ⟨hty, hkept⟩ := hstores.keeps hs' (by rw [hfp]; exact hstands)
      (by rw [hfp, hwords, hS]; exact hm.below) hstack hip (hV.trans hlength.symm)
    obtain ⟨f, hf, rfl, hgives⟩ := Expression.gives_of_access hty haccess hread
    have hfield := hkeeps.field? hcomplete hf
    have hmem : f ∈ (s.types.at_ id).fields := List.mem_of_find?_eq_some hfield
    obtain ⟨-, hsize, hin⟩ := hs.sound.types.fields id f hmem
    have hsame : c₂.types.words f.ty = s.types.words f.ty := hsize.words_keep hkeeps
    have hinside : m₁.slot v + f.offset + c₂.types.words f.ty ≤ m₁.stack.size := by
      have := hkept.inside
      omega
    have hgives := hgives hinside
    rw [hsame, hkept.run (by omega), hfields f hmem] at hgives
    exact ⟨f, hfield, rfl, hgives⟩
  · have hfills := hconstructs.fills hplaces hsimple (hs.reaches hstands hm.below) hcode time
    rwa [← hm.ip] at hfills

/-- A structure of two fields, and a variable. -/
def pairModule : String :=
  "structure Pair\n    field Int a\n    field Int b\nvar x = 7\n"

/-- A literal with its fields out of order, one of them given twice, and a use of that field. -/
def pairUse : String :=
  "var v = Pair \x7b b = x, a = 1, b = 2 \x7d\nvar w = v.b\n"

/-- The first two initialisers have changed places. -/
def pairSwapped : String :=
  "var v = Pair \x7b a = 1, b = x, b = 2 \x7d\nvar w = v.b\n"

/-- The state of the compilation in front of the brace. -/
def pairLiteral (text : String) : Compiler :=
  match addSource .start "pairs" pairModule, tokenize "main" text with
  | .ok c, .ok tokens => { c.atModule "main" tokens with cursor := 4 }
  | _, _ => .start

theorem Linkage.eq_of_alone {L : Linkage} (hchunks : L.chunks.length = 1)
    (hentry : L.chunks[0]? = some none) (hexternals : L.externals.length = 0) :
    L = ⟨[none], []⟩ := by
  obtain ⟨chunks, externals⟩ := L
  obtain rfl := List.length_eq_zero_iff.mp hexternals
  obtain ⟨shape, rfl⟩ := List.length_eq_one_iff.mp hchunks
  cases hentry
  rfl

/-- Behind a module without functions, anywhere in the next one. -/
theorem Stage.ready_of_alone {name source next : String} {c : Compiler} (tokens : Array Token)
    (cursor : Nat) (hadd : addSource .start name source = .ok c) (hchunks : c.chunks.size = 1)
    (hexternals : c.externals.size = 0) :
    Stage.Ready .whole c.scopeWords ⟨{ c.atModule next tokens with cursor }, ⟨[none], []⟩⟩ := by
  have hsources : addSources .start [(name, source)] = .ok c := by
    simp only [addSources, hadd]
  -- without functions there is one linkage, that of the entry chunk alone
  obtain ⟨L, hkept⟩ := Compiler.Kept.addSources _ Compiler.start_kept hsources
  have hsound := hkept.rests.ready.sound
  have hat := hkept.rests.ready.at_
  obtain rfl := Linkage.eq_of_alone (hsound.size.trans hchunks) hsound.entry
    (hsound.externals.trans hexternals)
  exact ⟨hsound.of_eq rfl rfl rfl rfl rfl rfl, hat.scope, hat.loops, hat.current, hat.frame, hat.code⟩

/-- The fields of a pair. -/
def fieldA : Field :=
  ⟨"a", .int, 0⟩

def fieldB : Field :=
  ⟨"b", .int, 1⟩

/-- The name of the variable that the pair is stored in. -/
def nameOfPair : Token :=
  ⟨.identifier, "v", ⟨1, 5⟩, "main"⟩

/-- The same words in another order, and a field that is read back. -/
theorem fields_of_pairLiteral : ∃ (s s' : Stage) (p p₂ : Program) (m m' : Machine) (v : Variable)
    (c₁ c₂ c₂' : Compiler) (V : Array Word) (j j₂ : Nat),
    s.toCompiler = pairLiteral pairUse ∧ s.Ready .whole s.scopeWords ∧
    (s.types.at_ 0).complete = true ∧
    compileModules [("pairs", pairModule), ("main", pairUse)] = .ok p ∧
    compileModules [("pairs", pairModule), ("main", pairSwapped)] = .ok p₂ ∧
    m.stack = #[7] ∧ s.Means s' 0 (s.toCompiler.initialisers (productions 2) 0) p 0 m ∧
    Exec.Leads p 0 j m (m.at_ s'.here (#[7] ++ V)) ∧
    Exec.Leads p₂ 0 j₂ (m.at_ (pairLiteral pairSwapped).here #[7]) (m.at_ c₁.here (#[7] ++ V)) ∧
    (∃ i, Exec.Leads p 0 i m m') ∧ c₂.AccessAt v "b" ∧ c₂.Gives c₂' m' #[2] ∧
    (m.run 20 0).2.stack = #[7, 1, 2, 2] := by
  have hcheck : ((addSource .start "pairs" pairModule).toOption.any fun c =>
      (tokenize "main" pairUse).toOption.any fun tokens =>
      (tokenize "main" pairSwapped).toOption.any fun tokens₂ =>
      decide (c.chunks.size = 1) && decide (c.externals.size = 0) && decide (c.scopeWords = 1) &&
      (addSource c "main" pairUse).toOption.any fun whole =>
      (addSource c "main" pairSwapped).toOption.any fun whole₂ =>
      decide (whole.chunks.size = 1) && decide (whole.externals.size = 0) &&
      (Expression.structureLiteral (productions 2) 0 (pairLiteral pairUse).eof
        (pairLiteral pairUse)).toOption.any fun r =>
      (Expression.structureLiteral (productions 2) 0 (pairLiteral pairSwapped).eof
        (pairLiteral pairSwapped)).toOption.any fun r₂ =>
      decide (r.2.chunks.size = 1) && decide (r.2.externals.size = 0) &&
      decide (r.2.scopeWords = 1) && decide ((r.2.types.at_ 0).wordLength = 2) &&
      decide (((pairLiteral pairUse).types.at_ 0).wordLength = 2) &&
      ((Machine.new {}).boot whole.build).toOption.any fun m₀ =>
      decide ((m₀.run 1 0).2.Has whole.build (pairLiteral pairUse) r.2) &&
      decide ((m₀.run 1 0).2.Has whole₂.build (pairLiteral pairSwapped) r₂.2) &&
      decide ((m₀.run 1 0).2.chunk = (pairLiteral pairUse).builder.chunk) &&
      decide ((m₀.run 1 0).2.ip = (pairLiteral pairUse).here) && decide ((m₀.run 1 0).2.fp = 0) &&
      decide ((m₀.run 1 0).2.state ≠ .halt) && decide ((m₀.run 1 0).2.stack = #[7]) &&
      decide (((m₀.run 1 0).2.run 20 0).2.stack = #[7, 1, 2, 2]) &&
      decide (∀ i ∈ (pairLiteral pairUse).initialisers (productions 2) 0, i.Simple (m₀.run 1 0).2) &&
      decide (∀ i ∈ (pairLiteral pairSwapped).initialisers (productions 2) 0,
        i.Simple (m₀.run 1 0).2) &&
      decide (((pairLiteral pairUse).initialisers (productions 2) 0).map Initialiser.source =
        [(fieldB, .identifier, "x"), (fieldA, .integer, "1"), (fieldB, .integer, "2")]) &&
      decide (((pairLiteral pairSwapped).initialisers (productions 2) 0).map Initialiser.source =
        [(fieldA, .integer, "1"), (fieldB, .identifier, "x"), (fieldB, .integer, "2")]) &&
      (CompileM.declare nameOfPair (.structure_ 0) r.2).toOption.any fun d =>
      (Expression.read (productions 2) .or { d.2 with cursor := 21 }).toOption.any fun x =>
        decide (Compiler.AccessAt { d.2 with cursor := 21 } d.1 "b") &&
        ((pairLiteral pairUse).types.at_ 0).complete &&
        (((pairLiteral pairUse).types.at_ 0).field? "b").any fun f =>
          decide (f.last? (Machine.values (((pairLiteral pairUse).initialisers (productions 2) 0).map
            fun i => (i, ((pairLiteral pairUse).valueOf (m₀.run 1 0).2 i.source).2))) = some #[2])) = true := by
    decide +kernel
  obtain ⟨c, hadd, hcheck⟩ := exists_of_any hcheck
  obtain ⟨tokens, htokens, hcheck⟩ := exists_of_any hcheck
  obtain ⟨tokens₂, htokens₂, hcheck⟩ := exists_of_any hcheck
  simp only [Bool.and_eq_true, decide_eq_true_eq] at hcheck
  obtain ⟨⟨⟨hchunks, hexternals⟩, hscope⟩, hcheck⟩ := hcheck
  obtain ⟨whole, hwhole, hcheck⟩ := exists_of_any hcheck
  obtain ⟨whole₂, hwhole₂, hcheck⟩ := exists_of_any hcheck
  simp only [Bool.and_eq_true, decide_eq_true_eq] at hcheck
  obtain ⟨⟨hchunks₁, hexternals₁⟩, hcheck⟩ := hcheck
  obtain ⟨⟨o, c'⟩, hliteral, hcheck⟩ := exists_of_any hcheck
  obtain ⟨⟨o₂, c₁⟩, hliteral₂, hcheck⟩ := exists_of_any hcheck
  simp only [Bool.and_eq_true, decide_eq_true_eq] at hcheck
  obtain ⟨⟨⟨⟨⟨hchunks', hexternals'⟩, hscope'⟩, hlength'⟩, hlength⟩, hcheck⟩ := hcheck
  obtain ⟨m₀, hboot, hcheck⟩ := exists_of_any hcheck
  simp only [Bool.and_eq_true, decide_eq_true_eq] at hcheck
  obtain ⟨⟨⟨⟨⟨⟨⟨⟨⟨⟨⟨⟨hhas, hhas₂⟩, hchunk⟩, hip⟩, hfp⟩, hstate⟩, hstack⟩, hafter⟩, hsimple⟩, hsimple₂⟩,
    hsource⟩, hsource₂⟩, hcheck⟩ := hcheck
  obtain ⟨⟨v, c₂⟩, hdeclare, hcheck⟩ := exists_of_any hcheck
  obtain ⟨⟨ty, c₂'⟩, hread, hcheck⟩ := exists_of_any hcheck
  simp only [Bool.and_eq_true, Option.any_eq_true, decide_eq_true_eq] at hcheck
  obtain ⟨⟨haccess, hcomplete⟩, f, hf, hlast⟩ := hcheck
  -- the stage in front of the brace, and the machine that has come to it
  have hliteral₀ : pairLiteral pairUse = { c.atModule "main" tokens with cursor := 4 } := by
    rw [pairLiteral, hadd, htokens]
  have hnames : (pairLiteral pairUse).SameNames (pairLiteral pairSwapped) := by
    rw [hliteral₀, pairLiteral, hadd, htokens₂]
    exact ⟨rfl, rfl, rfl⟩
  have hwords : (pairLiteral pairUse).scopeWords = 1 := by
    rw [hliteral₀]
    exact hscope
  have hsources : addSources .start [("pairs", pairModule), ("main", pairUse)] = .ok whole := by
    simp only [addSources, hadd, hwhole]
  have hsources₂ : addSources .start [("pairs", pairModule), ("main", pairSwapped)] = .ok whole₂ := by
    simp only [addSources, hadd, hwhole₂]
  obtain ⟨L, hkept⟩ := Compiler.Kept.addSources _ Compiler.start_kept hsources
  obtain ⟨heights, hshaped, -⟩ := hkept.shaped
  have hsound := hkept.rests.ready.sound
  obtain rfl := Linkage.eq_of_alone (hsound.size.trans hchunks₁) hsound.entry
    (hsound.externals.trans hexternals₁)
  have hready : Stage.Ready .whole (pairLiteral pairUse).scopeWords ⟨pairLiteral pairUse, ⟨[none], []⟩⟩ := by
    rw [hliteral₀]
    exact Stage.ready_of_alone (c := c) tokens 4 hadd hchunks hexternals
  obtain ⟨-, s', r, rfl, hs', hkeeps, -, hmeans⟩ :=
    fields_of_literal hready (Nat.le_refl _) hcomplete hliteral
  have hlinkage := Linkage.eq_of_alone (hs'.sound.size.trans hchunks') hs'.sound.entry
    (hs'.sound.externals.trans hexternals')
  have hnatives : Exec.Natives ⟨[none], []⟩ m₀.externals := fun k shape f hshape => by
    cases hshape
  have hsettled : m₀.Settled ⟨[none], []⟩ heights whole.build :=
    Machine.boot_settled hshaped hnatives hboot
  have hfront : Stage.InFront ⟨pairLiteral pairUse, ⟨[none], []⟩⟩ s' ⟨[none], []⟩ heights whole.build
      (m₀.run 1 0).2 := by
    refine ⟨hlinkage ▸ .refl _, hshaped, (hsettled.run hshaped 1 0).1.stable hstate, hhas, hchunk, hip, ?_⟩
    show (m₀.run 1 0).2.fp + (pairLiteral pairUse).scopeWords ≤ _
    rw [hfp, hwords, hstack]
    decide
  have hmeans := hmeans 0 hfront
  -- the other order
  have hsame : Compiler.SameSources ((pairLiteral pairUse).initialisers (productions 2) 0)
      ((pairLiteral pairSwapped).initialisers (productions 2) 0) :=
    Compiler.SameSources.swap (hsource.trans (List.nil_append _).symm)
      (hsource₂.trans (List.nil_append _).symm) (by decide)
  obtain ⟨V, hV, ⟨j, hleads⟩, j₂, hleads₂⟩ := hmeans.reordered 0 (Expression.constructs_of_ok hliteral₂).2
    hnames hsame hsimple hsimple₂ ⟨rfl, rfl, rfl⟩ hhas₂
  -- the variable, and its field
  obtain ⟨m', hfills⟩ := hmeans.simple hsimple
  have hlv : (((pairLiteral pairUse).initialisers (productions 2) 0).map fun i =>
      (i, ((pairLiteral pairUse).valueOf (m₀.run 1 0).2 i.source).2)).map Prod.fst =
        (pairLiteral pairUse).initialisers (productions 2) 0 := by
    rw [List.map_map]
    exact List.map_id _
  obtain ⟨hcomes, -, -, hfp', -, S, W, hstack', hS, hW, -⟩ := hmeans.builds.fields hlv hfills
  have hsize : m'.stack.size = m'.fp + s'.scopeWords + (s'.types.at_ 0).wordLength := by
    rw [hstack', hfp', hfp, Array.size_append, hS, hW, hlength, hstack]
    rw [show s'.scopeWords = 1 from hscope', show (s'.types.at_ 0).wordLength = 2 from hlength']
    rfl
  have hkeeps : (pairLiteral pairUse).types.Keeps { c₂ with cursor := 21 }.types :=
    (CompileM.declare_eq_ok hdeclare).2 ▸ hkeeps
  obtain ⟨f', hf', -, hgives⟩ := hmeans.read_back hlv hfills (.declared hsize hdeclare) hkeeps
    haccess hread
  obtain rfl : f' = f := Option.some.inj (hf'.symm.trans hf)
  rw [hlast] at hgives
  rw [hstack] at hleads hleads₂
  have hcompile : compileModules [("pairs", pairModule), ("main", pairUse)] = .ok whole.build := by
    rw [compileModules, hsources]
    rfl
  have hcompile₂ : compileModules [("pairs", pairModule), ("main", pairSwapped)] = .ok whole₂.build := by
    rw [compileModules, hsources₂]
    rfl
  exact ⟨_, s', _, _, _, m', v, c₁, _, c₂', V, j, j₂, rfl, hready, hcomplete, hcompile, hcompile₂, hstack,
    hmeans, hleads, hleads₂, hcomes, haccess, hgives, hafter⟩

/-- That evaluating leaves the words under construction alone cannot be left out: the second
initialiser calls a function that writes through a pointer it has freed, and the first field ends up
with nine instead of one. -/
theorem field_overwritten : ∃ (p : Program) (m m' : Machine),
    compileModules [("main", "structure Pair\n    field Int a\n    field Int b\n" ++
      "function Spoil() returns Int\n    var p = new Pair \x7b a = 1 \x7d\n    free p\n    p.a = 9\n" ++
      "    return 5\nvar v = Pair \x7b a = 1, b = Spoil() \x7d\n")] = .ok p ∧
    (Machine.new {}).boot p = .ok m ∧ m.run 100 0 = (.ok .halted, m') ∧ m'.stack = #[9, 5] := by
  have hcheck :
      ((compileModules [("main", "structure Pair\n    field Int a\n    field Int b\n" ++
        "function Spoil() returns Int\n    var p = new Pair \x7b a = 1 \x7d\n    free p\n    p.a = 9\n" ++
        "    return 5\nvar v = Pair \x7b a = 1, b = Spoil() \x7d\n")]).toOption.any fun p =>
      ((Machine.new {}).boot p).toOption.any fun m =>
        decide ((m.run 100 0).1.toOption = some .halted) &&
        decide ((m.run 100 0).2.stack = #[9, 5])) = true := by
    decide +kernel
  obtain ⟨p, hcompile, hcheck⟩ := exists_of_any hcheck
  obtain ⟨m, hboot, hcheck⟩ := exists_of_any hcheck
  simp only [Bool.and_eq_true, decide_eq_true_eq] at hcheck
  obtain ⟨m', hrun⟩ := Machine.run_eq_of_toOption hcheck.1
  rw [hrun] at hcheck
  exact ⟨p, m, m', hcompile, hboot, hrun, hcheck.2⟩

/-- The order of string literals is not free: each takes a block from the heap when it is evaluated, so
another order gives the fields other addresses. -/
theorem order_of_strings : ∃ (p₁ p₂ : Program) (m₁ m₁' m₂ m₂' : Machine),
    compileModules [("main", "structure Pair\n    field String a\n    field String b\n" ++
      "var v = Pair \x7b a = \"x\", b = \"y\" \x7d\n")] = .ok p₁ ∧
    compileModules [("main", "structure Pair\n    field String a\n    field String b\n" ++
      "var v = Pair \x7b b = \"y\", a = \"x\" \x7d\n")] = .ok p₂ ∧
    (Machine.new {}).boot p₁ = .ok m₁ ∧ m₁.run 20 0 = (.ok .halted, m₁') ∧
    (Machine.new {}).boot p₂ = .ok m₂ ∧ m₂.run 20 0 = (.ok .halted, m₂') ∧
    m₁'.stack = #[Address.ofHeap 0, Address.ofHeap 2] ∧
    m₂'.stack = #[Address.ofHeap 2, Address.ofHeap 0] := by
  have hcheck :
      ((compileModules [("main", "structure Pair\n    field String a\n    field String b\n" ++
        "var v = Pair \x7b a = \"x\", b = \"y\" \x7d\n")]).toOption.any fun p₁ =>
      (compileModules [("main", "structure Pair\n    field String a\n    field String b\n" ++
        "var v = Pair \x7b b = \"y\", a = \"x\" \x7d\n")]).toOption.any fun p₂ =>
      ((Machine.new {}).boot p₁).toOption.any fun m₁ =>
      ((Machine.new {}).boot p₂).toOption.any fun m₂ =>
        decide ((m₁.run 20 0).1.toOption = some .halted) &&
        decide ((m₂.run 20 0).1.toOption = some .halted) &&
        decide ((m₁.run 20 0).2.stack = #[Address.ofHeap 0, Address.ofHeap 2]) &&
        decide ((m₂.run 20 0).2.stack = #[Address.ofHeap 2, Address.ofHeap 0])) = true := by
    decide +kernel
  obtain ⟨p₁, hcompile₁, hcheck⟩ := exists_of_any hcheck
  obtain ⟨p₂, hcompile₂, hcheck⟩ := exists_of_any hcheck
  obtain ⟨m₁, hboot₁, hcheck⟩ := exists_of_any hcheck
  obtain ⟨m₂, hboot₂, hcheck⟩ := exists_of_any hcheck
  simp only [Bool.and_eq_true, decide_eq_true_eq] at hcheck
  obtain ⟨⟨⟨hresult₁, hresult₂⟩, hstack₁⟩, hstack₂⟩ := hcheck
  obtain ⟨m₁', hrun₁⟩ := Machine.run_eq_of_toOption hresult₁
  obtain ⟨m₂', hrun₂⟩ := Machine.run_eq_of_toOption hresult₂
  rw [hrun₁] at hstack₁
  rw [hrun₂] at hstack₂
  exact ⟨p₁, p₂, m₁, m₁', m₂, m₂', hcompile₁, hcompile₂, hboot₁, hrun₁, hboot₂, hrun₂, hstack₁, hstack₂⟩

end WordScript
