/-
Structure literals of literals and variables.

An initialiser that is a literal or a variable has the same value wherever it stands among
the others: nothing that is evaluated in between changes the variables, and the words under
construction lie above them.  So the words of the structure depend on no more than what comes
last for each field, and initialisers of different fields may change places.

* `Initialiser.Simple` — the initialisers that this is about, in a machine;
* `Compiler.Initialises.gives` — each one's code gives its value;
* `Compiler.Initialises.fills` — the code of all of them fills the words of the structure;
* `Compiler.Initialises.same_words`, `Compiler.Constructs.same_words` — the same words in
  another order.

Design notes: what is written in an initialiser is compared, its field and its token, and not
what has been compiled for it, since the code of another order stands in another program.
-/
import WordScript.Proofs.LiteralRuns

namespace WordScript

/-! ### Simple initialisers -/

namespace Initialiser

/-- What is written: the field, and the first token of the expression. -/
def source (i : Initialiser) : Field × TokenKind × String :=
  (i.field, i.before.current.kind, i.before.current.lexeme)

/-- The expression is a literal other than a string, or a variable.  What a reference refers to is
there in the machine. -/
structure Simple (m : Machine) (i : Initialiser) : Prop where
  value : ∃ token, i.before.tokens[i.before.cursor]? = some token ∧ i.before.Plain token ∧
    token.kind ≠ .string
  ends : i.before.kindAt (i.before.cursor + 1) ∈ [TokenKind.symbol .comma, .symbol .rightBrace]
  refers : ∀ v ty, i.before.scopes.lookupVariable? i.before.scope i.before.current.lexeme = some v →
    v.ty = .reference ty → (m.wordsOf? i.before.types v).isSome

/-- Of the variable that the token names, if it is a reference, the words are there. -/
def refersIn (i : Initialiser) (m : Machine) : Bool :=
  match i.before.scopes.lookupVariable? i.before.scope i.before.current.lexeme with
  | some v =>
    match v.ty with
    | .reference _ => (m.wordsOf? i.before.types v).isSome
    | _ => true
  | none => true

theorem refersIn_iff {i : Initialiser} {m : Machine} : i.refersIn m = true ↔
    ∀ v ty, i.before.scopes.lookupVariable? i.before.scope i.before.current.lexeme = some v →
      v.ty = .reference ty → (m.wordsOf? i.before.types v).isSome := by
  rw [refersIn]
  cases i.before.scopes.lookupVariable? i.before.scope i.before.current.lexeme with
  | none => exact iff_of_true rfl fun v ty h => nomatch h
  | some v =>
    dsimp only
    constructor
    · intro h _ ty hv hty
      cases hv
      rwa [hty] at h
    · intro h
      split
      · exact h v _ rfl ‹_›
      · rfl

instance (m : Machine) (i : Initialiser) : Decidable (i.Simple m) :=
  decidable_of_iff (i.before.tokens[i.before.cursor]?.any (fun token =>
      decide (i.before.Plain token) && decide (token.kind ≠ .string)) = true ∧
    i.before.kindAt (i.before.cursor + 1) ∈ [TokenKind.symbol .comma, .symbol .rightBrace] ∧
    i.refersIn m = true) <| by
  rw [Option.any_eq_true]
  simp only [Bool.and_eq_true, decide_eq_true_eq, refersIn_iff]
  constructor
  · rintro ⟨hvalue, hends, hrefers⟩
    exact ⟨hvalue, hends, hrefers⟩
  · rintro ⟨hvalue, hends, hrefers⟩
    exact ⟨hvalue, hends, hrefers⟩

end Initialiser

namespace Compiler

/-- Names and types mean the same in both states. -/
structure SameNames (c c' : Compiler) : Prop where
  types : c'.types = c.types
  scopes : c'.scopes = c.scopes
  scope : c'.scope = c.scope

namespace SameNames

variable {c c₁ c' : Compiler} {code : List Instruction}

theorem refl (c : Compiler) : c.SameNames c :=
  ⟨rfl, rfl, rfl⟩

theorem trans (h : c.SameNames c₁) (h' : c₁.SameNames c') : c.SameNames c' :=
  ⟨h'.types.trans h.types, h'.scopes.trans h.scopes, h'.scope.trans h.scope⟩

theorem of_appends (h : c.Appends code c') : c.SameNames c' :=
  ⟨h.types, h.scopes, h.scope⟩

end SameNames

/-- The variables that are not references lie on the stack of the machine. -/
def Reaches (c : Compiler) (m : Machine) : Prop :=
  ∀ name v, c.scopes.lookupVariable? c.scope name = some v → (∀ ty, v.ty ≠ .reference ty) →
    m.slot v + c.types.words v.ty ≤ m.stack.size

/-- The field of an initialiser, with the value that its token has in a machine. -/
def valueOf (c : Compiler) (m : Machine) (x : Field × TokenKind × String) : Field × Array Word :=
  (x.1, (c.value? m x.2.1 x.2.2).getD #[])

variable {c c₀ c' : Compiler} {m : Machine} {k : Nat} {d : StructureType} {l : List Initialiser}
  {i : Initialiser}

/-- A variable has a value if it lies on the stack, or what it refers to is there. -/
theorem Reaches.isSome_wordsOf? (h : c.Reaches m) {name : String} {v : Variable}
    (hv : c.scopes.lookupVariable? c.scope name = some v)
    (hrefers : ∀ ty, v.ty = .reference ty → (m.wordsOf? c.types v).isSome) :
    (m.wordsOf? c.types v).isSome := by
  by_cases hty : ∃ ty, v.ty = .reference ty
  · obtain ⟨ty, hty⟩ := hty
    exact hrefers ty hty
  · rw [Machine.wordsOf?]
    split
    · rename_i ty hreference
      exact absurd ⟨ty, hreference⟩ hty
    · rw [if_pos (h name v hv fun ty hreference => hty ⟨ty, hreference⟩)]
      rfl

/-- The code of a simple initialiser gives its value. -/
theorem gives_of_simple (hsimple : i.Simple m) (hnames : c₀.SameNames i.before)
    (hreaches : c₀.Reaches m)
    (hread : (productions k).expression .or i.before = .ok (i.field.ty, i.after)) :
    i.before.Gives i.after m (c₀.valueOf m i.source).2 ∧
      (c₀.valueOf m i.source).2.size = c₀.types.words i.field.ty ∧ c₀.SameNames i.after := by
  obtain ⟨token, htoken, hplain, hstring⟩ := hsimple.value
  cases k with
  | zero => exact absurd hread (Fails.failFuel _ _ _)
  | succ k =>
    have hends : i.before.kindAt (i.before.cursor + 1) ∈ Expression.ends :=
      List.mem_append_right [_, _, _, _] hsimple.ends
    -- nothing that a variable depends on has changed since the literal began
    have hreaches : i.before.Reaches m := by
      rw [Reaches, hnames.types, hnames.scopes, hnames.scope]
      exact hreaches
    have hcurrent := CompileM.current_eq htoken
    obtain ⟨o, c₁, hprimary, -⟩ := Expression.read_of_plain htoken hplain hends hread
    obtain ⟨w, hw⟩ := Expression.exists_value? htoken hplain hstring
      (fun v hv => hreaches.isSome_wordsOf? hv fun ty hty => by
        refine hsimple.refers v ty ?_ hty
        rw [hcurrent, hv]) hprimary
    obtain ⟨hgives, hsize⟩ := Expression.gives_of_read htoken hw hends hread
    obtain ⟨_, code, -, -, happends⟩ := Expression.read_plain ⟨token, htoken, hplain⟩ hends hread
    have hvalue : (c₀.valueOf m i.source).2 = w := by
      rw [valueOf, Initialiser.source, hcurrent,
        ← value?_congr hnames.types hnames.scopes hnames.scope rfl rfl rfl, hw, Option.getD_some]
    rw [hvalue]
    rw [hnames.types] at hsize
    exact ⟨hgives, hsize, hnames.trans (.of_appends happends)⟩

/-- The code of each of simple initialisers gives its value. -/
theorem Initialises.gives (h : Initialises (productions k) d c l c') (hnames : c₀.SameNames c)
    (hsimple : ∀ i ∈ l, i.Simple m) (hreaches : c₀.Reaches m) :
    ∀ i ∈ l, i.field ∈ d.fields ∧ i.before.Gives i.after m (c₀.valueOf m i.source).2 ∧
      (c₀.valueOf m i.source).2.size = c₀.types.words i.field.ty ∧ c₀.SameNames i.after := by
  generalize hg : productions k = g at h
  induction h with
  | nil c r => exact fun i hi => nomatch hi
  | @cons c c' name i l r words depth hname hfield hbefore hvalue hwords hdepth hrest ih =>
    obtain ⟨hi, hl⟩ := List.forall_mem_cons.mp hsimple
    have hbeside : c₀.SameNames i.before := by
      rw [hbefore]
      exact hnames.trans ⟨rfl, rfl, rfl⟩
    obtain ⟨hgives, hsize, hafter⟩ := gives_of_simple hi hbeside hreaches (hg ▸ hvalue)
    refine List.forall_mem_cons.mpr
      ⟨⟨List.mem_of_find?_eq_some hfield, hgives, hsize, hafter⟩, ih ?_ hl⟩
    exact hafter.trans ((SameNames.of_appends (.push i.after _)).trans (.of_appends (.on _ r)))

/-- The values suit the fields. -/
theorem Initialises.suits (h : Initialises (productions k) d c l c') (hnames : c₀.SameNames c)
    (hsimple : ∀ i ∈ l, i.Simple m) (hreaches : c₀.Reaches m) :
    c₀.types.Suits d ((l.map Initialiser.source).map (c₀.valueOf m)) := by
  rintro x hx
  obtain ⟨y, hy, rfl⟩ := List.mem_map.mp hx
  obtain ⟨i, hi, rfl⟩ := List.mem_map.mp hy
  obtain ⟨hfield, -, hsize, -⟩ := h.gives hnames hsimple hreaches i hi
  exact ⟨hfield, hsize⟩

end Compiler

/-! ### Filling the words of the structure -/

namespace Exec

variable {p : Program} {P : Chunk} {time : Float} {m : Machine} {t : TypeTable} {d : StructureType}
  {l : List Initialiser} {k last : Nat} {V : Array Word}

/-- Initialisers that give values leave the words under construction alone. -/
theorem fills_of_gives (value : Initialiser → Field × Array Word) (hplaces : t.Places d)
    (hP : p.chunks[m.chunk]? = some P) (hstores : P.Stores t d k l last)
    (hgives : ∀ i ∈ l, (value i).1 = i.field ∧ i.before.Gives i.after m (value i).2 ∧
      (value i).2.size = t.words i.field.ty) (hV : V.size = d.wordLength) :
    (m.at_ k (m.stack ++ V)).Fills p time m.stack.size d.wordLength
      (l.map fun i => (i, (value i).2)) (m.at_ last (m.stack ++ Words.fill V (l.map value))) := by
  induction hstores generalizing V with
  | nil k => exact .nil _
  | @cons k k' i l words depth hfield hbefore hcode hstore hwords hdepth hrest ih =>
    obtain ⟨⟨hname, hi, hsize⟩, hl⟩ := List.forall_mem_cons.mp hgives
    obtain ⟨n, hvalue⟩ := hi.leads time V hP hcode rfl rfl
    rw [hbefore] at hvalue
    have hstored : Leads p time 1 (m.at_ i.after.here (m.stack ++ V ++ (value i).2))
        (m.at_ (i.after.here + 1) (m.stack ++ Words.write V i.field.offset (value i).2.toList)) :=
      leads_storeTop hP hstore (hsize.trans hwords.symm) (by rw [hdepth, hV])
        (by rw [hV, hsize]; exact hplaces.inside i.field hfield)
    rw [List.map_cons, List.map_cons, Words.fill_cons, hname]
    refine .cons ⟨⟨n, hvalue⟩, rfl, rfl, rfl, rfl, ?_, ?_⟩ hstored
      (ih hl ((Words.size_write _ _ _).trans hV))
    · show Words.run (m.stack ++ V ++ _) _ _ = Words.run (m.stack ++ V) _ _
      rw [Words.run_append_left _ _ (by rw [Array.size_append, hV])]
    · have hbelow : m.stack.size + d.wordLength = (m.stack ++ V).size := by
        rw [Array.size_append, hV]
      have hend : (m.stack ++ V ++ (value i).2).size = (m.stack ++ V).size + (value i).2.size :=
        Array.size_append
      show (m.stack ++ V ++ (value i).2).extract _ (m.stack ++ V ++ (value i).2).size = _
      rw [hbelow, hend]
      exact Words.run_append_right _ _

end Exec

namespace Compiler

variable {c c₀ c₁ c₂ c' c₁' c₂' : Compiler} {m m₁ m₂ : Machine} {k id : Nat} {d : StructureType}
  {l l₁ l₂ : List Initialiser} {p p₁ p₂ : Program} {P P₁ P₂ : Chunk} {time time₁ time₂ : Float}
  {V : Array Word}

/-- The code of simple initialisers fills the words of the structure with their values. -/
theorem Initialises.fills (h : Initialises (productions k) d c l c') (hplaces : c₀.types.Places d)
    (hnames : c₀.SameNames c) (hsimple : ∀ i ∈ l, i.Simple m) (hreaches : c₀.Reaches m) :
    c.builder.code.Extends c'.builder.code ∧
      ∀ {p : Program} {P : Chunk} (time : Float) {V : Array Word}, p.chunks[m.chunk]? = some P →
        P.Holds c.builder.code c'.builder.code → V.size = d.wordLength →
        (m.at_ c.here (m.stack ++ V)).Fills p time m.stack.size d.wordLength
          (l.map fun i => (i, (c₀.valueOf m i.source).2)) (m.at_ c'.here
            (m.stack ++ Words.fill V ((l.map Initialiser.source).map (c₀.valueOf m)))) := by
  have hgives := h.gives hnames hsimple hreaches
  obtain ⟨hextends, hstores⟩ := h.stores (t := c₀.types) fun i hi => by
    obtain ⟨-, hi, -, hafter⟩ := hgives i hi
    exact ⟨hi.adds, by rw [hafter.types]⟩
  refine ⟨hextends, fun {p P} time {V} hP hholds hV => ?_⟩
  rw [List.map_map]
  refine Exec.fills_of_gives (fun i => c₀.valueOf m i.source) hplaces hP (hstores P hholds)
    (fun i hi => ?_) hV
  obtain ⟨-, hi, hsize, -⟩ := hgives i hi
  exact ⟨rfl, hi, hsize⟩

/-- The initialisers of each field are the same, in the same order: only those of different fields
have changed places. -/
def SameSources (l l' : List Initialiser) : Prop :=
  ∀ f : Field, (l.map Initialiser.source).filter (fun x => x.1 = f) =
    (l'.map Initialiser.source).filter fun x => x.1 = f

/-- Initialisers of two fields that stand side by side may change places. -/
theorem SameSources.swap {x y : Field × TokenKind × String} {xs ys : List (Field × TokenKind × String)}
    (h₁ : l₁.map Initialiser.source = xs ++ x :: y :: ys)
    (h₂ : l₂.map Initialiser.source = xs ++ y :: x :: ys) (hfields : x.1 ≠ y.1) :
    SameSources l₁ l₂ := by
  intro f
  rw [h₁, h₂, List.filter_append, List.filter_append]
  congr 1
  by_cases hx : x.1 = f
  · have hy : y.1 ≠ f := fun hy => hfields (hx.trans hy.symm)
    simp only [List.filter_cons, hx, hy, decide_true, decide_false, if_true, Bool.false_eq_true, if_false]
  · by_cases hy : y.1 = f <;>
      simp only [List.filter_cons, hx, hy, decide_true, decide_false, if_true, Bool.false_eq_true, if_false]

/-- What comes last for a field is the same then. -/
theorem SameSources.last?_eq (h : SameSources l₁ l₂) (f : Field)
    {value : Field × TokenKind × String → Field × Array Word} (hvalue : ∀ x, (value x).1 = x.1) :
    f.last? ((l₁.map Initialiser.source).map value) =
      f.last? ((l₂.map Initialiser.source).map value) := by
  have hfilter : ∀ xs : List (Field × TokenKind × String),
      (xs.map value).filter (fun x => x.1 = f) = (xs.filter fun x => x.1 = f).map value := by
    intro xs
    rw [List.filter_map]
    congr 1
    refine List.filter_congr fun x _ => ?_
    rw [Function.comp_apply, hvalue]
  rw [← Field.last?_filter, hfilter, h f, ← hfilter, Field.last?_filter]

end Compiler

/-! ### Initialisers in another order -/

namespace Machine

/-- The code that has been added from one state of the compilation to the other is in the chunk that
the machine runs. -/
def Has (m : Machine) (p : Program) (c c' : Compiler) : Prop :=
  ∃ P, p.chunks[m.chunk]? = some P ∧ P.Holds c.builder.code c'.builder.code

instance (m : Machine) (p : Program) (c c' : Compiler) : Decidable (m.Has p c c') :=
  decidable_of_iff (p.chunks[m.chunk]?.any (fun P =>
      decide (P.Holds c.builder.code c'.builder.code)) = true) <| by
    simp only [Option.any_eq_true, decide_eq_true_eq]
    rfl

/-- Variables have the same words in both machines. -/
structure SameMemory (m m' : Machine) : Prop where
  stack : m'.stack = m.stack
  heap : m'.heap = m.heap
  fp : m'.fp = m.fp

end Machine

namespace Compiler

theorem Reaches.of_sameMemory {c : Compiler} {m m' : Machine} (h : c.Reaches m)
    (hmemory : m.SameMemory m') : c.Reaches m' := by
  intro name v hv hty
  rw [Machine.slot, hmemory.fp, hmemory.stack]
  exact h name v hv hty

/-- A literal of simple initialisers begins with the zeros that they fill. -/
theorem Constructs.zeros {c c₀ c' : Compiler} {k id : Nat} {l : List Initialiser} {m : Machine}
    {p : Program} (h : c.Constructs (productions k) id l c')
    (hplaces : c₀.types.Places (c₀.types.at_ id)) (hnames : c₀.SameNames c)
    (hsimple : ∀ i ∈ l, i.Simple m) (hreaches : c₀.Reaches m) (hp : m.Has p c c') (time : Float) :
    ∃ c₁, c₀.SameNames c₁ ∧ Initialises (productions k) (c₀.types.at_ id) c₁ l c' ∧
      m.Has p c₁ c' ∧ c₁.here = c.here + 1 ∧ Exec.Leads p time 1 (m.at_ c.here m.stack)
        (m.at_ c₁.here (m.stack ++ Array.replicate (c₀.types.at_ id).wordLength 0)) := by
  obtain ⟨r, total, htotal, hchain⟩ := h
  obtain ⟨P, hP, hholds⟩ := hp
  rw [hnames.types] at htotal hchain
  have hpushed := hnames.trans
    ((SameNames.of_appends (.push c (.ofByteShort .pushZero 0 total))).trans (.of_appends (.on _ r)))
  have hpush := extends_push c (.ofByteShort .pushZero 0 total)
  obtain ⟨hextends, -⟩ := hchain.fills hplaces hpushed hsimple hreaches
  refine ⟨_, hpushed, hchain, ⟨P, hP, hholds.right hpush⟩, here_push c _, ?_⟩
  have hzeros : Exec.Leads p time 1 (m.at_ c.here m.stack) _ :=
    Exec.leads_pushZero hP (getElem?_of_holds_push (hholds.left hextends) (.refl _))
  rwa [htotal, ← here_push c (.ofByteShort .pushZero 0 total)] at hzeros

/-- Simple initialisers leave the words under construction alone. -/
theorem Constructs.fills {c c' : Compiler} {k id : Nat} {l : List Initialiser} {m : Machine}
    {p : Program} (h : c.Constructs (productions k) id l c') (hplaces : c.types.Places (c.types.at_ id))
    (hsimple : ∀ i ∈ l, i.Simple m) (hreaches : c.Reaches m) (hp : m.Has p c c') (time : Float) :
    ∃ m', Machine.Fills p time m.stack.size (c.types.at_ id).wordLength
      (m.at_ (c.here + 1) (m.stack ++ Array.replicate (c.types.at_ id).wordLength 0))
      (l.map fun i => (i, (c.valueOf m i.source).2)) m' := by
  obtain ⟨c₁, hpushed, hchain, ⟨P, hP, hholds⟩, hhere, -⟩ :=
    h.zeros hplaces (.refl c) hsimple hreaches hp time
  obtain ⟨-, hfills⟩ := hchain.fills hplaces hpushed hsimple hreaches
  rw [← hhere]
  exact ⟨_, hfills time hP hholds Array.size_replicate⟩

variable {c₀ c₁ c₂ c₁' c₂' : Compiler} {m₁ m₂ : Machine} {k₁ k₂ id : Nat} {d : StructureType}
  {l₁ l₂ : List Initialiser} {p₁ p₂ : Program} {V : Array Word}

section

variable (hnames₁ : c₀.SameNames c₁) (hnames₂ : c₀.SameNames c₂)
  (hsimple₁ : ∀ i ∈ l₁, i.Simple m₁) (hsimple₂ : ∀ i ∈ l₂, i.Simple m₂)
  (hsources : SameSources l₁ l₂) (hreaches : c₀.Reaches m₁) (hmemory : m₁.SameMemory m₂)
  (hp₁ : m₁.Has p₁ c₁ c₁') (hp₂ : m₂.Has p₂ c₂ c₂') (time₁ time₂ : Float)

include hnames₁ hnames₂ hsimple₁ hsimple₂ hsources hreaches hmemory hp₁ hp₂

/-- Simple initialisers leave the same words in every order that keeps those of each field in theirs,
whatever the words were before. -/
theorem Initialises.same_words (hplaces : c₀.types.Places d)
    (h₁ : Initialises (productions k₁) d c₁ l₁ c₁')
    (h₂ : Initialises (productions k₂) d c₂ l₂ c₂') (hV : V.size = d.wordLength) :
    ∃ V' : Array Word, V'.size = d.wordLength ∧
      (∃ n, Exec.Leads p₁ time₁ n (m₁.at_ c₁.here (m₁.stack ++ V))
        (m₁.at_ c₁'.here (m₁.stack ++ V'))) ∧
      ∃ n, Exec.Leads p₂ time₂ n (m₂.at_ c₂.here (m₂.stack ++ V))
        (m₂.at_ c₂'.here (m₂.stack ++ V')) := by
  obtain ⟨P₁, hP₁, hholds₁⟩ := hp₁
  obtain ⟨P₂, hP₂, hholds₂⟩ := hp₂
  have hvalue : c₀.valueOf m₂ = c₀.valueOf m₁ := by
    funext x
    rw [valueOf, valueOf, value?_congr rfl rfl rfl hmemory.stack hmemory.heap hmemory.fp]
  have hreaches₂ := hreaches.of_sameMemory hmemory
  have hfill : Words.fill V ((l₁.map Initialiser.source).map (c₀.valueOf m₁)) =
      Words.fill V ((l₂.map Initialiser.source).map (c₀.valueOf m₁)) := by
    have hsuits₂ := h₂.suits hnames₂ hsimple₂ hreaches₂
    rw [hvalue] at hsuits₂
    exact hplaces.fill_eq hV (h₁.suits hnames₁ hsimple₁ hreaches) hsuits₂
      fun f _ => hsources.last?_eq f fun _ => rfl
  obtain ⟨-, hfills₁⟩ := h₁.fills hplaces hnames₁ hsimple₁ hreaches
  obtain ⟨-, hfills₂⟩ := h₂.fills hplaces hnames₂ hsimple₂ hreaches₂
  have hsecond := (hfills₂ time₂ hP₂ hholds₂ hV).leads
  rw [hvalue, ← hfill] at hsecond
  exact ⟨_, (Words.size_fill _ _).trans hV, (hfills₁ time₁ hP₁ hholds₁ hV).leads, hsecond⟩

/-- So do whole literals. -/
theorem Constructs.same_words (hplaces : c₀.types.Places (c₀.types.at_ id))
    (h₁ : c₁.Constructs (productions k₁) id l₁ c₁')
    (h₂ : c₂.Constructs (productions k₂) id l₂ c₂') :
    ∃ V : Array Word, V.size = (c₀.types.at_ id).wordLength ∧
      (∃ n, Exec.Leads p₁ time₁ n (m₁.at_ c₁.here m₁.stack)
        (m₁.at_ c₁'.here (m₁.stack ++ V))) ∧
      ∃ n, Exec.Leads p₂ time₂ n (m₂.at_ c₂.here m₂.stack)
        (m₂.at_ c₂'.here (m₂.stack ++ V)) := by
  obtain ⟨_, hpushed₁, hchain₁, hhas₁, -, hzeros₁⟩ :=
    h₁.zeros hplaces hnames₁ hsimple₁ hreaches hp₁ time₁
  obtain ⟨_, hpushed₂, hchain₂, hhas₂, -, hzeros₂⟩ :=
    h₂.zeros hplaces hnames₂ hsimple₂ (hreaches.of_sameMemory hmemory) hp₂ time₂
  obtain ⟨V, hV, ⟨n₁, hleads₁⟩, n₂, hleads₂⟩ := Initialises.same_words hpushed₁ hpushed₂ hsimple₁
    hsimple₂ hsources hreaches hmemory hhas₁ hhas₂ time₁ time₂ hplaces hchain₁ hchain₂
    Array.size_replicate
  exact ⟨V, hV, ⟨1 + n₁, hzeros₁.trans hleads₁⟩, 1 + n₂, hzeros₂.trans hleads₂⟩

end

end Compiler

end WordScript
