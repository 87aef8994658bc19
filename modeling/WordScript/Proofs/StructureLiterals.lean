/-
Structure literals.

The code of a literal first puts zeros on the stack, as many as the structure has words.
Then each initialiser's value is put on top and stored into its field, at a depth that is
computed from the layout.

* `Compiler.initialisers` — the initialisers of a literal, with the states of the
  compilation in front of their expressions and behind them;
* `Compiler.Initialises`, `Compiler.Constructs` — what is compiled for initialisers;
* `Chunk.Stores` — where a chunk has the stores of initialisers;
* `Machine.Fills` — a run over initialisers, whatever their expressions do besides.
-/
import WordScript.Proofs.ElementAssignment
import WordScript.Proofs.PlainValues
import WordScript.Proofs.StackDiscipline

namespace WordScript

/-- An initialiser of a structure literal: its field, and the states of the compilation in front of
its expression and behind it. -/
structure Initialiser where
  field : Field
  before : Compiler
  after : Compiler

/-! ### The initialisers of a literal -/

namespace Compiler

variable {g : Productions} {d : StructureType} {c c' : Compiler} {l : List Initialiser}

/-- The initialisers from one state of the compilation to the other: each is the name of a field and
an expression of its type, whose value is stored into the field. -/
inductive Initialises (g : Productions) (d : StructureType) :
    Compiler → List Initialiser → Compiler → Prop
  | nil (c : Compiler) (r : Reader) : Initialises g d c [] (c.on r)
  | cons {c c' : Compiler} {name : Token} {i : Initialiser} {l : List Initialiser} {r : Reader}
      {words : UInt8} {depth : UInt16} (hname : c.tokens[c.cursor]? = some name)
      (hfield : d.field? name.lexeme = some i.field) (hbefore : i.before = c.past.past)
      (hvalue : g.expression .or i.before = .ok (i.field.ty, i.after))
      (hwords : i.after.types.wordLength i.field.ty = .ok words.toNat)
      (hdepth : depth.toNat = d.wordLength - i.field.offset)
      (hrest : Initialises g d
        ((i.after.mapBuilder (·.push (.ofByteShort .storeTop words depth))).on r) l c') :
      Initialises g d c (i :: l) c'

/-- Where the next token is read does not matter behind the initialisers. -/
theorem Initialises.on (h : Initialises g d c l c') (r : Reader) : Initialises g d c l (c'.on r) := by
  induction h with
  | nil c r' => exact .nil c r
  | cons hname hfield hbefore hvalue hwords hdepth _ ih =>
    exact .cons hname hfield hbefore hvalue hwords hdepth ih

/-- The state behind an initialiser, whose value is stored into the place of the field. -/
def stored (d : StructureType) (f : Field) (c : Compiler) : Compiler :=
  c.mapBuilder (·.push (.ofByteShort .storeTop (UInt8.ofNat (c.types.words f.ty))
    (UInt16.ofNat (d.wordLength - f.offset))))

/-- The initialisers that stand at the cursor, as far as they are compiled. -/
def initialisersFrom (g : Productions) (d : StructureType) : Nat → Compiler → List Initialiser
  | 0, _ => []
  | budget + 1, c =>
    match d.field? c.current.lexeme, g.expression .or c.past.past with
    | some f, .ok (_, after) =>
      ⟨f, c.past.past, after⟩ :: if after.kindAt after.cursor = .symbol .comma then
        initialisersFrom g d budget (after.stored d f).past else []
    | _, _ => []

/-- The initialisers of the literal whose brace stands at the cursor. -/
def initialisers (g : Productions) (id : Nat) (c : Compiler) : List Initialiser :=
  let inside := c.past.mapBuilder
    (·.push (.ofByteShort .pushZero 0 (UInt16.ofNat (c.types.at_ id).wordLength)))
  if inside.kindAt inside.cursor = .symbol .rightBrace then []
  else inside.initialisersFrom g (c.types.at_ id) (inside.tokens.size - inside.cursor + 1)

/-- A literal with these initialisers, from behind the name of its type on. -/
def Constructs (g : Productions) (id : Nat) (c : Compiler) (l : List Initialiser) (c' : Compiler) :
    Prop :=
  ∃ (r : Reader) (total : UInt16), total.toNat = (c.types.at_ id).wordLength ∧
    Initialises g (c.types.at_ id)
      ((c.mapBuilder (·.push (.ofByteShort .pushZero 0 total))).on r) l c'

end Compiler

namespace Expression

open CompileM Compiler

variable {g : Productions} {d : StructureType} {c c' : Compiler} {token : Token}

/-- Whether a token was taken. -/
theorem matchKind_eq_ok {k : TokenKind} {taken : Bool} (hk : k ≠ .endOfFile)
    (h : matchKind k c = .ok (taken, c')) :
    c' = (if c.kindAt c.cursor = k then c.past else c) ∧ (taken = true ↔ c.kindAt c.cursor = k) := by
  obtain ⟨matched, c₁, hcheck, h₁⟩ := bind_eq_ok h
  obtain ⟨rfl, rfl⟩ : (c.kindAt c.cursor == k) = matched ∧ c = c₁ :=
    Prod.mk.inj (Except.ok.inj hcheck)
  by_cases hkind : c.kindAt c.cursor = k
  · rw [if_pos (beq_iff_eq.mpr hkind)] at h₁
    have hlt : c.cursor < c.tokens.size := by
      by_contra hge
      rw [Compiler.kindAt, Array.getElem?_eq_none (Nat.not_lt.mp hge)] at hkind
      exact hk hkind.symm
    obtain ⟨token, c₂, hadvance, hreturn⟩ := bind_eq_ok h₁
    rw [advance_eq (Array.getElem?_eq_getElem hlt)] at hadvance
    cases hadvance
    cases hreturn
    rw [if_pos hkind]
    exact ⟨rfl, iff_of_true rfl hkind⟩
  · rw [if_neg (by simpa using hkind)] at h₁
    cases h₁
    rw [if_neg hkind]
    exact ⟨rfl, iff_of_false Bool.false_ne_true hkind⟩

/-- What has been compiled for initialisers. -/
theorem initialises_of_ok {budget : Nat} (h : initialisers g d token budget c = .ok ((), c')) :
    Initialises g d c (c.initialisersFrom g d budget) c' := by
  induction budget generalizing c with
  | zero => exact absurd h (Fails.failFuel _ _ _)
  | succ budget ih =>
    obtain ⟨name, c₁, hname, h₁⟩ := bind_eq_ok h
    obtain ⟨hat, rfl⟩ := consume_eq_ok (by decide) hname
    cases hf : d.field? name.lexeme with
    | none =>
      rw [hf] at h₁
      exact absurd h₁ (Fails.fail _ _ _ _ _)
    | some f =>
      rw [hf] at h₁
      obtain ⟨_, c₂, hequal, h₂⟩ := bind_eq_ok h₁
      obtain ⟨-, rfl⟩ := consume_eq_ok (by decide) hequal
      obtain ⟨value, c₃, hcurrent, h₃⟩ := bind_eq_ok h₂
      cases hcurrent
      obtain ⟨ty, c₄, hexpression, h₄⟩ := bind_eq_ok h₃
      obtain ⟨_, c₅, hexpect, h₅⟩ := bind_eq_ok h₄
      obtain ⟨rfl, rfl⟩ := expectType_eq_ok hexpect
      obtain ⟨size, c₆, hsize, h₆⟩ := bind_eq_ok h₅
      obtain ⟨rfl, hn⟩ := wordsOf_eq_ok hsize
      obtain ⟨words, c₇, hbyte, h₇⟩ := bind_eq_ok h₆
      obtain ⟨rfl, hwords⟩ := byte_eq_ok hbyte
      obtain ⟨depth, after, hshort, h₈⟩ := bind_eq_ok h₇
      obtain ⟨rfl, hdepth⟩ := short_eq_ok hshort
      obtain ⟨_, c₉, hemit, h₉⟩ := bind_eq_ok h₈
      cases hemit
      obtain ⟨more, c₁₀, hmatch, hrest⟩ := bind_eq_ok h₉
      rw [← hwords] at hn
      have hstored : after.mapBuilder (·.push (.ofByteShort .storeTop words depth)) =
          after.stored d f := by
        rw [stored, TypeTable.words_of_wordLength hn, UInt8.ofNat_toNat, ← hdepth, UInt16.ofNat_toNat]
      rw [hstored] at hmatch
      obtain ⟨hnext, hmore⟩ := matchKind_eq_ok (by decide) hmatch
      have hkind : (after.stored d f).kindAt (after.stored d f).cursor = after.kindAt after.cursor := by
        rw [stored, Compiler.kindAt, Compiler.kindAt, tokens_mapBuilder, cursor_mapBuilder]
      rw [hkind] at hnext hmore
      have hread : g.expression .or c.past.past = .ok (f.ty, after) := hexpression
      rw [initialisersFrom, current_eq hat, hf, hread]
      dsimp only
      -- a comma, or the brace
      by_cases hcomma : after.kindAt after.cursor = .symbol .comma
      · rw [if_pos hcomma] at hnext ⊢
        subst hnext
        rw [if_pos (hmore.mpr hcomma)] at hrest
        have hl := ih hrest
        rw [← hstored] at hl ⊢
        exact .cons (r := (after.mapBuilder _).past.reader) hat hf rfl hexpression hn hdepth hl
      · rw [if_neg hcomma] at hnext ⊢
        rw [if_neg (mt hmore.mp hcomma)] at hrest
        subst hnext
        cases hrest
        rw [← hstored]
        let behind := after.mapBuilder (·.push (.ofByteShort .storeTop words depth))
        exact .cons (r := behind.reader) hat hf rfl hexpression hn hdepth (.nil behind behind.reader)

/-- What has been compiled for a literal. -/
theorem constructs_of_ok {id : Nat} {o : Operand}
    (h : structureLiteral g id token c = .ok (o, c')) :
    o = .value (.structure_ id) ∧ c.Constructs g id (c.initialisers g id) c' := by
  obtain ⟨_, c₁, hopen, h₁⟩ := bind_eq_ok h
  obtain ⟨-, hpast⟩ := consume_eq_ok (by decide) hopen
  obtain rfl : c₁ = c.past := hpast
  rw [ask_bind] at h₁
  obtain ⟨total, c₂, hshort, h₂⟩ := bind_eq_ok h₁
  obtain ⟨rfl, htotal⟩ := short_eq_ok hshort
  have htotal : total.toNat = (c.types.at_ id).wordLength := htotal
  obtain ⟨_, c₃, hemit, h₃⟩ := bind_eq_ok h₂
  cases hemit
  obtain ⟨inside, hinside⟩ : ∃ inside, c.past.mapBuilder
      (·.push (.ofByteShort .pushZero 0 total)) = inside := ⟨_, rfl⟩
  have hon : inside = (c.mapBuilder (·.push (.ofByteShort .pushZero 0 total))).on c.past.reader := by
    rw [← hinside, ← mapBuilder_on]
    rfl
  rw [hinside] at h₃
  rw [Compiler.initialisers, ← htotal, UInt16.ofNat_toNat, hinside]
  obtain ⟨closed, c₄, hcheck, h₄⟩ := bind_eq_ok h₃
  obtain ⟨hclosed, rfl⟩ := Prod.mk.inj (Except.ok.inj hcheck)
  by_cases hbrace : inside.kindAt inside.cursor = .symbol .rightBrace
  · rw [if_pos hbrace]
    obtain rfl : true = closed := by rw [← hclosed]; exact (beq_iff_eq.mpr hbrace).symm
    obtain ⟨_, c₅, hclose, hreturn⟩ := bind_eq_ok h₄
    rw [hon] at hclose
    obtain ⟨⟨r, rfl⟩, -⟩ := Reads.consume _ _ _ _ _ hclose
    cases hreturn
    exact ⟨rfl, r, total, htotal, .nil _ r⟩
  · rw [if_neg hbrace]
    obtain rfl : false = closed := by rw [← hclosed]; exact (beq_eq_false_iff_ne.mpr hbrace).symm
    obtain ⟨budget, c₅, hbudget, h₅⟩ := bind_eq_ok h₄
    cases hbudget
    obtain ⟨_, c₆, hinitialisers, h₆⟩ := bind_eq_ok h₅
    obtain ⟨_, c₇, hclose, hreturn⟩ := bind_eq_ok h₆
    obtain ⟨⟨r, rfl⟩, -⟩ := Reads.consume _ _ c₆.reader _ _ hclose
    cases hreturn
    have hall := (initialises_of_ok hinitialisers).on r
    refine ⟨rfl, c.past.reader, total, htotal, ?_⟩
    rw [← hon]
    exact hall

end Expression

/-! ### The sizes of values -/

namespace Stage

open Compiler

variable {G : Outlook} {g : Productions} {d : StructureType} {s s₀ s₁ : Stage} {l : List Initialiser}
  {c c' : Compiler} {n m : Nat}

/-- The expression of an initialiser in a literal that begins at the stage `s₀`: in every program that
goes on as the stage `s'` does, its code ends with the words of the field above those of the
structure. -/
structure Sizes (s₀ s' : Stage) (d : StructureType) (i : Initialiser) : Prop where
  extends_ : i.before.builder.code.Extends i.after.builder.code
  later : i.after.builder.code.Extends s'.builder.code
  words : i.after.types.words i.field.ty = s₀.types.words i.field.ty
  height : ∀ {L : Linkage} {shape : Option ChunkShape} {heights : Nat → Nat} {P : Chunk},
    s'.linkage.Le L → P.Shaped L shape heights →
    P.Holds s₀.builder.code i.after.builder.code →
    heights i.after.here = heights s₀.here + (d.wordLength + s₀.types.words i.field.ty)

/-- Where the code between two stages leads in any program. -/
theorem Ready.height (h : s.Ready (G.mark (s₀.here, n)) (n + m)) (hle : s₀.Le .value s)
    {L : Linkage} {shape : Option ChunkShape} {heights : Nat → Nat} {P : Chunk}
    (hL : s.linkage.Le L) (hP : P.Shaped L shape heights)
    (hholds : P.Holds s₀.builder.code s.builder.code) : heights s.here = heights s₀.here + m := by
  have hgain := hle.code.gain h.at_.code hL hP hholds
  show heights s.builder.code.code.size = heights s₀.builder.code.code.size + m
  omega

/-- The initialisers of a literal. -/
theorem Ready.sizes (hg : g.Disciplined) (hchain : Initialises g d c l c') :
    ∀ {s : Stage} {r : Reader}, c = s.toCompiler.on r →
      s.Ready (G.mark (s₀.here, n)) (n + d.wordLength) → s₀.Le .value s → s₀.scopeWords ≤ n →
      FieldsFit d s₀ →
      ∃ (s' : Stage) (r' : Reader), c' = s'.toCompiler.on r' ∧ s.Le .value s' ∧
        s'.Ready (G.mark (s₀.here, n)) (n + d.wordLength) ∧ ∀ i ∈ l, s₀.Sizes s' d i := by
  induction hchain with
  | nil c r' =>
    rintro s r rfl h - - -
    exact ⟨s, r', rfl, .refl _ s, h, fun i hi => nomatch hi⟩
  | @cons c c' name i l r' words depth hname hfield hbefore hvalue hwords hdepth hrest ih =>
    rintro s r rfl h hle hn hd
    obtain ⟨hb, hin⟩ := hd i.field (List.mem_of_find?_eq_some hfield)
    have hn' : s.scopeWords ≤ n := by
      rw [hle.scopeWords_eq]
      exact hn
    rw [hbefore] at hvalue
    obtain ⟨s₁, r₁, hafter, hle₁, hs₁⟩ := hg.expression .or h (Nat.le_add_right_of_le hn')
      { r with cursor := r.cursor + 1 + 1 } _ _ hvalue
    have hle₀ := hle.trans hle₁
    have hready := hs₁.ready
    have hsize := hle₀.types.words_eq hb
    rw [Operand.height, hsize, Nat.add_assoc] at hready
    rw [hafter] at hrest hwords
    have hwords : s₁.types.words i.field.ty = words.toNat := TypeTable.words_of_wordLength hwords
    -- the value is stored into its field
    have hemit : Moves .value s₁ (CompileM.emit (.ofByteShort .storeTop words depth)) fun _ s' =>
        s'.Ready (G.mark (s₀.here, n)) (n + d.wordLength) := by
      refine hready.emit .storeTop (by simp) ?_ ?_ rfl ?_
      · simp only [Instruction.pops, Instruction.a_ofByteShort]
        omega
      · simp only [Instruction.Admits, Instruction.a_ofByteShort, Instruction.short_ofByteShort]
        omega
      · simp only [Instruction.pops, Instruction.pushes, Instruction.a_ofByteShort]
        omega
    obtain ⟨s₂, r₂, hpushed, hle₂, hs₂⟩ := hemit r₁ () _ rfl
    have hpushed : (s₁.toCompiler.on r₁).mapBuilder
        (·.push (.ofByteShort .storeTop words depth)) = s₂.toCompiler.on r₂ := hpushed
    rw [hpushed] at hrest
    obtain ⟨s', r'', rfl, hle', hs', hall⟩ := ih (s := s₂) (r := r') (by rw [hafter, hpushed]; rfl)
      hs₂ (hle₀.trans hle₂) hn hd
    refine ⟨s', r'', rfl, (hle₁.trans hle₂).trans hle', hs', ?_⟩
    rintro j (_ | ⟨_, hj⟩)
    · refine ⟨?_, ?_, ?_, fun hL hP hholds => ?_⟩
      · rw [hbefore, hafter]
        exact hle₁.code.toExtends
      · rw [hafter]
        exact (hle₂.trans hle').code.toExtends
      · rw [hafter]
        exact hsize
      · rw [hafter] at hholds ⊢
        exact hready.height hle₀ ((hle₂.trans hle').linkage.trans hL) hP hholds
    · exact hall j hj

end Stage

/-! ### The code of a literal -/

/-- Where a chunk has the code of initialisers.  Each one's expression is followed by the store into
its field; the first begins at one place, and the last store stands in front of the other. -/
inductive Chunk.Stores (P : Chunk) (t : TypeTable) (d : StructureType) :
    Nat → List Initialiser → Nat → Prop
  | nil (k : Nat) : Stores P t d k [] k
  | cons {k k' : Nat} {i : Initialiser} {l : List Initialiser} {words : UInt8} {depth : UInt16}
      (hfield : i.field ∈ d.fields) (hbefore : i.before.here = k)
      (hcode : P.Holds i.before.builder.code i.after.builder.code)
      (hstore : P.code[i.after.here]? = some (.ofByteShort .storeTop words depth))
      (hwords : words.toNat = t.words i.field.ty)
      (hdepth : depth.toNat = d.wordLength - i.field.offset)
      (hrest : Stores P t d (i.after.here + 1) l k') : Stores P t d k (i :: l) k'

/-- The store of an initialiser. -/
theorem Chunk.Stores.of_mem {P : Chunk} {t : TypeTable} {d : StructureType} {k k' : Nat}
    {l : List Initialiser} {i : Initialiser} (h : P.Stores t d k l k') (hi : i ∈ l) :
    i.field ∈ d.fields ∧ ∃ (words : UInt8) (depth : UInt16),
      P.code[i.after.here]? = some (.ofByteShort .storeTop words depth) ∧
      words.toNat = t.words i.field.ty ∧ depth.toNat = d.wordLength - i.field.offset := by
  induction h with
  | nil k => cases hi
  | cons hfield _ _ hstore hwords hdepth _ ih =>
    rcases List.mem_cons.mp hi with rfl | hi
    · exact ⟨hfield, _, _, hstore, hwords, hdepth⟩
    · exact ih hi

namespace Compiler

variable {g : Productions} {t : TypeTable} {d : StructureType} {c c' : Compiler}
  {l : List Initialiser}

/-- What initialisers have added. -/
theorem Initialises.stores (h : Initialises g d c l c')
    (hl : ∀ i ∈ l, i.before.builder.code.Extends i.after.builder.code ∧
      i.after.types.words i.field.ty = t.words i.field.ty) :
    c.builder.code.Extends c'.builder.code ∧
      ∀ P : Chunk, P.Holds c.builder.code c'.builder.code → P.Stores t d c.here l c'.here := by
  induction h with
  | nil c r => exact ⟨.refl _, fun P _ => .nil _⟩
  | @cons c c' name i l r words depth hname hfield hbefore hvalue hwords hdepth hrest ih =>
    obtain ⟨⟨hextends, htypes⟩, hl⟩ := List.forall_mem_cons.mp hl
    obtain ⟨hlater, hstores⟩ := ih hl
    have hbuilder : i.before.builder = c.builder := by
      rw [hbefore]
      rfl
    have hstore := extends_push i.after (.ofByteShort .storeTop words depth)
    have hfirst : c.builder.code.Extends i.after.builder.code := hbuilder ▸ hextends
    refine ⟨(hfirst.trans hstore).trans hlater, fun P hP => ?_⟩
    have hpushed := hP.left hlater
    refine .cons (List.mem_of_find?_eq_some hfield) (congrArg (fun b => b.code.code.size) hbuilder)
      ?_ (getElem?_of_holds_push hpushed hfirst) ?_ hdepth ?_
    · rw [hbuilder]
      exact hpushed.left hstore
    · rw [← htypes]
      exact (TypeTable.words_of_wordLength hwords).symm
    · have hlast := hstores P (hP.right (hfirst.trans hstore))
      rwa [show Compiler.here (Compiler.on _ r) = i.after.here + 1 from here_push _ _] at hlast

end Compiler

end WordScript
