/-
Literals and the constants of a chunk.

Numbers and texts go into one pool.  A number that does not fit into its instruction is
shared with any word of the pool that is equal to it, even with a word in the middle of
a text, and a text is put behind what is there.  So the pool only ever grows at its end:
whatever is compiled into a chunk later, the word or the block that a literal was given
stays where it is.  The instructions stay as well, since all that is ever changed in the
code behind the compiler is where a jump leads.

* `Constant` — what a literal stands for, and what it makes of the pool;
* `Token.Denotes` — which literal stands for which constant;
* `Constant.Loads` — the instruction of a literal, kept by every longer pool;
* `CompileM.Pools` — a computation that succeeds unless the pool gets too large;
* `Expression.pools_primary` — the compilation of one literal;
* `Compiler.Writes`, `Compiler.Compiles` — what is done to a chunk, and where the
  literals in it stand;
* `literals_load` — the instructions of literals in the finished chunk.
-/
import WordScript.Proofs.AcceptedAccess
import WordScript.Proofs.Numerals
import WordScript.Proofs.StringBlocks

namespace WordScript

/-! ### What literals stand for -/

/-- What a literal stands for: a number of either kind or a text. -/
inductive Constant where
  | int (w : Word)
  | float (w : Word)
  | text (s : String)
deriving Repr, DecidableEq

/-- What a literal denotes: the number that its digits stand for, the value nearest to its decimal, or
the text between its quotes.  An integer may be too large to denote anything. -/
inductive Token.Denotes (t : Token) : Constant → Prop
  | int {w : Word} : t.kind = .integer → Literal.Numeral t.lexeme → t.lexeme ≠ "0x" →
    w.toNat = Literal.value t.lexeme → Denotes t (.int w)
  | float {whole fraction : List Char} {w : Word} : t.kind = .float →
    t.lexeme = String.ofList (whole ++ '.' :: fraction) → (∀ d ∈ whole, Text.isDigit d = true) →
    (∀ d ∈ fraction, Text.isDigit d = true) → Decimal.Nearest (Literal.decimal whole fraction) w →
    Denotes t (.float w)
  | text : t.kind = .string → Denotes t (.text t.lexeme)

/-- The word fits into the instruction that pushes it. -/
def Word.Immediate (w : Word) : Prop :=
  Instruction.immediateMin ≤ w.toInt ∧ w.toInt ≤ Instruction.immediateMax

instance (w : Word) : Decidable w.Immediate :=
  inferInstanceAs (Decidable (_ ∧ _))

/-- The pool with a word in it; if it is there already, nothing is added. -/
def Words.share (pool : Array Word) (w : Word) : Array Word :=
  if w ∈ pool then pool else pool.push w

/-- The instruction puts the word on the stack, in every machine that comes to it. -/
def Chunk.Puts (P : Chunk) (ip : Nat) (w : Word) : Prop :=
  ∀ (p : Program) (time : Float) (m : Machine) (s : Array Word), p.chunks[m.chunk]? = some P →
    Exec.Leads p time 1 (m.at_ ip s) (m.at_ (ip + 1) (s.push w))

namespace Constant

/-- The type of a literal. -/
def ty : Constant → Ty
  | int _ => .int
  | float _ => .float
  | text _ => .string

/-- The kind of the tokens that stand for such a constant. -/
def kind : Constant → TokenKind
  | int _ => .integer
  | float _ => .float
  | text _ => .string

/-- The pool of a chunk behind a literal. -/
def pooled (pool : Array Word) : Constant → Array Word
  | int w => if w.Immediate then pool else Words.share pool w
  | float w => Words.share pool w
  | text s => pool ++ StringBlock.encode s

/-- The instruction loads what the literal stands for, as long as it finds the pool. -/
def Loads (pool : Array Word) (i : Instruction) : Constant → Prop
  | int w =>
    i = .ofImmediate .pushImmediate w.toInt ∧ w.Immediate ∨
    ∃ index : UInt16, i = .ofByteShort .loadConstant 0 index ∧ pool[index.toNat]? = some w
  | float w =>
    ∃ index : UInt16, i = .ofByteShort .loadConstant 0 index ∧ pool[index.toNat]? = some w
  | text s =>
    ∃ index : UInt16, i = .ofByteShort .loadHeapConstant 0 index ∧
      ∀ j, j < (StringBlock.encode s).size → pool[index.toNat + j]? = (StringBlock.encode s)[j]?

/-- In the chunk there is an instruction that loads what the literal stands for: it puts the word of a
number on the stack, and the index that it has for a text designates the block of that text. -/
def LoadedAt (P : Chunk) (ip : Nat) : Constant → Prop
  | int w =>
    (∃ i, P.code[ip]? = some i ∧
      (i.opcode? = some .pushImmediate ∨ i.opcode? = some .loadConstant)) ∧ P.Puts ip w
  | float w =>
    (∃ i, P.code[ip]? = some i ∧ i.opcode? = some .loadConstant) ∧ P.Puts ip w
  | text s =>
    ∃ (i : Instruction) (n : Word), P.code[ip]? = some i ∧ i.opcode? = some .loadHeapConstant ∧
      P.constants[i.short.toNat]? = some n ∧
      i.short.toNat + (1 + n.toNat) ≤ P.constants.size ∧
      Words.run P.constants i.short.toNat (1 + n.toNat) = StringBlock.encode s

/-! ### Pools that grow -/

variable {pool pool' : Array Word} {i : Instruction} {v : Constant} {vs : List Constant} {P : Chunk}
  {ip : Nat} {w : Word}

theorem prefix_share (pool : Array Word) (w : Word) :
    pool.toList <+: (Words.share pool w).toList := by
  rw [Words.share]
  split
  · exact List.prefix_refl _
  · rw [Array.toList_push]
    exact List.prefix_append _ _

/-- The pool grows at its end. -/
theorem prefix_pooled (pool : Array Word) (v : Constant) :
    pool.toList <+: (v.pooled pool).toList := by
  cases v with
  | int w =>
    rw [pooled]
    split
    · exact List.prefix_refl _
    · exact prefix_share pool w
  | float w => exact prefix_share pool w
  | text s =>
    rw [pooled, Array.toList_append]
    exact List.prefix_append _ _

/-- A word of the pool stays where it is when the pool grows. -/
theorem getElem?_of_prefix (h : pool.toList <+: pool'.toList) {k : Nat} {w : Word}
    (hw : pool[k]? = some w) : pool'[k]? = some w := by
  rw [Chunk.getElem?_of_extends h (Array.getElem?_eq_some_iff.mp hw).1, hw]

/-- An instruction loads the same from a longer pool. -/
theorem Loads.mono (h : v.Loads pool i) (hpool : pool.toList <+: pool'.toList) :
    v.Loads pool' i := by
  cases v with
  | int w =>
    obtain himmediate | ⟨index, hi, hw⟩ := h
    · exact .inl himmediate
    · exact .inr ⟨index, hi, getElem?_of_prefix hpool hw⟩
  | float w =>
    obtain ⟨index, hi, hw⟩ := h
    exact ⟨index, hi, getElem?_of_prefix hpool hw⟩
  | text s =>
    obtain ⟨index, hi, hwords⟩ := h
    refine ⟨index, hi, fun j hj => ?_⟩
    rw [Array.getElem?_eq_getElem hj]
    exact getElem?_of_prefix hpool ((hwords j hj).trans (Array.getElem?_eq_getElem hj))

/-- The instruction of a literal is no jump. -/
theorem Loads.straight (h : v.Loads pool i) : ∃ op, i.opcode? = some op ∧ op.jumps = false := by
  cases v with
  | int w =>
    obtain ⟨rfl, -⟩ | ⟨index, rfl, -⟩ := h
    · exact ⟨_, Instruction.opcode?_ofImmediate _ _, rfl⟩
    · exact ⟨_, Instruction.opcode?_ofByteShort _ _ _, rfl⟩
  | float w =>
    obtain ⟨index, rfl, -⟩ := h
    exact ⟨_, Instruction.opcode?_ofByteShort _ _ _, rfl⟩
  | text s =>
    obtain ⟨index, rfl, -⟩ := h
    exact ⟨_, Instruction.opcode?_ofByteShort _ _ _, rfl⟩

theorem puts_loadConstant {index : UInt16}
    (hi : P.code[ip]? = some (.ofByteShort .loadConstant 0 index))
    (hw : P.constants[index.toNat]? = some w) : P.Puts ip w := by
  intro p time m s hP
  refine Exec.leads_loadConstant (k := index.toNat) hP ?_ index.toNat_lt hw
  rwa [UInt16.ofNat_toNat]

theorem puts_pushImmediate (hi : P.code[ip]? = some (.ofImmediate .pushImmediate w.toInt))
    (hw : w.Immediate) : P.Puts ip w := by
  intro p time m s hP
  have hleads : Exec.Leads p time 1 (m.at_ ip s) (m.at_ (ip + 1) (s.push (Word.ofInt w.toInt))) :=
    Exec.leads_pushImmediate hP hi hw.1 hw.2
  rwa [Word.ofInt_toInt] at hleads

/-- What an instruction loads from the pool of a chunk it loads in the chunk. -/
theorem Loads.loadedAt (h : v.Loads P.constants i) (hi : P.code[ip]? = some i)
    (hfits : P.constants.size ≤ 65536) : v.LoadedAt P ip := by
  cases v with
  | int w =>
    obtain ⟨rfl, hw⟩ | ⟨index, rfl, hw⟩ := h
    · exact ⟨⟨_, hi, .inl (Instruction.opcode?_ofImmediate _ _)⟩, puts_pushImmediate hi hw⟩
    · exact ⟨⟨_, hi, .inr (Instruction.opcode?_ofByteShort _ _ _)⟩, puts_loadConstant hi hw⟩
  | float w =>
    obtain ⟨index, rfl, hw⟩ := h
    exact ⟨⟨_, hi, Instruction.opcode?_ofByteShort _ _ _⟩, puts_loadConstant hi hw⟩
  | text s =>
    obtain ⟨index, rfl, hwords⟩ := h
    rw [StringBlock.size_encode] at hwords
    have hfirst := hwords 0 (Nat.succ_pos _)
    -- the last word of the block is in the pool, so all of it is
    have hlast := hwords (StringBlock.payload s).size (Nat.lt_succ_self _)
    have hlt : (StringBlock.payload s).size < (StringBlock.encode s).size := by
      rw [StringBlock.size_encode]
      omega
    rw [Array.getElem?_eq_getElem hlt] at hlast
    have hinside := (Array.getElem?_eq_some_iff.mp hlast).1
    have hcount : (UInt32.ofNat (StringBlock.payload s).size).toNat =
        (StringBlock.payload s).size := Word.toNat_ofNat (by omega)
    refine ⟨_, UInt32.ofNat (StringBlock.payload s).size, hi,
      Instruction.opcode?_ofByteShort _ _ _, ?_⟩
    rw [Instruction.short_ofByteShort, hcount]
    refine ⟨hfirst.trans (StringBlock.getElem?_encode_zero s), by omega, ?_⟩
    refine Array.ext_getElem? fun j => ?_
    rw [Words.getElem?_run]
    by_cases hj : j < (StringBlock.payload s).size + 1
    · rw [if_pos (by omega), hwords j hj]
    · rw [if_neg (by omega), Array.getElem?_eq_none (by rw [StringBlock.size_encode]; omega)]

end Constant

/-! ### Literals of a text -/

namespace Token.Denotes

variable {t : Token} {v v' : Constant} {w : Word}

/-- The compiler reads an integer as the word that it denotes. -/
theorem integer? (h : t.Denotes (.int w)) : Literal.integer? t.lexeme = some w := by
  cases h with
  | int _ hnumeral hne hvalue => exact (Literal.integer?_eq_some_iff hnumeral).mpr ⟨hne, hvalue⟩

theorem float_eq (h : t.Denotes (.float w)) : Literal.float t.lexeme = w := by
  cases h with
  | float _ hlexeme hwhole hfraction hnearest =>
    rw [hlexeme]
    exact (Literal.nearest_float hwhole hfraction).unique hnearest

theorem lexeme_eq {s : String} (h : t.Denotes (.text s)) : t.lexeme = s := by
  cases h
  rfl

/-- The kind of a token tells how it is read. -/
theorem kind_eq (h : t.Denotes v) : t.kind = v.kind := by
  cases h <;> assumption

/-- A literal denotes one constant. -/
theorem unique (h : t.Denotes v) (h' : t.Denotes v') : v = v' := by
  have hkind := h.kind_eq.symm.trans h'.kind_eq
  -- constants of different kinds are denoted by different tokens
  cases v <;> cases v' <;> try cases hkind
  · rw [Option.some_inj.mp (h.integer?.symm.trans h'.integer?)]
  · rw [← h.float_eq, h'.float_eq]
  · rw [← h.lexeme_eq, h'.lexeme_eq]

end Token.Denotes

/-- An integer of a text denotes a word unless it is a prefix without digits or too large. -/
theorem exists_denotes_int_iff {t : Token} (hkind : t.kind = .integer)
    (hnumeral : Literal.Numeral t.lexeme) :
    (∃ w, t.Denotes (.int w)) ↔ ¬(t.lexeme = "0x" ∨ 4294967295 < Literal.value t.lexeme) := by
  rw [← Literal.integer?_eq_none_iff hnumeral]
  constructor
  · rintro ⟨w, hw⟩ hnone
    exact absurd (hw.integer?.symm.trans hnone) (Option.some_ne_none w)
  · intro hsome
    obtain ⟨w, hw⟩ := Option.ne_none_iff_exists'.mp hsome
    obtain ⟨hne, hvalue⟩ := (Literal.integer?_eq_some_iff hnumeral).mp hw
    exact ⟨w, .int hkind hnumeral hne hvalue⟩

/-- A number with a fraction always denotes a word. -/
theorem exists_denotes_float {moduleName source : String} {found : Array Token} {t : Token}
    (h : scan moduleName source = .ok found) (ht : t ∈ found) (hkind : t.kind = .float) :
    ∃ w, t.Denotes (.float w) := by
  obtain ⟨after, chars, hspelled⟩ := Literal.spelled_of_scan h ht (by simp [hkind])
  obtain ⟨whole, fraction, hlexeme, hwhole, hfraction⟩ := Literal.fraction_of_spelled hspelled hkind
  exact ⟨_, .float hkind hlexeme hwhole hfraction (Literal.nearest_float hwhole hfraction)⟩

/-- The integers of a text are numerals. -/
theorem numeral_of_scan {moduleName source : String} {found : Array Token} {t : Token}
    (h : scan moduleName source = .ok found) (ht : t ∈ found) (hkind : t.kind = .integer) :
    Literal.Numeral t.lexeme := by
  obtain ⟨after, chars, hspelled⟩ := Literal.spelled_of_scan h ht (by simp [hkind])
  exact Literal.numeral_of_spelled hspelled hkind

/-! ### One literal -/

namespace Builder

/-- The chunk under construction with another pool. -/
def withPool (b : Builder) (pool : Array Word) : Builder :=
  { b with code := { b.code with constants := pool } }

end Builder

namespace Compiler

variable {c : Compiler} {f f' : Builder → Builder}

/-- The pool of the chunk under construction. -/
def pool (c : Compiler) : Array Word :=
  c.builder.code.constants

theorem mapBuilder_congr (h : f c.builder = f' c.builder) : c.mapBuilder f = c.mapBuilder f' := by
  obtain ⟨_, _, _, nested, _⟩ := c
  cases nested with
  | nil => exact congrArg (fun b => Compiler.mk _ _ b [] _ _ _ _ _ _ _) h
  | cons b rest => exact congrArg (fun b => Compiler.mk _ _ _ (b :: rest) _ _ _ _ _ _ _) h

theorem mapBuilder_withPool_pool (c : Compiler) : c.mapBuilder (·.withPool c.pool) = c := by
  obtain ⟨_, _, _, nested, _⟩ := c
  cases nested <;> rfl

/-- The state behind a literal: the token has been taken, and the chunk under construction has its pool
and its instruction. -/
def behind (c : Compiler) (v : Constant) (i : Instruction) : Compiler :=
  (c.past.mapBuilder (·.withPool (v.pooled c.pool))).mapBuilder (·.push i)

theorem builder_behind (c : Compiler) (v : Constant) (i : Instruction) :
    (c.behind v i).builder = (c.builder.withPool (v.pooled c.pool)).push i := by
  rw [behind, builder_mapBuilder, builder_mapBuilder]
  rfl

theorem cursor_behind (c : Compiler) (v : Constant) (i : Instruction) :
    (c.behind v i).cursor = c.cursor + 1 := by
  rw [behind, cursor_mapBuilder, cursor_mapBuilder]
  rfl

theorem tokens_behind (c : Compiler) (v : Constant) (i : Instruction) :
    (c.behind v i).tokens = c.tokens := by
  rw [behind, tokens_mapBuilder, tokens_mapBuilder]
  rfl

theorem pool_behind (c : Compiler) (v : Constant) (i : Instruction) :
    (c.behind v i).pool = v.pooled c.pool := by
  rw [pool, builder_behind]
  rfl

theorem here_behind (c : Compiler) (v : Constant) (i : Instruction) :
    (c.behind v i).here = c.here + 1 := by
  rw [here, builder_behind]
  exact Array.size_push _

/-- The instruction of a literal stands at the end of the code. -/
theorem getElem?_behind (c : Compiler) (v : Constant) (i : Instruction) :
    (c.behind v i).builder.code.code[c.here]? = some i := by
  rw [builder_behind]
  exact Array.getElem?_push_size

theorem extends_behind (c : Compiler) (v : Constant) (i : Instruction) :
    c.builder.code.Extends (c.behind v i).builder.code := by
  rw [builder_behind]
  refine ⟨?_, Constant.prefix_pooled c.pool v⟩
  show c.builder.code.code.toList <+: (c.builder.code.code.push i).toList
  rw [Array.toList_push]
  exact List.prefix_append _ _

end Compiler

namespace CompileM

open Compiler

variable {α β : Type} {c : Compiler} {w : Word} {pool : Array Word}

theorem bind_of_error {x : CompileM α} {k : α → CompileM β} {e : CompileError} (h : x c = .error e) :
    (x >>= k) c = .error e := by
  show (x c >>= fun r => k r.1 r.2) = _
  rw [h]
  rfl

/-- The computation succeeds, as described, unless the pool gets too large. -/
def Pools (x : CompileM α) (c : Compiler) (pool : Array Word) (q : α → Compiler → Prop) : Prop :=
  (∃ a c', x c = .ok (a, c') ∧ q a c') ∨
    65536 < pool.size ∧ ∃ token, x c = .error ⟨token, .tooLarge "constant pool"⟩

namespace Pools

variable {x : CompileM α} {q : α → Compiler → Prop}

/-- What comes after it always succeeds. -/
theorem bind (h : Pools x c pool q) {k : α → CompileM β} {q' : β → Compiler → Prop}
    (hk : ∀ a c', q a c' → ∃ b c'', k a c' = .ok (b, c'') ∧ q' b c'') : Pools (x >>= k) c pool q' := by
  obtain ⟨a, c', hok, hq⟩ | ⟨hlarge, token, herror⟩ := h
  · obtain ⟨b, c'', hb, hq'⟩ := hk a c' hq
    exact .inl ⟨b, c'', (bind_of_ok hok).trans hb, hq'⟩
  · exact .inr ⟨hlarge, token, bind_of_error herror⟩

theorem exists_ok (h : Pools x c pool q) (hfits : pool.size ≤ 65536) :
    ∃ a c', x c = .ok (a, c') ∧ q a c' :=
  h.resolve_right fun hlarge => Nat.not_lt.mpr hfits hlarge.1

theorem of_ok (h : Pools x c pool q) {a : α} {c' : Compiler} (hok : x c = .ok (a, c')) : q a c' := by
  obtain ⟨a₁, c₁, hok₁, hq⟩ | ⟨-, token, herror⟩ := h
  · cases hok₁.symm.trans hok
    exact hq
  · cases herror.symm.trans hok

theorem cause_of_error (h : Pools x c pool q) {e : CompileError} (herror : x c = .error e) :
    e.cause = .tooLarge "constant pool" := by
  obtain ⟨a, c', hok, -⟩ | ⟨-, token, herror'⟩ := h
  · cases hok.symm.trans herror
  · cases herror'.symm.trans herror
    rfl

end Pools

theorem pools_short {n : Nat} (token : Token) (hn : n < pool.size) :
    Pools (short n token "constant pool") c pool fun index c' => c' = c ∧ index.toNat = n := by
  by_cases hfits : n < 65536
  · exact .inl ⟨_, c, short_eq hfits, rfl, Exec.toNat_short hfits⟩
  · refine .inr ⟨by omega, token, ?_⟩
    rw [short, if_neg hfits]
    rfl

theorem modify_pushConstants (c : Compiler) (ws : Array Word) :
    (modify (Compiler.mapBuilder (·.pushConstants ws)) : CompileM Unit) c =
      .ok ((), c.mapBuilder (·.withPool (c.pool ++ ws))) :=
  congrArg (fun c' => Except.ok ((), c')) (mapBuilder_congr rfl)

/-- A word gets a place in the pool. -/
theorem pools_addConstant (w : Word) (token : Token) :
    Pools (addConstant w token) c (Words.share c.pool w) fun index c' =>
      (Words.share c.pool w)[index.toNat]? = some w ∧
        c' = c.mapBuilder (·.withPool (Words.share c.pool w)) := by
  by_cases hw : w ∈ c.pool
  · have hshare : Words.share c.pool w = c.pool := if_pos hw
    -- a word that is there keeps its first place
    obtain ⟨k, hk⟩ : ∃ k, c.builder.code.constants.findIdx? (· == w) = some k := by
      rw [← Option.isSome_iff_exists, Array.findIdx?_isSome, Array.any_eq_true']
      exact ⟨w, hw, beq_self_eq_true w⟩
    obtain ⟨hlt, heq, -⟩ := Array.findIdx?_eq_some_iff_getElem.mp hk
    have hshort := pools_short (c := c) token (show k < c.pool.size from hlt)
    rw [hshare, mapBuilder_withPool_pool, Pools, addConstant, ask_bind, hk]
    refine hshort.imp_left ?_
    rintro ⟨index, c', hok, rfl, hindex⟩
    refine ⟨index, c', hok, ?_, rfl⟩
    rw [hindex, ← eq_of_beq heq]
    exact Array.getElem?_eq_getElem hlt
  · have hshare : Words.share c.pool w = c.pool.push w := if_neg hw
    have hnone : c.builder.code.constants.findIdx? (· == w) = none := by
      rw [Array.findIdx?_eq_none_iff]
      intro x hx
      rw [beq_eq_false_iff_ne]
      rintro rfl
      exact hw hx
    have hshort := pools_short (c := c.mapBuilder (·.withPool (c.pool.push w))) token
      (show c.pool.size < (c.pool.push w).size by rw [Array.size_push]; exact Nat.lt_succ_self _)
    have hmodify := modify_pushConstants c #[w]
    rw [← Array.push_eq_append] at hmodify
    rw [hshare, Pools, addConstant, ask_bind, hnone]
    simp only [ask_bind, bind_of_ok hmodify]
    refine hshort.imp_left ?_
    rintro ⟨index, c', hok, rfl, hindex⟩
    refine ⟨index, _, hok, ?_, rfl⟩
    rw [hindex, Array.getElem?_push_size]

theorem pools_emitConstant (w : Word) (token : Token) :
    Pools (emitConstant w token) c (Words.share c.pool w) fun _ c' =>
      ∃ index : UInt16, (Words.share c.pool w)[index.toNat]? = some w ∧
        c' = (c.mapBuilder (·.withPool (Words.share c.pool w))).mapBuilder
          (·.push (.ofByteShort .loadConstant 0 index)) := by
  refine (pools_addConstant w token).bind fun index c' hq => ?_
  obtain ⟨hw, rfl⟩ := hq
  exact ⟨(), _, rfl, index, hw, rfl⟩

theorem pools_emitInteger (w : Word) (token : Token) :
    Pools (emitInteger w.toInt token) c ((Constant.int w).pooled c.pool) fun _ c' =>
      ∃ i, (Constant.int w).Loads ((Constant.int w).pooled c.pool) i ∧
        c' = (c.mapBuilder (·.withPool ((Constant.int w).pooled c.pool))).mapBuilder (·.push i) := by
  by_cases hw : w.Immediate
  · have hpool : (Constant.int w).pooled c.pool = c.pool := if_pos hw
    refine .inl ⟨(), c.mapBuilder (·.push (.ofImmediate .pushImmediate w.toInt)), ?_, _,
      .inl ⟨rfl, hw⟩, ?_⟩
    · rw [emitInteger, if_pos (show _ ∧ _ from hw)]
      rfl
    · rw [hpool, mapBuilder_withPool_pool]
  · have hpool : (Constant.int w).pooled c.pool = Words.share c.pool w := if_neg hw
    have hemit : emitInteger w.toInt token = emitConstant w token := by
      rw [emitInteger, if_neg (show ¬(_ ∧ _) from hw), Word.ofInt_toInt]
    rw [hpool, hemit]
    refine (pools_emitConstant w token).imp_left ?_
    rintro ⟨_, c', hok, index, hword, hc'⟩
    exact ⟨_, c', hok, _, .inr ⟨index, rfl, hword⟩, hc'⟩

theorem pools_addString (s : String) (token : Token) :
    Pools (addString s token) c (c.pool ++ StringBlock.encode s) fun index c' =>
      index.toNat = c.pool.size ∧ c' = c.mapBuilder (·.withPool (c.pool ++ StringBlock.encode s)) := by
  have hlt : c.pool.size < (c.pool ++ StringBlock.encode s).size := by
    rw [Array.size_append, StringBlock.size_encode]
    omega
  rw [Pools, addString, ask_bind, bind_of_ok (modify_pushConstants c _)]
  refine (pools_short token hlt).imp_left ?_
  rintro ⟨index, c', hok, rfl, hindex⟩
  exact ⟨index, _, hok, hindex, rfl⟩

end CompileM

namespace Expression

open CompileM Compiler

variable {c : Compiler} {token : Token} {v : Constant}

theorem primary_integer (g : Productions) (htoken : c.tokens[c.cursor]? = some token)
    (hkind : token.kind = .integer) : primary g c = (match Literal.integer? token.lexeme with
      | none => TypeExpr.failLiteral token
      | some w => emitInteger w.toInt token >>= fun _ => pure (Operand.value Ty.int)) c.past := by
  rw [primary, CompileM.current, ask_bind, current_eq htoken]
  simp only [hkind]
  exact bind_of_ok (advance_eq htoken)

/-- A literal is compiled to one instruction, which loads it from the pool. -/
theorem pools_primary (g : Productions) (htoken : c.tokens[c.cursor]? = some token)
    (hv : token.Denotes v) : Pools (primary g) c (v.pooled c.pool) fun o c' =>
      o = .value v.ty ∧ ∃ i, v.Loads (v.pooled c.pool) i ∧ c' = c.behind v i := by
  have hkind := hv.kind_eq
  cases v with
  | int w =>
    rw [Pools, primary_integer g htoken hkind, hv.integer?]
    refine (pools_emitInteger (c := c.past) w token).bind fun _ c' hq => ?_
    exact ⟨_, c', rfl, rfl, hq⟩
  | float w =>
    rw [Pools, primary, CompileM.current, ask_bind, current_eq htoken]
    simp only [hkind, Constant.kind, hv.float_eq]
    rw [bind_of_ok (advance_eq htoken)]
    refine (pools_emitConstant (c := c.past) _ token).bind fun _ c' hq => ?_
    obtain ⟨index, hword, hc'⟩ := hq
    exact ⟨_, c', rfl, rfl, _, ⟨index, rfl, hword⟩, hc'⟩
  | text s =>
    rw [Pools, primary, CompileM.current, ask_bind, current_eq htoken]
    simp only [hkind, Constant.kind, hv.lexeme_eq]
    rw [bind_of_ok (advance_eq htoken)]
    refine (pools_addString (c := c.past) s token).bind fun index c' hq => ?_
    obtain ⟨hindex, rfl⟩ := hq
    -- the payload lies behind what was in the pool
    refine ⟨_, _, rfl, rfl, _, ⟨index, rfl, fun j _ => ?_⟩, rfl⟩
    rw [hindex]
    exact (Array.getElem?_append_right (Nat.le_add_right ..)).trans
      (congrArg _ (Nat.add_sub_cancel_left ..))

end Expression

/-! ### A chunk that is compiled -/

namespace Chunk

/-- The constants stay where they are, and so do the instructions that do not jump. -/
structure Retains (c c' : Chunk) : Prop where
  code : ∀ {k : Nat} {i : Instruction} {op : Opcode}, c.code[k]? = some i → i.opcode? = some op →
    op.jumps = false → c'.code[k]? = some i
  constants : c.constants.toList <+: c'.constants.toList

theorem Extends.retains {c c' : Chunk} (h : c.Extends c') : c.Retains c' := by
  refine ⟨fun hi _ _ => ?_, h.constants⟩
  rw [h.getElem? (Array.getElem?_eq_some_iff.mp hi).1, hi]

end Chunk

namespace Builder

variable (b : Builder)

theorem retains_pushConstants (ws : Array Word) : b.code.Retains (b.pushConstants ws).code where
  code hi _ _ := hi
  constants := by
    show _ <+: (b.code.constants ++ ws).toList
    rw [Array.toList_append]
    exact List.prefix_append _ _

/-- A jump that gets its target is the only instruction that changes. -/
theorem retains_patch {at_ : Nat} {j : Instruction} {op : Opcode} (d : Int)
    (hj : b.code.code[at_]? = some j) (hop : j.opcode? = some op) (hjumps : op.jumps = true) :
    b.code.Retains (b.patch at_ d).code := by
  constructor
  · intro k i op' hi hop' hstraight
    have hne : at_ ≠ k := by
      rintro rfl
      obtain rfl := Option.some_inj.mp (hj.symm.trans hi)
      obtain rfl := Option.some_inj.mp (hop.symm.trans hop')
      exact absurd hjumps (by simp [hstraight])
    show (b.code.code.modify at_ _)[k]? = _
    rw [Array.getElem?_modify, if_neg hne, hi]
  · exact List.prefix_refl b.code.constants.toList

end Builder

namespace Compiler

variable {c c₁ c₂ : Compiler}

/-- What else is done to a chunk while it is compiled: an instruction is emitted, a word or a text gets a
place in the pool, or a jump gets its target.  Everything else leaves the chunk alone. -/
inductive Writes (c : Compiler) : Compiler → Prop
  | emit {c' : Compiler} (i : Instruction) : CompileM.emit i c = .ok ((), c') → Writes c c'
  | constant {c' : Compiler} {index : UInt16} (w : Word) (token : Token) :
    CompileM.addConstant w token c = .ok (index, c') → Writes c c'
  | text {c' : Compiler} {index : UInt16} (s : String) (token : Token) :
    CompileM.addString s token c = .ok (index, c') → Writes c c'
  | jump {c' : Compiler} {at_ : Nat} {i : Instruction} {op : Opcode} (token : Token) :
    c.builder.code.code[at_]? = some i → i.opcode? = some op → op.jumps = true →
    CompileM.patchJump at_ token c = .ok ((), c') → Writes c c'
  | aside {c' : Compiler} : c'.builder.code = c.builder.code → Writes c c'

/-- A part of the compilation of a chunk: literals and whatever else is written to the chunk between them.
The literals are listed with the places that their instructions have. -/
inductive Compiles (g : Productions) (c : Compiler) : List (Nat × Constant) → Compiler → Prop
  | refl : Compiles g c [] c
  | literal {placed : List (Nat × Constant)} {c₁ c₂ : Compiler} {token : Token} {v : Constant}
    {o : Operand} : Compiles g c placed c₁ → c₁.tokens[c₁.cursor]? = some token →
    token.Denotes v → Expression.primary g c₁ = .ok (o, c₂) →
    Compiles g c (placed ++ [(c₁.here, v)]) c₂
  | other {placed : List (Nat × Constant)} {c₁ c₂ : Compiler} :
    Compiles g c placed c₁ → c₁.Writes c₂ → Compiles g c placed c₂

theorem Writes.retains (h : c.Writes c₁) : c.builder.code.Retains c₁.builder.code := by
  cases h with
  | emit i hok =>
    cases hok
    exact (extends_push c i).retains
  | constant w token hok =>
    obtain ⟨hcode, hconstants, -⟩ := CompileM.addConstant_eq_ok hok
    exact ⟨fun hi _ _ => by rwa [hcode], hconstants⟩
  | text s token hok =>
    obtain ⟨-, rfl⟩ := (CompileM.pools_addString s token).of_ok hok
    rw [builder_mapBuilder]
    exact c.builder.retains_pushConstants _
  | @jump at_ j op token hj hop hjumps hok =>
    obtain ⟨target, c₂, hhere, hrest⟩ := CompileM.bind_eq_ok hok
    cases hhere
    obtain ⟨d, c₂, hread, hpatch⟩ := CompileM.bind_eq_ok hrest
    obtain ⟨rfl, -⟩ := (Reads.displacement _ _ _).eq_of_idle (CompileM.tracks_displacement _ _).idle hread
    cases hpatch
    rw [builder_mapBuilder]
    exact c₂.builder.retains_patch _ hj hop hjumps
  | aside hcode =>
    rw [hcode]
    exact (Chunk.Extends.refl _).retains

/-- Whatever is written between the literals and behind them, each has an instruction that loads it. -/
theorem Compiles.loads {g : Productions} {placed : List (Nat × Constant)}
    (h : c.Compiles g placed c₁) : ∀ p ∈ placed, ∃ i, c₁.builder.code.code[p.1]? = some i ∧
      p.2.Loads c₁.pool i := by
  have hretained : ∀ {c₁ c₂ : Compiler} {p : Nat × Constant},
      c₁.builder.code.Retains c₂.builder.code →
      (∃ i, c₁.builder.code.code[p.1]? = some i ∧ p.2.Loads c₁.pool i) →
      ∃ i, c₂.builder.code.code[p.1]? = some i ∧ p.2.Loads c₂.pool i := by
    rintro c₁ c₂ p hretains ⟨i, hi, hloads⟩
    obtain ⟨op, hop, hstraight⟩ := hloads.straight
    exact ⟨i, hretains.code hi hop hstraight, hloads.mono hretains.constants⟩
  induction h with
  | refl => exact fun p hp => absurd hp List.not_mem_nil
  | @literal placed c₁ c₂ token v o _ htoken hv hprimary ih =>
    obtain ⟨-, i, hloads, rfl⟩ := (Expression.pools_primary g htoken hv).of_ok hprimary
    intro p hp
    obtain hp | hp := List.mem_append.mp hp
    · exact hretained (extends_behind c₁ v i).retains (ih p hp)
    · obtain rfl := List.mem_singleton.mp hp
      exact ⟨i, getElem?_behind c₁ v i, by rwa [pool_behind]⟩
  | other _ hwrites ih => exact fun p hp => hretained hwrites.retains (ih p hp)

end Compiler

/-! ### Integers that are rejected -/

namespace Expression

open CompileM Compiler

variable {c : Compiler} {token : Token}

theorem primary_eq_error (g : Productions) (htoken : c.tokens[c.cursor]? = some token)
    (hkind : token.kind = .integer) (hnone : Literal.integer? token.lexeme = none) :
    primary g c = .error ⟨token, .literalOutOfRange token.lexeme⟩ := by
  rw [primary_integer g htoken hkind, hnone]
  rfl

/-- An integer is out of range exactly if it is no word. -/
theorem primary_eq_error_iff (g : Productions) (htoken : c.tokens[c.cursor]? = some token)
    (hkind : token.kind = .integer) (hnumeral : Literal.Numeral token.lexeme) :
    (∃ e text, primary g c = .error e ∧ e.cause = .literalOutOfRange text) ↔
      Literal.integer? token.lexeme = none := by
  constructor
  · rintro ⟨e, text, herror, hcause⟩
    by_contra hsome
    obtain ⟨w, hw⟩ := Option.ne_none_iff_exists'.mp hsome
    obtain ⟨hne, hvalue⟩ := (Literal.integer?_eq_some_iff hnumeral).mp hw
    rw [(pools_primary g htoken (.int hkind hnumeral hne hvalue)).cause_of_error herror] at hcause
    cases hcause
  · exact fun hnone => ⟨_, _, primary_eq_error g htoken hkind hnone, rfl⟩

/-- The expression that begins with the integer is rejected with it. -/
theorem read_eq_error (g : Productions) (min : Precedence) (htoken : c.tokens[c.cursor]? = some token)
    (hkind : token.kind = .integer) (hnone : Literal.integer? token.lexeme = none) :
    read g min c = .error ⟨token, .literalOutOfRange token.lexeme⟩ := by
  have hkindAt : c.kindAt c.cursor = .integer := by
    rw [kindAt, htoken]
    exact hkind
  have hoperand : operand g c = .error ⟨token, .literalOutOfRange token.lexeme⟩ := by
    rw [operand, CompileM.kind, ask_bind, hkindAt]
    exact bind_of_error (primary_eq_error g htoken hkind hnone)
  rw [read, CompileM.current, ask_bind, bind_of_error hoperand]

end Expression

/-- Literals load their own value.  A literal that denotes a constant is compiled to one instruction
unless the pool gets too large.  When a chunk has been compiled, with literals in any order and whatever
else is written between them and behind them, the instruction of every number puts its word on the stack,
and that of every text designates the block of the text.  A literal denotes one constant at most.  All
texts and fractions of a source denote one, and so do its integers but for a prefix without digits and
values of more than `2 ^ 32 - 1`: these, and no others, are out of range. -/
theorem literals_load :
    (∀ (g : Productions) (c : Compiler) (t : Token) (v : Constant), c.tokens[c.cursor]? = some t →
      t.Denotes v → (v.pooled c.pool).size ≤ 65536 →
      ∃ c', Expression.primary g c = .ok (.value v.ty, c') ∧ c'.tokens = c.tokens ∧
        c'.cursor = c.cursor + 1 ∧ c'.here = c.here + 1 ∧ c'.pool = v.pooled c.pool) ∧
    (∀ (g : Productions) (c c' : Compiler) (placed : List (Nat × Constant)),
      c.Compiles g placed c' → c'.pool.size ≤ 65536 →
        ∀ place v, (place, v) ∈ placed → v.LoadedAt c'.builder.code place) ∧
    (∀ (t : Token) (v v' : Constant), t.Denotes v → t.Denotes v' → v = v') ∧
    ∀ (name source : String) (found : Array Token) (t : Token),
      scan name source = .ok found → t ∈ found →
        (t.kind = .string → t.Denotes (.text t.lexeme)) ∧
        (t.kind = .float → ∃ w, t.Denotes (.float w)) ∧
        (t.kind = .integer →
          ((∃ w, t.Denotes (.int w)) ↔ ¬(t.lexeme = "0x" ∨ 4294967295 < Literal.value t.lexeme)) ∧
          ∀ (g : Productions) (c : Compiler), c.tokens[c.cursor]? = some t →
            ((∃ e text, Expression.primary g c = .error e ∧ e.cause = .literalOutOfRange text) ↔
              t.lexeme = "0x" ∨ 4294967295 < Literal.value t.lexeme) ∧
            (t.lexeme = "0x" ∨ 4294967295 < Literal.value t.lexeme → ∀ min,
              Expression.read g min c = .error ⟨t, .literalOutOfRange t.lexeme⟩)) := by
  refine ⟨fun g c t v htoken hv hfits => ?_, fun g c c' placed hcompiles hfits place v hv => ?_,
    fun t v v' => Token.Denotes.unique, fun name source found t hscan ht =>
      ⟨.text, exists_denotes_float hscan ht, fun hkind => ?_⟩⟩
  · obtain ⟨o, c', hok, rfl, i, -, rfl⟩ :=
      (Expression.pools_primary g htoken hv).exists_ok hfits
    exact ⟨_, hok, c.tokens_behind v i, c.cursor_behind v i, c.here_behind v i, c.pool_behind v i⟩
  · obtain ⟨i, hi, hloads⟩ := hcompiles.loads _ hv
    exact hloads.loadedAt hi hfits
  · have hnumeral := numeral_of_scan hscan ht hkind
    refine ⟨exists_denotes_int_iff hkind hnumeral, fun g c htoken => ?_⟩
    rw [← Literal.integer?_eq_none_iff hnumeral]
    exact ⟨Expression.primary_eq_error_iff g htoken hkind hnumeral, fun h min =>
      Expression.read_eq_error g min htoken hkind h⟩

/-- A text, an integer whose word stands in the block of the text, and a fraction that no value is equal
to. -/
def mixedLiterals : List Token :=
  [⟨.string, "jklm", ⟨1, 1⟩, "main"⟩, ⟨.integer, "0x6d6C6B6a", ⟨1, 8⟩, "main"⟩,
    ⟨.float, "0.1", ⟨1, 19⟩, "main"⟩]

/-- The word in the middle of the text is shared, a jump stands in front of the fraction, and a prefix
alone is no integer. -/
theorem literals_load_mixedLiterals :
    (∀ g : Productions, ∃ c',
      Compiler.Compiles g { Compiler.start with tokens := mixedLiterals.toArray }
        [(0, .text "jklm"), (1, .int 0x6D6C6B6A), (3, .float 0x3DCCCCCD)] c' ∧
      c'.pool = #[1, 0x6D6C6B6A, 0x3DCCCCCD] ∧ (Constant.text "jklm").LoadedAt c'.builder.code 0 ∧
      (Constant.int 0x6D6C6B6A).LoadedAt c'.builder.code 1 ∧
      (Constant.float 0x3DCCCCCD).LoadedAt c'.builder.code 3) ∧
    ∃ found t, scan "main" "0X" = .ok found ∧ t ∈ found ∧ t.kind = .integer ∧
      ∀ g : Productions, Expression.read g .or { Compiler.start with tokens := #[t] } =
        .error ⟨t, .literalOutOfRange "0x"⟩ := by
  obtain ⟨hone, hall, -, hscanned⟩ := literals_load
  have hdenotes₁ : Token.Denotes ⟨.string, "jklm", ⟨1, 1⟩, "main"⟩ (.text "jklm") := .text rfl
  have hdenotes₂ : Token.Denotes ⟨.integer, "0x6d6C6B6a", ⟨1, 8⟩, "main"⟩ (.int 0x6D6C6B6A) :=
    .int rfl (@Literal.Numeral.hexadecimal ['6', 'd', '6', 'C', '6', 'B', '6', 'a']
      (List.all_eq_true.mp (by decide))) (by decide) (by decide +kernel)
  have hdenotes₃ : Token.Denotes ⟨.float, "0.1", ⟨1, 19⟩, "main"⟩ (.float 0x3DCCCCCD) := by
    have hdigit : ∀ c : Char, Text.isDigit c → ∀ d ∈ [c], Text.isDigit d = true := fun c hc d hd =>
      List.mem_singleton.mp hd ▸ hc
    have hnearest := Literal.nearest_float (hdigit '0' (by decide)) (hdigit '1' (by decide))
    have hword : Literal.float "0.1" = 0x3DCCCCCD := by decide +kernel
    exact .float rfl rfl (hdigit '0' (by decide)) (hdigit '1' (by decide)) (hword ▸ hnearest)
  constructor
  · intro g
    obtain ⟨c₁, htext, htokens₁, hcursor₁, hhere₁, hpool₁⟩ := hone g
      { Compiler.start with tokens := mixedLiterals.toArray } _ _ rfl hdenotes₁ (by decide +kernel)
    have htoken₁ : c₁.tokens[c₁.cursor]? = mixedLiterals[1]? := by
      rw [htokens₁, hcursor₁]
      rfl
    obtain ⟨c₂, hint, htokens₂, hcursor₂, hhere₂, hpool₂⟩ := hone g c₁ _ _ htoken₁ hdenotes₂
      (by rw [hpool₁]; decide +kernel)
    let c₃ := c₂.mapBuilder (·.push (.ofSigned .jump 0))
    have hhere₃ : c₃.here = c₂.here + 1 := Compiler.here_push c₂ _
    have hpool₃ : c₃.pool = c₂.pool := congrArg (·.code.constants) (Compiler.builder_mapBuilder c₂ _)
    have htoken₃ : c₃.tokens[c₃.cursor]? = mixedLiterals[2]? := by
      rw [Compiler.tokens_mapBuilder, Compiler.cursor_mapBuilder, htokens₂, hcursor₂, htokens₁, hcursor₁]
      rfl
    obtain ⟨c₄, hfloat, -, -, -, hpool₄⟩ := hone g c₃ _ _ htoken₃ hdenotes₃
      (by rw [hpool₃, hpool₂, hpool₁]; decide +kernel)
    have hplace₁ : c₁.here = 1 := hhere₁
    have hplace₃ : c₃.here = 3 := by rw [hhere₃, hhere₂, hplace₁]
    have hcompiles := (((Compiler.Compiles.refl.literal rfl hdenotes₁ htext).literal htoken₁ hdenotes₂
      hint).other (.emit (.ofSigned .jump 0) rfl)).literal htoken₃ hdenotes₃ hfloat
    rw [hplace₁, hplace₃] at hcompiles
    have hpool : c₄.pool = #[1, 0x6D6C6B6A, 0x3DCCCCCD] := by
      rw [hpool₄, hpool₃, hpool₂, hpool₁]
      decide +kernel
    have hloaded := hall g _ c₄ _ hcompiles (by rw [hpool]; decide)
    exact ⟨c₄, hcompiles, hpool, hloaded 0 _ (.head _), hloaded 1 _ (.tail _ (.head _)),
      hloaded 3 _ (.tail _ (.tail _ (.head _)))⟩
  · have hscan : scan "main" "0X" = .ok #[⟨.integer, "0x", ⟨1, 1⟩, "main"⟩,
        ⟨.endOfFile, "", ⟨1, 3⟩, "main"⟩] := by decide +kernel
    refine ⟨_, ⟨.integer, "0x", ⟨1, 1⟩, "main"⟩, hscan, by simp, rfl, fun g => ?_⟩
    exact (((hscanned _ _ _ _ hscan (by simp)).2.2 rfl).2 g _ rfl).2 (.inl rfl) .or

end WordScript
