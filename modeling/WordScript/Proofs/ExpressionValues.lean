/-
Declared variables have the values of their expressions.

A module of declarations compiles if its expressions have types and stay within what
instructions can hold: the place of a variable and the place of a constant have 16
bits.  When it runs, each declaration leaves the value of its expression on the stack,
above the values of the variables before it, and a division by zero in an expression
is a fault of the machine.

* `Declares` — declarations that make sense;
* `emitAll?`, `computesAll` — the code of declarations and what it does;
* `value_of_declared` — what a module of declarations does when it runs.
-/
import Mathlib.Data.Finset.Card
import WordScript.Proofs.ExpressionCode
import WordScript.Proofs.Lines
import WordScript.Proofs.Verified

namespace WordScript

namespace Tree

/-- The numbers of a tree that are no operands of instructions. -/
def constants : Tree → List Word
  | number w =>
    if Instruction.immediateMin ≤ w.toInt ∧ w.toInt ≤ Instruction.immediateMax then [] else [w]
  | truth _ | name _ => []
  | unary _ e => e.constants
  | binary _ l r => l.constants ++ r.constants

/-- The variables of a tree lie where instructions can reach them. -/
def InReach (Γ : Context) (e : Tree) : Prop :=
  ∀ x ∈ e.names, ∀ s, slot? x Γ = some s → s.2 < 65536

/-- A tree with a type uses declared names only. -/
theorem declared_of_type? {Γ : Context} {e : Tree} {ty : Scalar} (h : e.type? Γ = some ty) :
    e.Declared Γ := by
  induction e generalizing ty with
  | number w =>
    intro x hx
    cases hx
  | truth b =>
    intro x hx
    cases hx
  | name y =>
    intro x hx
    obtain rfl : x = y := List.mem_singleton.mp hx
    rw [type?, lookup_eq_slot?] at h
    obtain ⟨s, hs, -⟩ := Option.map_eq_some_iff.mp h
    exact ⟨s, hs⟩
  | unary op e ih =>
    obtain ⟨a, ha, -⟩ := Option.bind_eq_some_iff.mp h
    exact ih ha
  | binary op l r ihl ihr =>
    obtain ⟨a, ha, h⟩ := Option.bind_eq_some_iff.mp h
    obtain ⟨b, hb, -⟩ := Option.bind_eq_some_iff.mp h
    intro x hx
    rcases List.mem_append.mp hx with hx | hx
    · exact ihl ha x hx
    · exact ihr hb x hx

/-- The code of a tree is made with its type. -/
theorem type?_of_emit? {Γ : Context} {e : Tree} {ty : Scalar} {c c' : Chunk}
    (h : e.emit? Γ c = some (ty, c')) : e.type? Γ = some ty := by
  induction e generalizing ty c c' with
  | number w =>
    obtain ⟨c₁, -, heq⟩ := Option.map_eq_some_iff.mp h
    cases heq
    rfl
  | truth b =>
    cases h
    rfl
  | name x =>
    obtain ⟨s, hs, h⟩ := Option.bind_eq_some_iff.mp h
    split at h
    · cases h
      rw [type?, lookup_eq_slot?, hs]
      rfl
    · cases h
  | unary op e ih =>
    obtain ⟨⟨a, c₁⟩, he, h⟩ := Option.bind_eq_some_iff.mp h
    split at h
    · next hop =>
      cases h
      rw [type?, ih he]
      exact if_pos hop
    · cases h
  | binary op l r ihl ihr =>
    obtain ⟨⟨a, c₁⟩, hl, h⟩ := Option.bind_eq_some_iff.mp h
    obtain ⟨⟨b, c₂⟩, hr, h⟩ := Option.bind_eq_some_iff.mp h
    obtain ⟨ty', hty, heq⟩ := Option.map_eq_some_iff.mp h
    cases heq
    rw [type?, ihl hl, ihr hr]
    exact hty

end Tree

/-- The constants of a chunk are different words of a set. -/
structure Chunk.Within (S : Finset Word) (c : Chunk) : Prop where
  nodup : c.constants.toList.Nodup
  mem : ∀ w ∈ c.constants.toList, w ∈ S

namespace Chunk

variable {S : Finset Word} {c : Chunk}

theorem Within.size_le (h : c.Within S) : c.constants.size ≤ S.card := by
  have hsubset : c.constants.toList.toFinset ⊆ S := fun w hw => h.mem w (List.mem_toFinset.mp hw)
  have hcard := Finset.card_le_card hsubset
  rwa [List.toFinset_card_of_nodup h.nodup, Array.length_toList] at hcard

/-- There is room for one more constant of the set. -/
theorem Within.size_lt (h : c.Within S) {w : Word} (hw : w ∈ S) (hnew : w ∉ c.constants.toList) :
    c.constants.size < S.card := by
  have hsubset : insert w c.constants.toList.toFinset ⊆ S := by
    intro v hv
    rcases Finset.mem_insert.mp hv with rfl | hv
    · exact hw
    · exact h.mem v (List.mem_toFinset.mp hv)
  have hcard := Finset.card_le_card hsubset
  rw [Finset.card_insert_of_notMem (mt List.mem_toFinset.mp hnew),
    List.toFinset_card_of_nodup h.nodup, Array.length_toList] at hcard
  exact hcard

theorem Within.push (h : c.Within S) (i : Instruction) : (c.push i).Within S :=
  ⟨h.nodup, h.mem⟩

/-- A number can be loaded if the different constants do not become too many. -/
theorem Within.load? (h : c.Within S) (hS : S.card ≤ 65536) {w : Word}
    (hw : ∀ v ∈ (Tree.number w).constants, v ∈ S) : ∃ c', c.load? w = some c' ∧ c'.Within S := by
  rw [Chunk.load?]
  by_cases hbounds : Instruction.immediateMin ≤ w.toInt ∧ w.toInt ≤ Instruction.immediateMax
  · rw [if_pos hbounds]
    exact ⟨_, rfl, h.push _⟩
  · have hmem : w ∈ S := hw w (by rw [Tree.constants, if_neg hbounds]; exact List.mem_singleton_self w)
    rw [if_neg hbounds]
    cases hfind : c.constants.findIdx? (· == w) with
    | some k =>
      obtain ⟨hlt, -⟩ := Array.findIdx?_eq_some_iff_getElem.mp hfind
      have hk : k < 65536 := by
        have hsize := h.size_le
        omega
      simp only [if_pos hk]
      exact ⟨_, rfl, h.push _⟩
    | none =>
      -- a new constant: the pool stays inside the bound, since its words are all different
      have hnew : w ∉ c.constants.toList := by
        intro hw
        have hall := Array.findIdx?_eq_none_iff.mp hfind w (Array.mem_toList_iff.mp hw)
        simp at hall
      have hsize := h.size_lt hmem hnew
      have hk : c.constants.size < 65536 := by omega
      simp only [if_pos hk]
      refine ⟨_, rfl, ?_, ?_⟩
      · show (c.constants ++ #[w]).toList.Nodup
        rw [Array.toList_append, List.nodup_append]
        refine ⟨h.nodup, List.nodup_singleton w, ?_⟩
        rintro a ha b hb rfl
        exact hnew (List.mem_singleton.mp hb ▸ ha)
      · intro v hv
        have hv : v ∈ (c.constants ++ #[w]).toList := hv
        rw [Array.toList_append] at hv
        rcases List.mem_append.mp hv with hv | hv
        · exact h.mem v hv
        · exact List.mem_singleton.mp hv ▸ hmem

end Chunk

/-- A tree with a type has code, if its operands fit into instructions. -/
theorem Tree.emit?_of_type? {S : Finset Word} (hS : S.card ≤ 65536) {Γ : Context} {e : Tree}
    {ty : Scalar} {c : Chunk} (h : e.type? Γ = some ty) (hreach : e.InReach Γ)
    (hconstants : ∀ w ∈ e.constants, w ∈ S) (hc : c.Within S) :
    ∃ c', e.emit? Γ c = some (ty, c') ∧ c'.Within S := by
  induction e generalizing ty c with
  | number w =>
    cases h
    obtain ⟨c', hload, hc'⟩ := hc.load? hS hconstants
    refine ⟨c', ?_, hc'⟩
    rw [emit?, hload]
    rfl
  | truth b =>
    cases h
    exact ⟨_, rfl, hc.push _⟩
  | name x =>
    rw [type?, lookup_eq_slot?] at h
    obtain ⟨s, hs, rfl⟩ := Option.map_eq_some_iff.mp h
    refine ⟨_, ?_, hc.push (.ofByteShort .loadGlobal 1 (UInt16.ofNat s.2))⟩
    rw [emit?, hs, Option.bind_some, if_pos (hreach x (List.mem_singleton_self x) s hs)]
  | unary op e ih =>
    obtain ⟨a, ha, h⟩ := Option.bind_eq_some_iff.mp h
    split at h
    · next hop =>
      cases h
      obtain ⟨c₁, hemit, hc₁⟩ := ih ha hreach hconstants hc
      refine ⟨_, ?_, hc₁.push (.ofOpcode op.opcode)⟩
      rw [emit?, hemit, Option.bind_some, if_pos hop]
    · cases h
  | binary op l r ihl ihr =>
    obtain ⟨a, ha, h⟩ := Option.bind_eq_some_iff.mp h
    obtain ⟨b, hb, h⟩ := Option.bind_eq_some_iff.mp h
    obtain ⟨c₁, hleft, hc₁⟩ := ihl ha (fun x hx => hreach x (List.mem_append_left _ hx))
      (fun w hw => hconstants w (List.mem_append_left _ hw)) hc
    obtain ⟨c₂, hright, hc₂⟩ := ihr hb (fun x hx => hreach x (List.mem_append_right _ hx))
      (fun w hw => hconstants w (List.mem_append_right _ hw)) hc₁
    refine ⟨_, ?_, hc₂.push op.instruction⟩
    rw [emit?, hleft, Option.bind_some, hright, Option.bind_some, h]
    rfl

/-- Declarations in order, each a name and the tree of its value. -/
abbrev Declarations := List (String × Tree)

/-- Declarations that make sense after the variables of `Γ`, and the variables after them: every
tree has a type and its variables in reach, and every name is new. -/
inductive Declares : Context → Declarations → Context → Prop where
  | nil {Γ : Context} : Declares Γ [] Γ
  | cons {Γ Γ' : Context} {x : String} {e : Tree} {ty : Scalar} {ds : Declarations} :
    e.type? Γ = some ty → e.InReach Γ → Γ.lookup x = none → Declares ((x, ty) :: Γ) ds Γ' →
      Declares Γ ((x, e) :: ds) Γ'

namespace Declarations

/-- The values of the variables after some declarations. -/
def eval (σ : Store) : Declarations → Except Trouble Store
  | [] => .ok σ
  | (x, e) :: ds => do
    let v ← e.eval σ
    eval ((x, v) :: σ) ds

/-- The numbers in declarations that are no operands of instructions. -/
def constants (ds : Declarations) : List Word :=
  ds.flatMap fun d => d.2.constants

/-- The lines that declarations may be written as. -/
inductive Lines : Declarations → List Token → Prop where
  | nil : Lines [] []
  | cons {v name eq t : Token} {e : Tree} {es ts : List Token} {ds : Declarations} :
    v.kind = .keyword .var → name.kind = .identifier → eq.kind = .symbol .equal →
      e.Written .or es → t.kind = .statementTerminator → Lines ds ts →
      Lines ((name.lexeme, e) :: ds) (v :: name :: eq :: (es ++ t :: ts))

/-- The tokens of a module of declarations. -/
def Module (ds : Declarations) (tokens : Array Token) : Prop :=
  ∃ ts eof, Lines ds ts ∧ eof.kind = .endOfFile ∧ tokens.toList = ts ++ [eof]

/-- The variables after some declarations and a chunk with their code added. -/
def emit? (Γ : Context) : Declarations → Chunk → Option (Context × Chunk)
  | [], c => some (Γ, c)
  | (x, e) :: ds, c =>
    (e.emit? Γ c).bind fun r =>
      if Γ.lookup x = none then emit? ((x, r.1) :: Γ) ds r.2 else none

end Declarations

namespace Declares

variable {Γ Γ' : Context} {ds : Declarations}

theorem emit? {S : Finset Word} (hS : S.card ≤ 65536) (h : Declares Γ ds Γ') {c : Chunk}
    (hconstants : ∀ w ∈ ds.constants, w ∈ S) (hc : c.Within S) :
    ∃ c', ds.emit? Γ c = some (Γ', c') := by
  induction h generalizing c with
  | nil => exact ⟨c, rfl⟩
  | cons hty hreach hnew _ ih =>
    have hmem : ∀ w, w ∈ _ ∨ w ∈ _ → w ∈ S := fun w hw => hconstants w (List.mem_append.mpr hw)
    obtain ⟨c₁, hemit, hc₁⟩ := Tree.emit?_of_type? hS hty hreach (fun w hw => hmem w (.inl hw)) hc
    obtain ⟨c', hrest⟩ := ih (fun w hw => hmem w (.inr hw)) hc₁
    refine ⟨c', ?_⟩
    rw [Declarations.emit?, hemit, Option.bind_some, if_pos hnew, hrest]

end Declares

namespace Declarations

variable {Γ Γ' : Context} {ds : Declarations} {c c' P : Chunk} {p : Program} {time : Float}
  {m : Machine}

theorem emit?_extends (h : ds.emit? Γ c = some (Γ', c')) : c.Extends c' := by
  induction ds generalizing Γ c with
  | nil =>
    cases h
    exact .refl _
  | cons d ds ih =>
    obtain ⟨r, hr, h⟩ := Option.bind_eq_some_iff.mp h
    split at h
    · exact (Tree.emit?_extends hr).trans (ih h)
    · cases h

/-- The code of declarations puts their values on the stack. -/
theorem computes (hP : p.chunks[m.chunk]? = some P) {σ : Store}
    (h : ds.emit? σ.types c = some (Γ', c')) (hholds : P.Holds c c') :
    (∃ σ' n, ds.eval σ = .ok σ' ∧ σ'.types = Γ' ∧
      Exec.Leads p time n (m.at_ c.code.size σ.words) (m.at_ c'.code.size σ'.words)) ∨
    ds.eval σ = .error .divisionByZero ∧
      (m.at_ c.code.size σ.words).FaultsWith p time .divisionByZero := by
  induction ds generalizing σ c with
  | nil =>
    cases h
    exact .inl ⟨σ, 0, rfl, rfl, rfl⟩
  | cons d ds ih =>
    obtain ⟨x, e⟩ := d
    obtain ⟨⟨ty, c₁⟩, hr, h⟩ := Option.bind_eq_some_iff.mp h
    split at h
    · obtain ⟨v, n, hv, rfl, -, hleads⟩ | ⟨hv, hfault⟩ :=
        Tree.computes_value hP hr (hholds.left (emit?_extends h)) time
      · have heval : eval σ ((x, e) :: ds) = eval ((x, v) :: σ) ds := by
          rw [eval, hv]
          rfl
        rw [← Store.words_cons x] at hleads
        rw [heval]
        obtain ⟨σ', k, hσ', htypes, hrest⟩ | ⟨hσ', hfault⟩ :=
          ih (σ := (x, v) :: σ) h (hholds.right (Tree.emit?_extends hr))
        · exact .inl ⟨σ', n + k, hσ', htypes, hleads.trans hrest⟩
        · exact .inr ⟨hσ', .of_leads hleads hfault⟩
      · refine .inr ⟨?_, hfault⟩
        rw [eval, hv]
        rfl
    · cases h

open CompileM

/-- Lines of declarations are read as the declarations. -/
theorem Lines.result_statements {ts : List Token} (hlines : Lines ds ts)
    (hdeclares : Declares Γ ds Γ') {src : Source} {eof : Token} (heof : eof.kind = .endOfFile)
    {n k : Nat} {d : Draft} (hscopes : d.scopes = [Γ]) (hahead : src.ahead d.cursor = ts ++ [eof])
    (hn : ts.length < n) (hk : ts.length < k) :
    result (Block.statements (productions (n + 1)) 0 k) (src.compiler d) =
      (ds.emit? Γ d.code).map fun r => ((), src.compiler { d with
        scopes := [r.1], code := r.2, cursor := d.cursor + ts.length }) := by
  -- both amounts of fuel are above the number of tokens that are left
  induction hlines generalizing Γ d k with
  | nil =>
    obtain ⟨k, rfl⟩ := Nat.exists_eq_succ_of_ne_zero (Nat.ne_of_gt (Nat.zero_lt_of_lt hk))
    obtain ⟨scopes, code, loops, cursor⟩ := d
    cases hscopes
    exact Block.result_statements_end (.inr (by rw [hahead]; exact heof))
  | @cons v name eq t e es ts ds hv hname heq he ht hlines ih =>
    obtain ⟨k, rfl⟩ := Nat.exists_eq_succ_of_ne_zero (Nat.ne_of_gt (Nat.zero_lt_of_lt hk))
    obtain ⟨n, rfl⟩ := Nat.exists_eq_succ_of_ne_zero (Nat.ne_of_gt (Nat.zero_lt_of_lt hn))
    obtain ⟨scopes, code, loops, cursor⟩ := d
    cases hscopes
    simp only [List.length_cons, List.length_append] at hn hk ⊢
    simp only [List.cons_append, List.append_assoc] at hahead
    cases hdeclares with
    | cons hty hreach hnew hdeclares =>
      have hes : src.ahead (cursor + 3) = es ++ t :: (ts ++ [eof]) :=
        Source.ahead_succ (Source.ahead_succ (Source.ahead_succ hahead))
      have hread : Statement.ReadsWhole src (productions (n + 1)) ⟨[Γ], code, loops, cursor + 3⟩ e
          es.length := by
        have hdeclared : e.Declared ([Γ] : Scopes).flatten := by
          rw [show ([Γ] : Scopes).flatten = Γ from List.append_nil Γ]
          exact Tree.declared_of_type? hty
        refine he.reads.expression n .or ⟨[Γ], code, loops, cursor + 3⟩ (by simp) hdeclared hes
          ⟨by simp [headKind, ht], by simp [headKind, ht], ?_⟩ ?_ (Nat.le_refl _) ?_
        · simp [headKind, ht, Precedence.of?]
        · simp only [List.length_cons, List.length_append, List.length_nil]
          omega
        · simp [headKind, ht, Precedence.of?]
      rw [Block.result_statements_line (d := ⟨[Γ], code, loops, cursor⟩) indentsOf_nil hahead
        (by simp [hv]) (by simp [hv])]
      show (result (Statement.read (productions (n + 1)) 0)
        (src.compiler ⟨[Γ], code, loops, cursor⟩)).bind _ = _
      rw [Statement.result_read_var (d := ⟨[Γ], code, loops, cursor⟩) (by rw [hahead]; exact hv),
        Statement.result_variable_ (d := ⟨[Γ], code, loops, cursor⟩) rfl hahead hname heq hread
          (Statement.endsAt_terminator (Source.ahead_add hes) ht),
        show ([Γ] : Scopes).flatten = Γ from List.append_nil Γ, emit?]
      cases hemit : e.emit? Γ code with
      | none => rfl
      | some r =>
        obtain ⟨ty, code'⟩ := r
        obtain rfl : _ = ty := Option.some.inj (hty.symm.trans (Tree.type?_of_emit? hemit))
        simp only [Option.bind_some, if_pos hnew]
        have hnext : src.ahead (cursor + 3 + es.length + 1) = ts ++ [eof] :=
          Source.ahead_succ (Source.ahead_add hes)
        rw [ih hdeclares (d := ⟨[_], code', loops, cursor + 3 + es.length + 1⟩) rfl hnext (by omega)
          (by omega)]
        rw [show cursor + (es.length + (ts.length + 1) + 1 + 1 + 1) =
          cursor + 3 + es.length + 1 + ts.length by omega]

end Declarations

namespace Declares

variable {Γ₀ Γ Γ' : Context} {ds ds' : Declarations}

theorem append (h : Declares Γ₀ ds Γ) (h' : Declares Γ ds' Γ') : Declares Γ₀ (ds ++ ds') Γ' := by
  induction h with
  | nil => exact h'
  | cons hty hreach hnew _ ih => exact .cons hty hreach hnew (ih h')

/-- A module of declarations that make sense compiles to their code. -/
theorem addModule (h : Declares [] ds Γ) (hconstants : ds.constants.toFinset.card ≤ 65536)
    {tokens : Array Token} (htokens : ds.Module tokens) (name : String) :
    ∃ d : Draft,
      Compiler.start.addModule name tokens = .ok ((Source.ofTokens name tokens).compiler d) ∧
      ds.emit? [] Draft.start.code = some (Γ, d.code) := by
  obtain ⟨ts, eof, hlines, heof, hlist⟩ := htokens
  obtain ⟨code, hemit⟩ := h.emit? hconstants (c := Draft.start.code)
    (fun w hw => List.mem_toFinset.mpr hw) ⟨List.nodup_nil, fun w hw => (nomatch hw)⟩
  have hsize : tokens.size = ts.length + 1 := by
    rw [← Array.length_toList, hlist, List.length_append]
    rfl
  have hahead : (Source.ofTokens name tokens).ahead 0 = ts ++ [eof] := hlist
  have hread := hlines.result_statements h heof (n := 34 * (tokens.size + 2) - 1)
    (k := tokens.size + 1) (d := .start) rfl hahead (by omega) (by omega)
  rw [hemit, show 34 * (tokens.size + 2) - 1 + 1 = 34 * (tokens.size + 2) by omega] at hread
  refine ⟨⟨[Γ], code, [], 0 + ts.length⟩, Compiler.addModule_eq_ok_iff.mpr ⟨?_, hread⟩, hemit⟩
  have hend : (Source.ofTokens name tokens).ahead (0 + ts.length) = [eof] := Source.ahead_add hahead
  have hindents : indents [eof] = 0 := by
    rw [indents, heof]
    rfl
  rw [Source.atEnd_compiler]
  simp only [hend, hindents, Nat.add_zero, headKind, heof]
  rfl

end Declares

namespace Declarations

theorem eval_append (σ : Store) (ds ds' : Declarations) :
    eval σ (ds ++ ds') = (do eval (← eval σ ds) ds') := by
  induction ds generalizing σ with
  | nil => rfl
  | cons d ds ih =>
    obtain ⟨x, e⟩ := d
    rw [List.cons_append, eval, eval]
    cases e.eval σ with
    | error trouble => rfl
    | ok v => exact ih _

end Declarations

/-- A declared variable has the value of its expression.  After any declarations that have values,
the declaration of `r` compiles; when the program runs, it leaves the value of the expression above
those of the other variables and halts, or faults if the expression divides by zero. -/
theorem value_of_declared {ds : Declarations} {Γ : Context} {r : String} {e : Tree} {ty : Scalar}
    {tokens : Array Token} (hds : Declares [] ds Γ) (hty : e.type? Γ = some ty)
    (hreach : e.InReach Γ) (hr : Γ.lookup r = none)
    (hconstants : (Declarations.constants (ds ++ [(r, e)])).toFinset.card ≤ 65536)
    (htokens : Declarations.Module (ds ++ [(r, e)]) tokens) (name : String) (m : Machine)
    (time : Float) :
    ∃ (c : Compiler) (m₁ : Machine), Compiler.start.addModule name tokens = .ok c ∧
      m.boot c.build = .ok m₁ ∧
      ∀ σ, ds.eval [] = .ok σ →
        ((∃ v, e.eval σ = .ok v ∧ v.scalar = ty) ∨ e.eval σ = .error .divisionByZero) ∧
        (∀ stack, (∃ fuel m₂, m₁.run fuel time = (.ok .halted, m₂) ∧ m₂.stack = stack) ↔
          ∃ v, e.eval σ = .ok v ∧ stack = σ.words.push v.word) ∧
        ((∃ fuel error m₂, m₁.run fuel time = (.error error, m₂) ∧
            error.fault = .divisionByZero) ↔
          e.eval σ = .error .divisionByZero) := by
  have hall : Declares [] (ds ++ [(r, e)]) ((r, ty) :: Γ) :=
    hds.append (.cons hty hreach hr .nil)
  obtain ⟨d, hadd, hemit⟩ := hall.addModule hconstants htokens name
  obtain ⟨L, hkept⟩ := Compiler.start_kept.addModule hadd
  obtain ⟨m₁, hboot, hprogram, hstate, hchunk, hat⟩ := Machine.boot_eq hkept.verify m
  refine ⟨_, m₁, hadd, hboot, fun σ hσ => ?_⟩
  have hP : ((Source.ofTokens name tokens).compiler d).build.chunks[m₁.chunk]? =
      some (d.code.push (.ofOpcode .halt)) := by
    rw [hchunk]
    rfl
  have hhalt : (d.code.push (.ofOpcode .halt)).code[d.code.code.size]? = some (.ofOpcode .halt) :=
    Array.getElem?_push_size
  have heval : Declarations.eval [] (ds ++ [(r, e)]) = (e.eval σ).map fun v => (r, v) :: σ := by
    rw [Declarations.eval_append, hσ]
    show (do let v ← e.eval σ; Declarations.eval ((r, v) :: σ) []) = _
    cases e.eval σ <;> rfl
  have hholds : (d.code.push (.ofOpcode .halt)).Holds Draft.start.code d.code :=
    (Chunk.extends_push _ _).holds _
  have hcomputes :
      (∃ σ' n, Declarations.eval [] (ds ++ [(r, e)]) = .ok σ' ∧ σ'.types = (r, ty) :: Γ ∧
        Exec.Leads _ time n (m₁.at_ Draft.start.code.code.size (Store.words []))
          (m₁.at_ d.code.code.size σ'.words)) ∨ _ :=
    Declarations.computes hP hemit hholds
  rw [show m₁.at_ Draft.start.code.code.size (Store.words []) = m₁ from hat, heval] at hcomputes
  rcases hcomputes with ⟨σ', n, hv, htypes, hleads⟩ | ⟨hv, hfault⟩
  · -- the value is on the stack when the machine comes to the halt
    cases hvalue : e.eval σ with
    | error trouble =>
      rw [hvalue] at hv
      cases hv
    | ok v =>
      rw [hvalue] at hv
      cases hv
      have hhalts : m₁.Halts _ time _ := .of_leads hleads (Exec.halts_at hP hhalt _)
      refine ⟨.inl ⟨v, rfl, ?_⟩, fun stack => ?_, ?_⟩
      · have hscalar : (r, v.scalar) :: Store.types σ = (r, ty) :: Γ := htypes
        cases hscalar
        rfl
      · rw [hhalts.run_iff rfl hprogram hstate]
        show stack = Store.words ((r, v) :: σ) ↔ _
        rw [Store.words_cons]
        constructor
        · rintro rfl
          exact ⟨v, rfl, rfl⟩
        · rintro ⟨v', hv', rfl⟩
          cases hv'
          rfl
      · rw [Machine.run_eq_error_iff hprogram hstate (by decide)]
        constructor
        · intro hfault
          exact absurd hfault hhalts.not_faultsWith
        · intro h
          cases h
  · cases hvalue : e.eval σ with
    | ok v =>
      rw [hvalue] at hv
      cases hv
    | error trouble =>
      rw [hvalue] at hv
      cases hv
      refine ⟨.inr rfl, fun stack => ?_, ?_⟩
      · constructor
        · rintro ⟨fuel, m₂, hrun, -⟩
          obtain ⟨-, hhalts⟩ := (Machine.run_eq_halted_iff hprogram hstate).mp ⟨fuel, hrun⟩
          exact absurd hfault hhalts.not_faultsWith
        · rintro ⟨v, hv, -⟩
          cases hv
      · rw [Machine.run_eq_error_iff hprogram hstate (by decide)]
        exact ⟨fun _ => rfl, fun _ => hfault⟩

/-- A token at no place in particular. -/
def Token.bare (kind : TokenKind) (lexeme : String) : Token :=
  ⟨kind, lexeme, ⟨1, 1⟩, "m"⟩

/-- The tree of `-x * (3 - x)`. -/
def productTree : Tree :=
  .binary .multiply (.unary .negate (.name "x")) (.binary .subtract (.number 3) (.name "x"))

/-- The tokens of `-x * (3 - x)`. -/
def productTokens : List Token :=
  [.bare (.symbol .minus) "-", .bare .identifier "x", .bare (.symbol .star) "*",
    .bare (.symbol .leftParen) "(", .bare .integer "3", .bare (.symbol .minus) "-",
    .bare .identifier "x", .bare (.symbol .rightParen) ")"]

theorem productTree_written : productTree.Written .or productTokens := by
  have hx : Tree.Written .unary (.name "x") [.bare .identifier "x"] :=
    .name (t := .bare .identifier "x") rfl
  have hthree : Tree.Written .unary (.number 3) [.bare .integer "3"] :=
    .number ⟨rfl, by decide, List.all_eq_true.mp rfl, by decide⟩
  have hdifference : Tree.Written BinaryOp.subtract.precedence
      (.binary .subtract (.number 3) (.name "x"))
      ([.bare .integer "3"] ++ .bare (.symbol .minus) "-" :: [.bare .identifier "x"]) :=
    .binary (.looser (by decide) hthree) rfl (.looser (by decide) hx)
  have hnegation : Tree.Written .unary (.unary .negate (.name "x"))
      (.bare (.symbol .minus) "-" :: [.bare .identifier "x"]) := .unary rfl hx
  have hproduct : Tree.Written BinaryOp.multiply.precedence productTree productTokens :=
    .binary (.looser (by decide) hnegation) rfl
      (.parentheses rfl (.looser (by decide) hdifference) rfl)
  exact .looser (by decide) hproduct

/-- The lines `var x = 4294967295` and `var r = -x * (3 - x)`. -/
def productLines : List Token :=
  .bare (.keyword .var) "var" :: .bare .identifier "x" :: .bare (.symbol .equal) "=" ::
    ([.bare .integer "4294967295"] ++ .bare .statementTerminator "\n" ::
      .bare (.keyword .var) "var" :: .bare .identifier "r" :: .bare (.symbol .equal) "=" ::
        (productTokens ++ [.bare .statementTerminator "\n"]))

theorem value_of_product :
    ∃ (c : Compiler) (m₁ : Machine),
      Compiler.start.addModule "m" (productLines ++ [Token.bare .endOfFile ""]).toArray = .ok c ∧
      (Machine.new {}).boot c.build = .ok m₁ ∧
      ∃ fuel m₂, m₁.run fuel 0 = (.ok .halted, m₂) ∧ m₂.stack = #[4294967295, 4] := by
  have hnumber : Tree.Written .or (.number 4294967295) [.bare .integer "4294967295"] :=
    .looser (Nat.zero_le _) (.number ⟨rfl, by decide, List.all_eq_true.mp rfl, by decide⟩)
  have hds : Declares [] [("x", .number 4294967295)] [("x", .int)] :=
    .cons rfl (fun x hx => (nomatch hx)) rfl .nil
  have hlast : Declarations.Lines [("r", productTree)] (.bare (.keyword .var) "var" ::
      .bare .identifier "r" :: .bare (.symbol .equal) "=" ::
        (productTokens ++ [.bare .statementTerminator "\n"])) :=
    .cons rfl (rfl : (Token.bare .identifier "r").kind = .identifier) rfl productTree_written rfl
      .nil
  have htokens : Declarations.Module [("x", .number 4294967295), ("r", productTree)]
      (productLines ++ [Token.bare .endOfFile ""]).toArray :=
    ⟨_, .bare .endOfFile "", .cons rfl (rfl : (Token.bare .identifier "x").kind = .identifier) rfl
      hnumber rfl hlast, rfl, rfl⟩
  have hreach : productTree.InReach [("x", .int)] := by
    rintro x - ⟨ty, k⟩ hs
    exact Nat.lt_of_lt_of_le (slot?_lt hs) (by decide)
  have hty : productTree.type? [("x", .int)] = some .int := by decide
  obtain ⟨c, m₁, hadd, hboot, hruns⟩ := value_of_declared hds hty hreach (by decide) (by decide)
    htokens "m" (Machine.new {}) 0
  obtain ⟨-, hhalts, -⟩ := hruns [("x", .int (-1))] rfl
  exact ⟨c, m₁, hadd, hboot, (hhalts _).mpr ⟨.int 4, rfl, rfl⟩⟩

end WordScript
