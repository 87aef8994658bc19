/-
Which conditional an `else` belongs to.

An `else` is meant to stand on the line of its conditional, or to begin a line of the
depth of that line.  The compiler attaches every `else` that it passes to a conditional,
and in one of these two ways, with one exception: a statement may end before an `else`
in the middle of a line, also where it is the last statement of a block, and the `else`
then goes to a conditional around the block, on a line before.  Behind such a stray
`else` statements are read with a depth that is not that of their line, so a later
`else` can follow it.

* `Site`, `Site.Begins` — the places where statements are read in the course of
  reading something;
* `Site.Attaches` — a conditional that is met there takes an `else`;
* `Site.settles` — every `else` that a statement passes is taken, or stands in
  the declaration of a structure;
* `Site.Aligned.begins`, `Site.Aligned.of_met` — statements are read with the depth of their line,
  unless a stray `else` stands before them;
* `else_binding` — every `else` of a module that is compiled;
* `stray_else` — a program whose only conditional has an `else` of another line.

Design notes: the members of a structure are found first and compiled later, from
wherever they stand, so an `else` in them is left to the reading of its method, which is
one more site to start from.
-/
import Mathlib.Logic.Relation
import WordScript.Proofs.LineLayout
import WordScript.Proofs.StatementEnds

namespace WordScript

/-! ### Lines -/

section Lines

variable {tokens : Array Token} {depth i j k : Nat}

/-- No line ends between two places. -/
def SameLine (tokens : Array Token) (i k : Nat) : Prop :=
  i ≤ k ∧ ∀ j, i ≤ j → j < k → kindIn tokens j ≠ .statementTerminator

/-- The place is on a line of some depth. -/
def OnLine (tokens : Array Token) (depth k : Nat) : Prop :=
  ∃ start, LineAt tokens depth start ∧ SameLine tokens start k

/-- Where the language says that an `else` belongs: on the line of its conditional, or at the beginning
of a line of the same depth. -/
def Belongs (tokens : Array Token) (i k : Nat) : Prop :=
  SameLine tokens i k ∨ ∃ depth, Leads tokens depth k ∧ OnLine tokens depth i

theorem SameLine.refl (tokens : Array Token) (k : Nat) : SameLine tokens k k :=
  ⟨Nat.le_refl k, fun _ hle hlt => absurd hlt (Nat.not_lt.mpr hle)⟩

theorem SameLine.trans (h₁ : SameLine tokens i j) (h₂ : SameLine tokens j k) :
    SameLine tokens i k := by
  refine ⟨Nat.le_trans h₁.1 h₂.1, fun l hle hlt => ?_⟩
  by_cases hl : l < j
  · exact h₁.2 l hle hl
  · exact h₂.2 l (Nat.not_lt.mp hl) hlt

theorem SameLine.succ (h : SameLine tokens i k) (hk : kindIn tokens k ≠ .statementTerminator) :
    SameLine tokens i (k + 1) := by
  refine h.trans ⟨Nat.le_succ k, fun j hle hlt => ?_⟩
  obtain rfl : j = k := Nat.le_antisymm (Nat.le_of_lt_succ hlt) hle
  exact hk

theorem OnLine.trans (h : OnLine tokens depth i) (hsame : SameLine tokens i k) :
    OnLine tokens depth k := by
  obtain ⟨start, hline, hstart⟩ := h
  exact ⟨start, hline, hstart.trans hsame⟩

/-- What leads a line is on it. -/
theorem Leads.onLine (h : Leads tokens depth k) : OnLine tokens depth k := by
  obtain ⟨start, hline, rfl⟩ := h
  refine ⟨start, hline, Nat.le_add_right _ _, fun j hle hlt => ?_⟩
  obtain ⟨i, rfl⟩ := Nat.exists_eq_add_of_le hle
  rw [kindIn_of_lt_indentsFrom (by rw [hline.2]; omega)]
  simp

/-- Before the first token of a line there is an indent or a terminator. -/
theorem not_leads (h : (kindIn tokens j).isBreak = false) : ¬ Leads tokens depth (j + 1) := by
  rintro ⟨start, ⟨hstart, rfl⟩, heq⟩
  by_cases hzero : Compiler.indentsFrom tokens start = 0
  · rw [hzero, Nat.add_zero] at heq
    obtain rfl | ⟨i, rfl, hi⟩ := hstart
    · cases heq
    · obtain rfl : j = i := Nat.succ.inj heq
      rw [hi] at h
      cases h
  · have hindent : kindIn tokens (start + (Compiler.indentsFrom tokens start).pred) = .indent :=
      kindIn_of_lt_indentsFrom (Nat.pred_lt hzero)
    have hj : start + (Compiler.indentsFrom tokens start).pred = j := by
      have := Nat.succ_pred hzero
      omega
    rw [hj] at hindent
    rw [hindent] at h
    cases h

theorem Compiler.Along.sameLine {c c' : Compiler} (h : c.Along c') :
    SameLine c.tokens c.cursor c'.cursor := by
  refine ⟨h.cursor, fun j hle hlt hkind => ?_⟩
  have hpassed := h.passed j hle hlt
  rw [show c.kindAt j = .statementTerminator from hkind] at hpassed
  cases hpassed

end Lines

/-! ### Where statements are read -/

/-- What statements are read as parts of: the lines of a block, what follows the head of a statement,
and a statement itself. -/
inductive Phrase where
  | lines (depth budget : Nat)
  | tail (depth : Nat)
  | statement (depth : Nat)

/-- What reads a phrase. -/
def Phrase.reader (g : Productions) : Phrase → CompileM Unit
  | lines depth budget => Block.statements g depth budget
  | tail depth => Block.tail g depth
  | statement depth => g.statement depth

/-- A phrase that is about to be read, with some fuel and from some state. -/
structure Site where
  fuel : Nat
  phrase : Phrase
  state : Compiler

namespace Site

variable {n d b i k : Nat} {c c' c₁ c₂ c₃ : Compiler} {root s s' : Site}

/-- The phrase is read up to a state. -/
def Reads (s : Site) (c' : Compiler) : Prop :=
  s.phrase.reader (productions s.fuel) s.state = .ok ((), c')

/-- In the course of reading the first phrase, the second one is read next inside it. -/
inductive Begins : Site → Site → Prop
  | line {n d b : Nat} {c : Compiler} (indents : c.indentation = d) (more : c.atEnd = false) :
      Begins ⟨n, .lines d (b + 1), c⟩ ⟨n, .statement d, { c with cursor := c.cursor + d }⟩
  | next {n d b : Nat} {c c₁ : Compiler} (indents : c.indentation = d) (more : c.atEnd = false)
      (reads : Reads ⟨n, .statement d, { c with cursor := c.cursor + d }⟩ c₁) :
      Begins ⟨n, .lines d (b + 1), c⟩ ⟨n, .lines d b, c₁⟩
  | block {n d : Nat} {c c₁ c₂ : Compiler}
      (broken : CompileM.matchKind .statementTerminator c = .ok (true, c₁))
      (line : Block.requireLine (d + 1) c₁ = .ok ((), c₂)) :
      Begins ⟨n, .tail d, c⟩ ⟨n, .lines (d + 1) (c₂.tokens.size - c₂.cursor + 1), c₂⟩
  | inline {n d : Nat} {c c₁ : Compiler}
      (same : CompileM.matchKind .statementTerminator c = .ok (false, c₁)) :
      Begins ⟨n, .tail d, c⟩ ⟨n, .statement d, c₁⟩
  | body {n d : Nat} {c c₁ : Compiler} (enters : Statement.Enters (productions n) c c₁) :
      Begins ⟨n + 1, .statement d, c⟩ ⟨n, .tail d, c₁⟩
  | else_ {n d exit : Nat} {p : Token × Nat} {c c₁ c₂ c₃ : Compiler}
      (kind : c.kindAt c.cursor = .keyword .if_)
      (branch : Statement.thenBranch (productions n) d c = .ok (p, c₁))
      (follows : Statement.elseFollows d c₁ = .ok (true, c₂))
      (head : Statement.elseHead p c₂ = .ok (exit, c₃)) :
      Begins ⟨n + 1, .statement d, c⟩ ⟨n, .tail d, c₃⟩

/-- In the course of reading the first phrase, the second one is read. -/
def Meets : Site → Site → Prop :=
  Relation.ReflTransGen Begins

/-- A conditional at `i` that is met takes the `else` at `k`. -/
inductive Attaches (root : Site) (i k : Nat) : Prop
  | mk {n d : Nat} {p : Token × Nat} {c c₁ c₂ : Compiler}
      (met : root.Meets ⟨n + 1, .statement d, c⟩) (place : c.cursor = i)
      (kind : c.kindAt c.cursor = .keyword .if_)
      (branch : Statement.thenBranch (productions n) d c = .ok (p, c₁))
      (follows : Statement.elseFollows d c₁ = .ok (true, c₂)) (taken : c₂.cursor = k + 1)

/-- The place lies in the declaration of a structure that is met. -/
inductive Declares (root : Site) (k : Nat) : Prop
  | mk {n d : Nat} {c c' : Compiler} (met : root.Meets ⟨n, .statement d, c⟩)
      (kind : c.kindAt c.cursor = .keyword .structure_) (reads : Reads ⟨n, .statement d, c⟩ c')
      (begins : c.cursor ≤ k) (ends : k < c'.cursor)

theorem Meets.step (h : root.Meets s) (hbegins : s.Begins s') : root.Meets s' :=
  Relation.ReflTransGen.tail h hbegins

/-! ### No `else` is left behind -/

/-- On the way between two states every `else` is taken or stands in the declaration of a structure. -/
structure Covered (root : Site) (c c' : Compiler) : Prop where
  tokens : c'.tokens = c.tokens
  all : ∀ k, c.cursor ≤ k → k < c'.cursor → c.kindAt k = .keyword .else_ →
    root.Declares k ∨ ∃ i, root.Attaches i k

namespace Covered

theorem of_along (h : c.Along c') : root.Covered c c' := by
  refine ⟨h.tokens, fun k hle hlt hkind => ?_⟩
  have hpassed := h.passed k hle hlt
  rw [hkind] at hpassed
  cases hpassed

theorem of_beside (h : c.Beside c') : root.Covered c c' :=
  .of_along (.of_beside h)

theorem trans (h₁ : root.Covered c c₁) (h₂ : root.Covered c₁ c') : root.Covered c c' := by
  refine ⟨h₂.tokens.trans h₁.tokens, fun k hle hlt hkind => ?_⟩
  by_cases hk : k < c₁.cursor
  · exact h₁.all k hle hk hkind
  · refine h₂.all k (Nat.not_lt.mp hk) hlt ?_
    rw [Compiler.kindAt_of_tokens h₁.tokens]
    exact hkind

/-- The indents of a line are passed over. -/
theorem indents (h : c.indentation = d) : root.Covered c { c with cursor := c.cursor + d } := by
  refine ⟨rfl, fun k hle hlt hkind => ?_⟩
  obtain ⟨j, rfl⟩ := Nat.exists_eq_add_of_le hle
  have hlt : c.cursor + j < c.cursor + d := hlt
  have hindent : c.kindAt (c.cursor + j) = .indent := by
    have hj : j < Compiler.indentsFrom c.tokens c.cursor := by
      rw [show Compiler.indentsFrom c.tokens c.cursor = d from h]
      omega
    exact kindIn_of_lt_indentsFrom hj
  rw [hindent] at hkind
  cases hkind

/-- The terminator of a line is passed. -/
theorem terminator (hkind : c.kindAt c.cursor = .statementTerminator)
    (htokens : c'.tokens = c.tokens) (hcursor : c'.cursor = c.cursor + 1) : root.Covered c c' := by
  refine ⟨htokens, fun k hle hlt helse => ?_⟩
  obtain rfl : k = c.cursor := by omega
  rw [hkind] at helse
  cases helse

theorem of_stops (h : c.Stops c') : root.Covered c c' := by
  cases h with
  | past along kind tokens cursor => exact (of_along along).trans (.terminator kind tokens cursor)
  | before along kind => exact .of_along along

end Covered

/-- A phrase has been read from one state to the other: every `else` is taken, and the compiler stands
between statements. -/
structure Settled (root : Site) (c c' : Compiler) : Prop where
  covered : root.Covered c c'
  rests : c'.Rests

/-- Every statement with some fuel that is met is settled where it has been read. -/
def Settles (root : Site) (n : Nat) : Prop :=
  ∀ (d : Nat) (c c' : Compiler), root.Meets ⟨n, .statement d, c⟩ → Reads ⟨n, .statement d, c⟩ c' →
    root.Settled c c'

end Site

namespace Block

variable {g : Productions} {d b : Nat} {c c' : Compiler}

/-- The lines of a block: none, or a statement and the lines after it. -/
theorem statements_eq_ok (h : statements g d (b + 1) c = .ok ((), c')) :
    c' = c ∨ c.indentation = d ∧ c.atEnd = false ∧ ∃ c₁,
      g.statement d { c with cursor := c.cursor + d } = .ok ((), c₁) ∧
      statements g d b c₁ = .ok ((), c') := by
  rw [statements] at h
  have h := (CompileM.ask_bind _ _ c).symm.trans h
  have h := (CompileM.ask_bind _ _ c).symm.trans h
  split at h
  · cases h
    exact .inl rfl
  · next hgo =>
    split at h
    · exact absurd h (Fails.bind (fun _ => .fail _ _) _ _ _)
    · next hdepth =>
      simp only [Bool.or_eq_true, decide_eq_true_eq, not_or, Nat.not_lt, Bool.not_eq_true] at hgo
      have hindents : c.indentation = d := Nat.le_antisymm (Nat.not_lt.mp hdepth) hgo.2
      have h := (CompileM.ask_bind _ _ c).symm.trans h
      obtain ⟨_, c₁, hmove, h⟩ := CompileM.bind_eq_ok h
      cases hmove
      obtain ⟨_, c₂, hstatement, h⟩ := CompileM.bind_eq_ok h
      rw [hindents] at hstatement
      exact .inr ⟨hindents, hgo.1, c₂, hstatement, h⟩

/-- What follows the head of a statement: a block on the next lines, or a statement on the same. -/
theorem tail_eq_ok (h : tail g d c = .ok ((), c')) :
    (∃ c₁ c₂, CompileM.matchKind .statementTerminator c = .ok (true, c₁) ∧
      requireLine (d + 1) c₁ = .ok ((), c₂) ∧
      statements g (d + 1) (c₂.tokens.size - c₂.cursor + 1) c₂ = .ok ((), c')) ∨
    ∃ c₁, CompileM.matchKind .statementTerminator c = .ok (false, c₁) ∧
      g.statement d c₁ = .ok ((), c') := by
  rw [tail] at h
  obtain ⟨broken, c₁, hmatch, h⟩ := CompileM.bind_eq_ok h
  cases broken with
  | true =>
    rw [if_pos rfl, block] at h
    obtain ⟨_, c₂, hline, h⟩ := CompileM.bind_eq_ok h
    exact .inl ⟨c₁, c₂, hmatch, hline, (CompileM.ask_bind _ _ c₂).symm.trans h⟩
  | false =>
    rw [if_neg Bool.false_ne_true] at h
    exact .inr ⟨c₁, hmatch, h⟩

end Block

/-- A token that is looked for is taken, or the state is as before. -/
theorem CompileM.matchKind_eq_ok {k : TokenKind} {found : Bool} {c c' : Compiler}
    (hk : k ≠ .endOfFile) (h : matchKind k c = .ok (found, c')) :
    found = true ∧ c.kindAt c.cursor = k ∧ c' = { c with cursor := c.cursor + 1 } ∨
      found = false ∧ c' = c := by
  rw [matchKind, check, bind_assoc] at h
  have h := (ask_bind _ _ c).symm.trans h
  rw [pure_bind] at h
  split at h
  · next hkind =>
    have hkind : c.kindAt c.cursor = k := beq_iff_eq.mp hkind
    obtain ⟨token, c₁, hadvance, h⟩ := bind_eq_ok h
    obtain ⟨-, ⟨-, rfl⟩ | ⟨hge, -⟩⟩ := advance_eq_ok hadvance
    · cases h
      exact .inl ⟨rfl, hkind, rfl⟩
    · rw [Compiler.kindAt, Array.getElem?_eq_none hge] at hkind
      exact absurd hkind.symm hk
  · cases h
    exact .inr ⟨rfl, rfl⟩

@[grind ←] theorem Statement.idle_elseHead {p : Token × Nat} : Idle (elseHead p) := by
  unfold elseHead
  grind

/-- The first branch of a conditional is what follows its head. -/
theorem Statement.thenBranch_eq_ok {g : Productions} {d : Nat} {p : Token × Nat} {c c' : Compiler}
    (h : thenBranch g d c = .ok (p, c')) : ∃ c₁ c₂, ifHead g c = .ok (p, c₁) ∧
      Block.tail g d c₁ = .ok ((), c₂) ∧ c₂.Beside c' := by
  rw [thenBranch] at h
  obtain ⟨q, c₁, hhead, h⟩ := CompileM.bind_eq_ok h
  obtain ⟨_, c₂, htail, h⟩ := CompileM.bind_eq_ok h
  obtain ⟨_, c₃, hexit, h⟩ := CompileM.bind_eq_ok h
  cases h
  exact ⟨c₁, c₂, hhead, htail, CompileM.tracks_exitBlock.idle.beside_of_eq_ok hexit⟩

namespace Site

variable {n d b i k : Nat} {c c' c₁ c₂ c₃ : Compiler} {p : Token × Nat} {root s s' : Site}

theorem settled_lines (hn : root.Settles n) (hmet : root.Meets ⟨n, .lines d b, c⟩)
    (h : Reads ⟨n, .lines d b, c⟩ c') (hrests : c.Rests) : root.Settled c c' := by
  induction b generalizing c with
  | zero => exact absurd h (Fails.failFuel _ _ _)
  | succ b ih =>
    obtain rfl | ⟨hindents, hmore, c₁, hstatement, hrest⟩ := Block.statements_eq_ok h
    · exact ⟨.of_along (.refl _), hrests⟩
    · have hfirst := hn d _ c₁ (hmet.step (.line hindents hmore)) hstatement
      have hlast := ih (hmet.step (.next hindents hmore hstatement)) hrest hfirst.rests
      exact ⟨(Covered.indents hindents).trans (hfirst.covered.trans hlast.covered), hlast.rests⟩

/-- The lines of a block begin behind the terminator that ends the line before. -/
theorem rests_of_block (root : Site)
    (hbroken : CompileM.matchKind .statementTerminator c = .ok (true, c₁))
    (hline : Block.requireLine d c₁ = .ok ((), c₂)) : root.Covered c c₂ ∧ c₂.Rests := by
  obtain ⟨-, hkind, rfl⟩ | ⟨hfound, -⟩ := CompileM.matchKind_eq_ok (by simp) hbroken
  · have hbeside := (Block.tracks_requireLine d).idle.beside_of_eq_ok hline
    have hpassed : root.Covered c { c with cursor := c.cursor + 1 } := .terminator hkind rfl rfl
    refine ⟨hpassed.trans (.of_beside hbeside), hbeside.rests ?_⟩
    exact .line (.inr ⟨c.cursor, rfl, hkind⟩)
  · cases hfound

theorem settled_tail (hn : root.Settles n) (hmet : root.Meets ⟨n, .tail d, c⟩)
    (h : Block.tail (productions n) d c = .ok ((), c')) : root.Settled c c' := by
  obtain ⟨c₁, c₂, hbroken, hline, hlines⟩ | ⟨c₁, hsame, hstatement⟩ := Block.tail_eq_ok h
  · obtain ⟨hcovered, hrests⟩ := rests_of_block root hbroken hline
    have hlast := settled_lines hn (hmet.step (.block hbroken hline)) hlines hrests
    exact ⟨hcovered.trans hlast.covered, hlast.rests⟩
  · obtain ⟨hfound, -⟩ | ⟨-, rfl⟩ := CompileM.matchKind_eq_ok (by simp) hsame
    · cases hfound
    · exact hn d _ c' (hmet.step (.inline hsame)) hstatement

theorem settled_thenBranch (hn : root.Settles n) (hmet : root.Meets ⟨n + 1, .statement d, c⟩)
    (hkind : c.kindAt c.cursor = .keyword .if_)
    (h : Statement.thenBranch (productions n) d c = .ok (p, c')) : root.Settled c c' := by
  obtain ⟨c₁, c₂, hhead, htail, hbeside⟩ := Statement.thenBranch_eq_ok h
  have henters : Statement.Enters (productions n) c c₁ := .if_ hkind hhead
  have hbody := settled_tail hn (hmet.step (.body henters)) htail
  exact ⟨(Covered.of_along (henters.along (productions_inline n))).trans
    (hbody.covered.trans (.of_beside hbeside)), hbeside.rests hbody.rests⟩

/-- An `else` that follows the first branch is the only one up to the second branch, and it is taken. -/
theorem covered_elseFollows (hmet : root.Meets ⟨n + 1, .statement d, c⟩)
    (hkind : c.kindAt c.cursor = .keyword .if_)
    (hbranch : Statement.thenBranch (productions n) d c = .ok (p, c₁))
    (h : Statement.elseFollows d c₁ = .ok (true, c₂)) : root.Covered c₁ c₂ := by
  have htaken : ∀ k, c₂.cursor = k + 1 → ∃ i, root.Attaches i k := fun k hk =>
    ⟨c.cursor, hmet, rfl, hkind, hbranch, h, hk⟩
  obtain ⟨hfalse, -⟩ | ⟨-, ⟨-, -, -, rfl⟩ | ⟨-, hindents, -, rfl⟩⟩ := Statement.elseFollows_eq_ok h
  · cases hfalse
  · refine ⟨rfl, fun k hle hlt _ => .inr (htaken k ?_)⟩
    exact congrArg (· + 1) (Nat.le_antisymm hle (Nat.le_of_lt_succ hlt))
  · refine ⟨rfl, fun k hle hlt helse => ?_⟩
    by_cases hk : k < c₁.cursor + d
    · exact (Covered.indents hindents).all k hle hk helse
    · refine .inr (htaken k ?_)
      exact congrArg (· + 1) (Nat.le_antisymm (Nat.not_lt.mp hk) (Nat.le_of_lt_succ hlt))

/-- Every statement is settled, by induction on the fuel. -/
theorem settles (root : Site) (n : Nat) : root.Settles n := by
  induction n with
  | zero => exact fun d c c' _ h => absurd h (Fails.failFuel _ _ _)
  | succ n ih =>
    intro d c c' hmet h
    have hinline := productions_inline n
    cases Statement.read_eq_ok hinline h with
    | closed kind stops => exact ⟨.of_stops stops, stops.rests kind⟩
    | body enters tail beside =>
      have hbody := settled_tail ih (hmet.step (.body enters)) tail
      exact ⟨(Covered.of_along (enters.along hinline)).trans
        (hbody.covered.trans (.of_beside beside)), beside.rests hbody.rests⟩
    | ifThen kind branch beside =>
      have hthen := settled_thenBranch ih hmet kind branch
      exact ⟨hthen.covered.trans (.of_beside beside), beside.rests hthen.rests⟩
    | ifElse kind branch follows head tail beside =>
      have hthen := settled_thenBranch ih hmet kind branch
      have htaken := covered_elseFollows hmet kind branch follows
      have hhead := Statement.idle_elseHead.beside_of_eq_ok head
      have helse := settled_tail ih (hmet.step (.else_ kind branch follows head)) tail
      exact ⟨hthen.covered.trans (htaken.trans ((Covered.of_beside hhead).trans
        (helse.covered.trans (.of_beside beside)))), beside.rests helse.rests⟩
    | structure_ kind settles rests =>
      exact ⟨⟨settles, fun k hle hlt _ => .inl ⟨hmet, kind, h, hle, hlt⟩⟩, rests⟩

/-! ### Depths -/

/-- An `else` in the middle of a line that goes to a conditional of another line. -/
def Stray (root : Site) (k : Nat) : Prop :=
  (∃ i, root.Attaches i k ∧ ¬ SameLine root.state.tokens i k) ∧
    ∀ depth, ¬ Leads root.state.tokens depth k

/-- The place is on a line of the depth, or behind a stray `else` on its line. -/
def Placed (root : Site) (depth j : Nat) : Prop :=
  OnLine root.state.tokens depth j ∨ ∃ k, k < j ∧ SameLine root.state.tokens k j ∧ root.Stray k

/-- A phrase is read from a place that fits it. -/
def Fits (root : Site) (c : Compiler) : Phrase → Prop
  | .lines _ _ => c.Rests
  | .tail depth => root.Placed depth c.cursor
  | .statement depth => c.kindAt c.cursor = .keyword .else_ ∨ root.Placed depth c.cursor

/-- The phrase is read from the tokens of the root, at a place that fits it. -/
structure Aligned (root s : Site) : Prop where
  tokens : s.state.tokens = root.state.tokens
  fits : root.Fits s.state s.phrase

theorem Placed.trans {j : Nat} (h : root.Placed d i) (hsame : SameLine root.state.tokens i j) :
    root.Placed d j := by
  obtain hline | ⟨k, hlt, hk, hstray⟩ := h
  · exact .inl (hline.trans hsame)
  · exact .inr ⟨k, Nat.lt_of_lt_of_le hlt hsame.1, hk.trans hsame, hstray⟩

/-- The `else` that a conditional takes does not lead its line, or it leads one of the depth at hand. -/
theorem taken_else (hmet : root.Meets ⟨n + 1, .statement d, c⟩)
    (hkind : c.kindAt c.cursor = .keyword .if_)
    (hbranch : Statement.thenBranch (productions n) d c = .ok (p, c₁))
    (hfollows : Statement.elseFollows d c₁ = .ok (true, c₂)) :
    ∃ k, c₂.cursor = k + 1 ∧ c₂.tokens = c.tokens ∧ kindIn c.tokens k = .keyword .else_ ∧
      ((∀ depth, ¬ Leads c.tokens depth k) ∨ Leads c.tokens d k) := by
  obtain ⟨⟨htokens, -⟩, hrests⟩ := settled_thenBranch (root.settles n) hmet hkind hbranch
  rw [Compiler.Rests, htokens] at hrests
  have hkindAt : ∀ j, c₁.kindAt j = kindIn c.tokens j := Compiler.kindAt_of_tokens htokens
  have hindentation : c₁.indentation = Compiler.indentsFrom c.tokens c₁.cursor := by
    rw [Compiler.indentation, htokens]
  obtain ⟨hfalse, -⟩ | ⟨-, ⟨hpos, hbefore, helse, rfl⟩ | ⟨hinner, rfl, helse, rfl⟩⟩ :=
    Statement.elseFollows_eq_ok hfollows
  · cases hfalse
  · rw [hkindAt] at hbefore helse
    refine ⟨c₁.cursor, rfl, htokens, helse, .inl ?_⟩
    cases hrests with
    | line h =>
      obtain hzero | ⟨j, hj, hterminator⟩ := h
      · omega
      · rw [hj, Nat.add_sub_cancel] at hbefore
        exact absurd hterminator hbefore
    | eof h =>
      rw [helse] at h
      cases h
    | inner _ eq before =>
      rw [eq]
      exact fun depth => not_leads before
  · rw [hkindAt] at helse
    rw [hindentation] at helse ⊢
    refine ⟨_, rfl, htokens, helse, .inr ?_⟩
    cases hrests with
    | line h => exact ⟨c₁.cursor, ⟨h, rfl⟩, rfl⟩
    | eof h =>
      rw [indentsFrom_eq_zero (by rw [h]; simp), Nat.add_zero, h] at helse
      cases helse
    | inner h eq before =>
      -- then it would have been taken as one that continues its line
      refine absurd ⟨by omega, ?_, (hkindAt _).trans h⟩ hinner
      rw [hkindAt, eq, Nat.add_sub_cancel]
      intro hterminator
      rw [hterminator] at before
      cases before

/-- What is read inside a phrase that fits its place fits its place. -/
theorem Aligned.begins (h : root.Aligned s) (hmet : root.Meets s) (hbegins : s.Begins s') :
    root.Aligned s' := by
  obtain ⟨htokens, hfits⟩ := h
  cases hbegins with
  | @line n d b c indents more =>
    have htokens : c.tokens = root.state.tokens := htokens
    refine ⟨htokens, ?_⟩
    -- between statements the compiler stands at a line, at the end or before an `else` inside a line
    obtain hstart | ⟨helse, hzero⟩ := Compiler.Rests.lineStart_or_inner hfits more
    · have hleads : Leads c.tokens d (c.cursor + d) := ⟨c.cursor, ⟨hstart, indents⟩, rfl⟩
      exact .inr (.inl (htokens ▸ hleads.onLine))
    · obtain rfl : 0 = d := hzero.symm.trans indents
      exact .inl helse
  | @next n d b c c₁ indents more reads =>
    have hsettled := root.settles n d _ c₁ (hmet.step (.line indents more)) reads
    exact ⟨hsettled.covered.tokens.trans htokens, hsettled.rests⟩
  | @block n d c c₁ c₂ broken line =>
    obtain ⟨hcovered, hrests⟩ := rests_of_block root broken line
    exact ⟨hcovered.tokens.trans htokens, hrests⟩
  | @inline n d c c₁ same =>
    obtain ⟨hfound, -⟩ | ⟨-, rfl⟩ := CompileM.matchKind_eq_ok (by simp) same
    · cases hfound
    · exact ⟨htokens, .inr hfits⟩
  | @body n d c c₁ enters =>
    have halong := enters.along (productions_inline n)
    have hplaced := hfits.resolve_left enters.kind_ne
    exact ⟨halong.tokens.trans htokens, hplaced.trans (htokens ▸ halong.sameLine)⟩
  | @else_ n d exit p c c₁ c₂ c₃ kind branch follows head =>
    have htokens : c.tokens = root.state.tokens := htokens
    obtain ⟨k, hk, htaken, helse, hplace⟩ := taken_else hmet kind branch follows
    have hbeside := Statement.idle_elseHead.beside_of_eq_ok head
    rw [htokens] at htaken helse hplace
    refine ⟨hbeside.tokens.trans htaken, ?_⟩
    show root.Placed d c₃.cursor
    rw [hbeside.cursor, hk]
    have hsucc : SameLine root.state.tokens k (k + 1) := (SameLine.refl _ k).succ (by rw [helse]; simp)
    have hplaced : root.Placed d c.cursor := hfits.resolve_left (by rw [kind]; simp)
    -- an `else` that leads its line brings the depth along; one that does not is on the line of its
    -- conditional, or stray
    obtain hnot | hleads := hplace
    · by_cases hsame : SameLine root.state.tokens c.cursor k
      · exact hplaced.trans (hsame.trans hsucc)
      · refine .inr ⟨k, Nat.lt_succ_self k, hsucc, ⟨c.cursor, ?_, hsame⟩, hnot⟩
        exact ⟨hmet, rfl, kind, branch, follows, hk⟩
    · exact .inl (hleads.onLine.trans hsucc)

/-- Everything that is met fits its place, by induction on the way there. -/
theorem Aligned.of_met (hroot : root.Aligned root) (hmet : root.Meets s) : root.Aligned s := by
  induction hmet with
  | refl => exact hroot
  | tail hmet hbegins ih => exact ih.begins hmet hbegins

/-- An `else` is taken by the conditional that it belongs to, if neither it is stray nor another one
before its conditional on the line. -/
theorem Attaches.belongs (h : root.Attaches i k) (hroot : root.Aligned root) :
    Belongs root.state.tokens i k ∨ root.Stray k ∨
      ∃ j, j < i ∧ SameLine root.state.tokens j i ∧ root.Stray j := by
  obtain @⟨n, d, p, c, c₁, c₂, hmet, hplace, hkind, hbranch, hfollows, htaken⟩ := id h
  obtain ⟨htokens, hfits⟩ := hroot.of_met hmet
  have htokens : c.tokens = root.state.tokens := htokens
  have hplaced : root.Placed d c.cursor := hfits.resolve_left (by rw [hkind]; simp)
  obtain ⟨j, hj, -, -, hleads⟩ := taken_else hmet hkind hbranch hfollows
  obtain rfl : k = j := Nat.succ.inj (htaken.symm.trans hj)
  rw [htokens] at hleads
  rw [hplace] at hplaced
  obtain hnot | hleads := hleads
  · by_cases hsame : SameLine root.state.tokens i k
    · exact .inl (.inl hsame)
    · exact .inr (.inl ⟨⟨i, h, hsame⟩, hnot⟩)
  · obtain hline | hstray := hplaced
    · exact .inl (.inr ⟨d, hleads, hline⟩)
    · exact .inr (.inr hstray)

end Site

/-! ### The end of the file -/

/-- In a cleaned sequence nothing stands behind the end of the file. -/
theorem kindIn_ne_of_tokenize {name source : String} {tokens : Array Token} {j k : Nat}
    (h : tokenize name source = .ok tokens) (hk : kindIn tokens k ≠ .endOfFile) (hle : j ≤ k) :
    kindIn tokens j ≠ .endOfFile := by
  obtain ⟨ts, eof, htoList, heof, hts⟩ := exists_eof_of_tokenize h
  have hk' : k < ts.length := by
    by_contra hge
    refine hk ?_
    rw [kindIn, ← Array.getElem?_toList, htoList, List.getElem?_append_right (Nat.le_of_not_lt hge)]
    split
    · next t ht => rw [List.mem_singleton.mp (List.mem_of_getElem? ht), heof]
    · rfl
  have hj : j < ts.length := Nat.lt_of_le_of_lt hle hk'
  rw [kindIn, ← Array.getElem?_toList, htoList, List.getElem?_append_left hj, List.getElem?_eq_getElem hj]
  exact hts _ (List.getElem_mem hj)

/-! ### Modules and bodies -/

/-- The lines of a module, read by a compiler. -/
def Site.ofModule (c : Compiler) (name : String) (tokens : Array Token) : Site :=
  ⟨(c.atModule name tokens).fuel, .lines 0 (tokens.size + 1), c.atModule name tokens⟩

/-- An `else` that is passed stands in the declaration of a structure, or a conditional takes it: one
that it belongs to, unless it is stray or another one is, before its conditional on the line. -/
def Site.Bound (root : Site) (k : Nat) : Prop :=
  root.Declares k ∨ ∃ i, root.Attaches i k ∧
    (Belongs root.state.tokens i k ∨ root.Stray k ∨
      ∃ j, j < i ∧ SameLine root.state.tokens j i ∧ root.Stray j)

theorem Site.Covered.bound {root : Site} {c c' : Compiler} {k : Nat} (h : root.Covered c c')
    (hroot : root.Aligned root) (hle : c.cursor ≤ k) (hlt : k < c'.cursor)
    (hkind : c.kindAt k = .keyword .else_) : root.Bound k := by
  obtain hdeclares | ⟨i, hattaches⟩ := h.all k hle hlt hkind
  · exact .inl hdeclares
  · exact .inr ⟨i, hattaches, hattaches.belongs hroot⟩

/-- A module is read as the lines of depth zero, up to the end of the file. -/
theorem Compiler.addModule_eq_ok {c c' : Compiler} {name : String} {tokens : Array Token}
    (h : c.addModule name tokens = .ok c') :
    (Site.ofModule c name tokens).Reads c' ∧ c'.atEnd = true := by
  rw [addModule] at h
  split at h
  · cases h
  · next hread =>
    cases h
    rw [readModule] at hread
    have hread := (CompileM.ask_bind _ _ _).symm.trans hread
    have hread := (CompileM.ask_bind _ _ _).symm.trans hread
    obtain ⟨_, c₁, hlines, hread⟩ := CompileM.bind_eq_ok hread
    have hread := (CompileM.ask_bind _ _ _).symm.trans hread
    split at hread
    · exact absurd hread (Fails.bind (fun _ => .failExpected _ _) _ _ _)
    · next hend =>
      cases hread
      exact ⟨hlines, by simpa using hend⟩

/-- Every `else` of a module that is compiled. -/
theorem bound_of_addSource {c c' : Compiler} {name source : String}
    (h : addSource c name source = .ok c') : ∃ tokens, tokenize name source = .ok tokens ∧
      ∀ k, kindIn tokens k = .keyword .else_ → (Site.ofModule c name tokens).Bound k := by
  rw [addSource] at h
  split at h
  · cases h
  · next tokens htokens =>
    refine ⟨tokens, htokens, fun k hkind => ?_⟩
    cases hadd : c.addModule name tokens with
    | error e =>
      rw [hadd] at h
      cases h
    | ok c₁ =>
      obtain ⟨hreads, hend⟩ := Compiler.addModule_eq_ok hadd
      have hroot : (Site.ofModule c name tokens).Aligned (Site.ofModule c name tokens) :=
        ⟨rfl, .line (.inl rfl)⟩
      obtain ⟨hcovered, hrests⟩ := Site.settled_lines (Site.settles _ _) .refl hreads
        (.line (.inl rfl))
      refine hcovered.bound hroot (Nat.zero_le k) ?_ hkind
      -- What is left are indents and the end of the file.
      by_contra hge
      obtain ⟨j, rfl⟩ := Nat.exists_eq_add_of_le (Nat.not_lt.mp hge)
      have hkindAt : ∀ k, c₁.kindAt k = kindIn tokens k :=
        Compiler.kindAt_of_tokens hcovered.tokens
      rw [← hkindAt] at hkind
      by_cases hj : j < c₁.indentation
      · rw [show c₁.kindAt _ = .indent from kindIn_of_lt_indentsFrom hj] at hkind
        cases hkind
      · have hne : kindIn tokens (c₁.cursor + j) ≠ .endOfFile := by
          rw [← hkindAt, hkind]
          simp
        refine kindIn_ne_of_tokenize htokens hne (Nat.add_le_add_left (Nat.not_lt.mp hj) _) ?_
        rw [← hkindAt]
        exact beq_iff_eq.mp hend

/-- The modules before one that is compiled have been compiled. -/
theorem addSources_append_eq_ok {c c' : Compiler} {before after : List (String × String)}
    (h : addSources c (before ++ after) = .ok c') :
    ∃ c₁, addSources c before = .ok c₁ ∧ addSources c₁ after = .ok c' := by
  induction before generalizing c with
  | nil => exact ⟨c, rfl, h⟩
  | cons m before ih =>
    obtain ⟨name, source⟩ := m
    rw [List.cons_append, addSources] at h
    rw [addSources]
    split at h
    · cases h
    · next c₀ hsource => exact ih h

theorem exists_of_compileModules {modules : List (String × String)} {p : Program}
    (h : compileModules modules = .ok p) : ∃ c, addSources .start modules = .ok c ∧ c.build = p := by
  rw [compileModules] at h
  cases hadd : addSources .start modules with
  | error e =>
    rw [hadd] at h
    cases h
  | ok c =>
    rw [hadd] at h
    exact ⟨c, rfl, Except.ok.inj h⟩

/-- In every program that is compiled, every `else` of a module that is not in the declaration of a
structure is taken by a conditional: by one on its line, or, where it begins a line, by one on a line of
the same depth, unless an `else` in the middle of a line goes to a conditional of another line, which is
this `else` or one before its conditional.  The same holds of the body of any function or method, read
on a line of the depth at hand. -/
theorem else_binding (k : Nat) :
    (∀ {before after : List (String × String)} {name source : String} {p : Program},
      compileModules (before ++ (name, source) :: after) = .ok p →
      ∃ c tokens, addSources .start before = .ok c ∧ tokenize name source = .ok tokens ∧
        (kindIn tokens k = .keyword .else_ → (Site.ofModule c name tokens).Bound k)) ∧
    ∀ {fuel depth : Nat} {c c' : Compiler}, OnLine c.tokens depth c.cursor →
      Site.Reads ⟨fuel, .tail depth, c⟩ c' → c.cursor ≤ k → k < c'.cursor →
      c.kindAt k = .keyword .else_ → Site.Bound ⟨fuel, .tail depth, c⟩ k := by
  refine ⟨fun hcompile => ?_, fun hline hreads hle hlt hkind => ?_⟩
  · obtain ⟨c', hadd, -⟩ := exists_of_compileModules hcompile
    obtain ⟨c, hbefore, hafter⟩ := addSources_append_eq_ok hadd
    rw [addSources] at hafter
    split at hafter
    · cases hafter
    · next c₁ hsource =>
      obtain ⟨tokens, htokens, hall⟩ := bound_of_addSource hsource
      exact ⟨c, tokens, hbefore, htokens, hall k⟩
  · obtain ⟨hcovered, -⟩ := Site.settled_tail (Site.settles _ _) .refl hreads
    exact hcovered.bound ⟨rfl, .inl hline⟩ hle hlt hkind

/-- A conditional inside another one, each with an `else`. -/
def nestedElse : String :=
  "var x = 0\nif true then\n    if x == 1 then x = 2 else x = 3\nelse x = 4\n"

theorem else_binding_of_nestedElse :
    (∃ p, compileModules [("nested", nestedElse)] = .ok p) ∧
    (∃ c tokens, addSources .start [] = .ok c ∧ tokenize "nested" nestedElse = .ok tokens ∧
      kindIn tokens 18 = .keyword .else_ ∧ (Site.ofModule c "nested" tokens).Bound 18 ∧
      kindIn tokens 23 = .keyword .else_ ∧ (Site.ofModule c "nested" tokens).Bound 23) ∧
    ∃ (c c' : Compiler), OnLine c.tokens 0 c.cursor ∧ Site.Reads ⟨3, .tail 0, c⟩ c' ∧
      c.cursor ≤ 4 ∧ 4 < c'.cursor ∧ c.kindAt 4 = .keyword .else_ ∧
      Site.Bound ⟨3, .tail 0, c⟩ 4 := by
  have hmodule : ((compileModules [("nested", nestedElse)]).toOption.any fun _ =>
      (tokenize "nested" nestedElse).toOption.any fun tokens =>
        decide (kindIn tokens 18 = .keyword .else_) &&
        decide (kindIn tokens 23 = .keyword .else_)) = true := by
    decide +kernel
  have hbody : ((tokenize "body" "if true then yield else yield\n").toOption.any fun tokens =>
      (Block.tail (productions 3) 0 (Compiler.start.atModule "body" tokens)).toOption.any fun r =>
        decide (4 < r.2.cursor) && decide (kindIn tokens 4 = .keyword .else_) &&
        decide (Compiler.indentsFrom tokens 0 = 0)) = true := by
    decide +kernel
  obtain ⟨p, hcompile, hkinds⟩ := exists_of_any hmodule
  have hmodules : compileModules ([] ++ ("nested", nestedElse) :: []) = .ok p := hcompile
  obtain ⟨tokens, htokens, hkinds⟩ := exists_of_any hkinds
  rw [Bool.and_eq_true, decide_eq_true_eq, decide_eq_true_eq] at hkinds
  obtain ⟨c, tokens₁, hstart, htokens₁, hinner⟩ := (else_binding 18).1 hmodules
  obtain ⟨c₂, tokens₂, hstart₂, htokens₂, houter⟩ := (else_binding 23).1 hmodules
  obtain rfl : tokens = tokens₁ := Except.ok.inj (htokens.symm.trans htokens₁)
  obtain rfl : tokens = tokens₂ := Except.ok.inj (htokens.symm.trans htokens₂)
  obtain rfl : c = c₂ := Except.ok.inj (hstart.symm.trans hstart₂)
  refine ⟨⟨p, hcompile⟩, ⟨c, tokens, hstart, htokens, hkinds.1, hinner hkinds.1, hkinds.2,
    houter hkinds.2⟩, ?_⟩
  obtain ⟨line, -, hreads⟩ := exists_of_any hbody
  obtain ⟨⟨⟨⟩, c'⟩, hreads, hplace⟩ := exists_of_any hreads
  simp only [Bool.and_eq_true, decide_eq_true_eq] at hplace
  obtain ⟨⟨hlt, hkind⟩, hindents⟩ := hplace
  have hline : OnLine line 0 0 := ⟨0, ⟨.inl rfl, hindents⟩, .refl _ _⟩
  exact ⟨_, c', hline, hreads, Nat.zero_le _, hlt, hkind,
    (else_binding 4).2 hline hreads (Nat.zero_le _) hlt hkind⟩

/-- The last statement of a block stands before an `else`. -/
def strayElse : String :=
  "var x = 0\nif true then\n    x = 1 else x = 2\n"

/-- A program is compiled although its only conditional is on another line than the `else`, which
begins no line. -/
theorem stray_else :
    ∃ p tokens, compileModules [("stray", strayElse)] = .ok p ∧
      tokenize "stray" strayElse = .ok tokens ∧
      ∃ k, kindIn tokens k = .keyword .else_ ∧
        ∀ i, kindIn tokens i = .keyword .if_ → ¬ Belongs tokens i k := by
  have hcheck : ((compileModules [("stray", strayElse)]).toOption.any fun _ =>
      (tokenize "stray" strayElse).toOption.any fun tokens =>
        decide (kindIn tokens 13 = .keyword .else_) &&
        decide ((kindIn tokens 12).isBreak = false) &&
        decide (kindIn tokens 8 = .statementTerminator) &&
        decide (∀ t ∈ tokens.toList.drop 8, t.kind ≠ .keyword .if_)) = true := by
    decide +kernel
  obtain ⟨p, hcompile, hkinds⟩ := exists_of_any hcheck
  obtain ⟨tokens, htokens, hkinds⟩ := exists_of_any hkinds
  simp only [Bool.and_eq_true, decide_eq_true_eq] at hkinds
  obtain ⟨⟨⟨helse, hbefore⟩, hterminator⟩, hif⟩ := hkinds
  refine ⟨p, tokens, hcompile, htokens, 13, helse, fun i hkind hbelongs => ?_⟩
  obtain hsame | ⟨depth, hleads, -⟩ := hbelongs
  · -- the line of the conditional ends before the `else`
    have hi : i < 8 := by
      by_contra hge
      rw [kindIn] at hkind
      split at hkind
      · next t ht =>
        refine hif t (List.mem_iff_getElem?.mpr ⟨i - 8, ?_⟩) hkind
        rw [List.getElem?_drop, Nat.add_sub_cancel' (Nat.not_lt.mp hge), ← ht,
          Array.getElem?_toList]
      · cases hkind
    exact hsame.2 8 (Nat.le_of_lt hi) (by decide) hterminator
  · exact not_leads hbefore hleads

end WordScript
