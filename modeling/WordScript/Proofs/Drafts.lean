/-
Drafts: the compiler over scripts.

While statements over numbers and truth values are compiled, little of the state
of the compiler changes: the variables of the open scopes, the code and constants
of the entry chunk, the loops that are open, and the cursor.  A draft is that part,
and the rest of the state is made from it.  Every primitive of the compiler takes
drafts to drafts, which turns a computation of the compiler into an equation.

* `CompileM.result` — the outcome of a computation, whatever its error is;
* `Draft.compiler` — the state of the compiler at a draft;
* `Draft.result_emit`, `result_advance`, `result_declare` and so on — the
  primitives at a draft.
-/
import WordScript.Compiler.Module
import WordScript.Proofs.ExpressionTrees

namespace WordScript

namespace CompileM

/-- The outcome of a computation; all errors are alike. -/
def result {α : Type} (x : CompileM α) (c : Compiler) : Option (α × Compiler) :=
  (x c).toOption

variable {α β : Type} {c : Compiler}

theorem result_bind (x : CompileM α) (f : α → CompileM β) (c : Compiler) :
    result (x >>= f) c = (result x c).bind fun r => result (f r.1) r.2 := by
  show ((x >>= f) c).toOption = _
  simp only [bind, StateT.bind, result]
  cases hx : x c with
  | error e => rfl
  | ok r => rfl

theorem result_ask (f : Compiler → α) (c : Compiler) : result (ask f) c = some (f c, c) := rfl

theorem result_ite {p : Prop} [Decidable p] (x y : CompileM α) (c : Compiler) :
    result (if p then x else y) c = if p then result x c else result y c := by
  split <;> rfl

/-- A computation has an outcome exactly when it ends without an error. -/
theorem result_eq_some {x : CompileM α} {r : α × Compiler} : result x c = some r ↔ x c = .ok r := by
  simp only [result]
  cases hx : x c with
  | error e => simp [Except.toOption]
  | ok r' => simp [Except.toOption]

end CompileM

/-- The variable that a name stands for, and how many variables are older. -/
def slot? {α : Type} (x : String) : List (String × α) → Option (α × Nat)
  | [] => none
  | (y, a) :: older => if x == y then some (a, older.length) else slot? x older

theorem lookup_eq_slot? {α : Type} (x : String) (Γ : List (String × α)) :
    Γ.lookup x = (slot? x Γ).map Prod.fst := by
  induction Γ with
  | nil => rfl
  | cons e older ih =>
    obtain ⟨y, a⟩ := e
    rw [List.lookup_cons, slot?]
    by_cases h : (x == y) = true
    · rw [if_pos h, h]
      rfl
    · rw [if_neg h, ih, Bool.not_eq_true _ |>.mp h]

theorem slot?_lt {α : Type} {x : String} {Γ : List (String × α)} {a : α} {k : Nat}
    (h : slot? x Γ = some (a, k)) : k < Γ.length := by
  induction Γ with
  | nil => cases h
  | cons e older ih =>
    obtain ⟨y, b⟩ := e
    rw [slot?] at h
    split at h
    · cases h
      exact Nat.lt_succ_self _
    · exact Nat.lt_succ_of_lt (ih h)

/-- The variables of the open scopes, the innermost scope first. -/
abbrev Scopes := List Context

namespace Scopes

/-- The variables of a scope above `base` older words. -/
def entries (base : Nat) : Context → List (String × Variable)
  | [] => []
  | (x, ty) :: older => (x, ⟨ty.ty, base + older.length, true⟩) :: entries base older

/-- A scope inside others. -/
def scope (g : Context) (outer : Scopes) : Scope where
  parent := if outer = [] then none else some (outer.length - 1)
  kind := if outer = [] then .global else .block
  vars := entries outer.flatten.length g
  depth := outer.length
  wordLength := outer.flatten.length + g.length

/-- The scopes as the compiler keeps them. -/
def array : Scopes → Array Scope
  | [] => #[]
  | g :: outer => (array outer).push (scope g outer)

@[simp] theorem size_array (Γ : Scopes) : Γ.array.size = Γ.length := by
  induction Γ with
  | nil => rfl
  | cons g outer ih => rw [array, Array.size_push, ih, List.length_cons]

/-- The scope tree of some scopes. -/
def tree (Γ : Scopes) : ScopeTree :=
  ⟨Γ.array⟩

theorem get_tree (g : Context) (outer : Scopes) :
    (tree (g :: outer)).get outer.length = scope g outer := by
  rw [ScopeTree.get, tree, array, Array.getD_eq_getD_getElem?]
  rw [← size_array outer, Array.getElem?_push_size]
  rfl

/-- The scopes below the innermost one do not depend on it. -/
theorem get_tree_of_lt {g : Context} {outer : Scopes} {i : Nat} (h : i < outer.length) :
    (tree (g :: outer)).get i = (tree outer).get i := by
  rw [ScopeTree.get, ScopeTree.get, tree, tree, array, Array.getD_eq_getD_getElem?,
    Array.getD_eq_getD_getElem?, Array.getElem?_push_lt (by simpa using h),
    Array.getElem?_eq_getElem (by simpa using h)]

theorem search_tree_of_lt {α : Type} {g : Context} {outer : Scopes} (find : Scope → Option α) :
    ∀ {i : Nat}, i < outer.length →
      (tree (g :: outer)).search find i = (tree outer).search find i := by
  intro i
  induction i using Nat.strongRecOn with
  | ind i ih =>
    intro hi
    rw [ScopeTree.search, ScopeTree.search.eq_1 (tree outer), get_tree_of_lt hi]
    -- a parent has a smaller number, so the rest of the way stays below the innermost scope
    cases find ((tree outer).get i) with
    | some x => rfl
    | none =>
      cases ((tree outer).get i).parent with
      | none => rfl
      | some parent =>
        by_cases hlt : parent < i
        · simp only [if_pos hlt, ih parent hlt (by omega)]
        · simp only [if_neg hlt]

theorem frameRoot_tree_of_lt {g : Context} {outer : Scopes} :
    ∀ {i : Nat}, i < outer.length → (tree (g :: outer)).frameRoot i = (tree outer).frameRoot i := by
  intro i
  induction i using Nat.strongRecOn with
  | ind i ih =>
    intro hi
    rw [ScopeTree.frameRoot, ScopeTree.frameRoot.eq_1 (tree outer), get_tree_of_lt hi]
    cases ((tree outer).get i).kind with
    | global => rfl
    | function => rfl
    | block =>
      cases ((tree outer).get i).parent with
      | none => rfl
      | some parent =>
        by_cases hlt : parent < i
        · simp only [if_pos hlt, ih parent hlt (by omega)]
        · simp only [if_neg hlt]

/-- All variables are in the frame of the global scope. -/
theorem frameRoot_tree (g : Context) (outer : Scopes) :
    (tree (g :: outer)).frameRoot outer.length = 0 := by
  induction outer generalizing g with
  | nil =>
    rw [List.length_nil, ScopeTree.frameRoot, show (tree [g]).get 0 = scope g [] from get_tree g []]
    rfl
  | cons g' outer ih =>
    rw [ScopeTree.frameRoot, get_tree]
    have hlt : outer.length < (g' :: outer).length := Nat.lt_succ_self _
    simp only [scope, reduceCtorEq, if_false, List.length_cons, Nat.add_sub_cancel,
      Nat.lt_succ_self, if_true]
    rw [frameRoot_tree_of_lt hlt, ih]

theorem isGlobal_tree (g : Context) (outer : Scopes) :
    (tree (g :: outer)).isGlobal outer.length = true := by
  rw [ScopeTree.isGlobal, frameRoot_tree]
  induction outer generalizing g with
  | nil =>
    rw [show (tree [g]).get 0 = scope g [] from get_tree g []]
    rfl
  | cons g' outer ih => rw [get_tree_of_lt (Nat.zero_lt_succ _), ih]

theorem lookup_entries (base : Nat) (x : String) (g : Context) :
    (entries base g).lookup x = (slot? x g).map fun e => ⟨e.1.ty, base + e.2, true⟩ := by
  induction g with
  | nil => rfl
  | cons e older ih =>
    obtain ⟨y, ty⟩ := e
    rw [entries, List.lookup_cons, slot?]
    by_cases h : (x == y) = true
    · rw [if_pos h, h]
      rfl
    · rw [if_neg h, ih, Bool.not_eq_true _ |>.mp h]

theorem slot?_append {α : Type} (x : String) (g outer : List (String × α)) :
    slot? x (g ++ outer) =
      ((slot? x g).map fun e => (e.1, outer.length + e.2)).or (slot? x outer) := by
  induction g with
  | nil => rfl
  | cons e older ih =>
    obtain ⟨y, a⟩ := e
    rw [List.cons_append, slot?, slot?, ih]
    by_cases h : (x == y) = true
    · rw [if_pos h, if_pos h, List.length_append, Nat.add_comm]
      rfl
    · rw [if_neg h, if_neg h]

/-- A name stands for the newest variable of that name, in whatever scope it is. -/
theorem lookupVariable?_tree (x : String) (g : Context) (outer : Scopes) :
    (tree (g :: outer)).lookupVariable? outer.length x =
      (slot? x (g :: outer).flatten).map fun e => ⟨e.1.ty, e.2, true⟩ := by
  induction outer generalizing g with
  | nil =>
    rw [ScopeTree.lookupVariable?, List.length_nil, ScopeTree.search,
      show (tree [g]).get 0 = scope g [] from get_tree g []]
    rw [show ([g] : Scopes).flatten = g from List.append_nil g]
    simp only [scope, lookup_entries, if_true]
    cases slot? x g with
    | none => rfl
    | some e => simp
  | cons g' outer ih =>
    rw [ScopeTree.lookupVariable?, ScopeTree.search, get_tree]
    simp only [scope, lookup_entries, reduceCtorEq, if_false]
    rw [show (g :: g' :: outer).flatten = g ++ (g' :: outer).flatten from rfl, slot?_append]
    cases slot? x g with
    | some e => rfl
    | none =>
      have hlt : outer.length < (g' :: outer).length := Nat.lt_succ_self _
      simp only [List.length_cons, Nat.add_sub_cancel, Nat.lt_succ_self, if_true, Option.map_none,
        Option.none_or]
      rw [search_tree_of_lt _ hlt]
      exact ih g'

/-- A declaration adds a variable to the innermost scope. -/
theorem declareVariable_tree (x : String) (ty : Scalar) (g : Context) (outer : Scopes) :
    (tree (g :: outer)).declareVariable outer.length x ty.ty 1 =
      if g.lookup x = none then
        .ok (⟨ty.ty, (g :: outer).flatten.length, true⟩, tree (((x, ty) :: g) :: outer))
      else .error ⟨x⟩ := by
  rw [ScopeTree.declareVariable, get_tree, isGlobal_tree]
  simp only [scope, lookup_entries, lookup_eq_slot? x g]
  cases slot? x g with
  | some e => rfl
  | none =>
    simp only [Option.map_none, if_true, List.flatten_cons, List.length_append,
      Nat.add_comm g.length]
    have hset (s : Scope) : (array (g :: outer)).setIfInBounds outer.length s =
        outer.array.push s := by
      rw [array, ← size_array outer]
      refine Array.ext_getElem? fun i => ?_
      rw [Array.getElem?_setIfInBounds, Array.getElem?_push, Array.getElem?_push]
      grind
    rw [show (tree (g :: outer)).scopes = array (g :: outer) from rfl, hset]
    rfl

theorem enter_tree (g : Context) (outer : Scopes) :
    (tree (g :: outer)).enter outer.length .block =
      ((g :: outer).length, tree ([] :: g :: outer)) := by
  rw [ScopeTree.enter, get_tree]
  simp only [scope, tree, array, Array.size_push, size_array, List.length_cons, reduceCtorEq,
    if_false, Nat.add_sub_cancel, List.flatten_cons, List.length_append, List.length_nil,
    Nat.add_zero, Nat.add_comm g.length, entries]

theorem wordLength_tree (g : Context) (outer : Scopes) :
    (tree (g :: outer)).wordLength outer.length = (g :: outer).flatten.length := by
  rw [ScopeTree.wordLength, get_tree, List.flatten_cons, List.length_append, Nat.add_comm]
  rfl

theorem exit_tree (g g' : Context) (outer : Scopes) :
    (tree (g :: g' :: outer)).exit = (g.length, tree (g' :: outer)) := by
  have hback : (tree (g :: g' :: outer)).scopes.back? = some (scope g (g' :: outer)) :=
    Array.back?_push
  have hpop : (⟨(tree (g :: g' :: outer)).scopes.pop⟩ : ScopeTree) = tree (g' :: outer) := by
    rw [tree, array, Array.pop_push]
    rfl
  rw [ScopeTree.exit, hback]
  simp only [scope, reduceCtorEq, if_false, List.length_cons, Nat.add_sub_cancel, hpop, wordLength_tree]
  congr 1
  omega

end Scopes

namespace Chunk

/-- A chunk with one more instruction. -/
def push (c : Chunk) (i : Instruction) : Chunk :=
  { c with code := c.code.push i }

/-- A chunk with another displacement in an instruction. -/
def patch (c : Chunk) (at_ : Nat) (displacement : Int) : Chunk :=
  { c with code := c.code.modify at_ (fun i => i.withSigned displacement) }

/-- A chunk with the instruction that loads a number: the number is an operand if it fits, and a
constant otherwise. -/
def load? (c : Chunk) (w : Word) : Option Chunk :=
  if Instruction.immediateMin ≤ w.toInt ∧ w.toInt ≤ Instruction.immediateMax then
    some (c.push (.ofImmediate .pushImmediate w.toInt))
  else
    match c.constants.findIdx? (· == w) with
    | some index =>
      if index < 65536 then some (c.push (.ofByteShort .loadConstant 0 (UInt16.ofNat index)))
      else none
    | none =>
      if c.constants.size < 65536 then
        some ({ c with constants := c.constants ++ #[w] }.push
          (.ofByteShort .loadConstant 0 (UInt16.ofNat c.constants.size)))
      else none

end Chunk

/-- The kind of the first token; past the end it is the end of the file. -/
def headKind : List Token → TokenKind
  | [] => .endOfFile
  | t :: _ => t.kind

/-- A module that is compiled first: its tokens, and the token that stands for its end. -/
structure Source where
  tokens : Array Token
  eof : Token

/-- The part of the compiler that changes while statements over numbers and truth values are
read. -/
structure Draft where
  scopes : Scopes
  code : Chunk
  loops : List LoopContext
  cursor : Nat

namespace Source

/-- The tokens from a place on. -/
def ahead (src : Source) (k : Nat) : List Token :=
  src.tokens.toList.drop k

/-- The compiler at a draft. -/
def compiler (src : Source) (d : Draft) : Compiler :=
  { scopes := d.scopes.tree
    entry := ⟨0, d.code, d.scopes.length - 1, .void, d.loops⟩
    chunks := #[⟨Compiler.entryName, #[], #[]⟩]
    tokens := src.tokens
    cursor := d.cursor
    eof := src.eof }

variable {src : Source} {d : Draft} {t : Token} {ts rest : List Token} {k : Nat}

theorem getElem?_of_ahead (h : src.ahead k = t :: ts) : src.tokens[k]? = some t := by
  have hhead : (src.tokens.toList.drop k)[0]? = some t := by
    rw [show src.tokens.toList.drop k = t :: ts from h]
    rfl
  rwa [List.getElem?_drop, Nat.add_zero, Array.getElem?_toList] at hhead

theorem ahead_succ (h : src.ahead k = t :: ts) : src.ahead (k + 1) = ts := by
  rw [ahead, ← List.drop_drop, show src.tokens.toList.drop k = t :: ts from h]
  rfl

theorem ahead_add (h : src.ahead k = ts ++ rest) : src.ahead (k + ts.length) = rest := by
  rw [ahead, ← List.drop_drop, show src.tokens.toList.drop k = ts ++ rest from h,
    List.drop_left]

theorem length_ahead (src : Source) (k : Nat) : (src.ahead k).length = src.tokens.size - k := by
  rw [ahead, List.length_drop, Array.length_toList]

theorem kindAt_compiler (src : Source) (d : Draft) (k : Nat) :
    (src.compiler d).kindAt k = headKind (src.ahead k) := by
  cases h : src.ahead k with
  | nil =>
    have hsize : src.tokens.size ≤ k := by
      have hlength := length_ahead src k
      rw [h, List.length_nil] at hlength
      omega
    simp only [Compiler.kindAt, compiler, Array.getElem?_eq_none hsize]
    rfl
  | cons t ts =>
    simp only [Compiler.kindAt, compiler, getElem?_of_ahead h]
    rfl

end Source

namespace Draft

open CompileM

variable {src : Source} {d : Draft} {t : Token} {ts rest : List Token} {g : Context}
  {outer : Scopes}

theorem result_kind (src : Source) (d : Draft) :
    result kind (src.compiler d) = some (headKind (src.ahead d.cursor), src.compiler d) := by
  rw [kind, result_ask, Source.kindAt_compiler]
  rfl

theorem result_kindAhead (src : Source) (d : Draft) (n : Nat) :
    result (kindAhead n) (src.compiler d) =
      some (headKind (src.ahead (d.cursor + n)), src.compiler d) := by
  rw [kindAhead, result_ask, Source.kindAt_compiler]
  rfl

theorem result_budget (src : Source) (d : Draft) :
    result budget (src.compiler d) =
      some ((src.ahead d.cursor).length + 1, src.compiler d) := by
  rw [budget, result_ask, Source.length_ahead]
  rfl

theorem result_cursor (src : Source) (d : Draft) :
    result CompileM.cursor (src.compiler d) = some (d.cursor, src.compiler d) := rfl

theorem result_moveTo (src : Source) (d : Draft) (k : Nat) :
    result (moveTo k) (src.compiler d) = some ((), src.compiler { d with cursor := k }) := rfl

theorem result_current (h : src.ahead d.cursor = t :: ts) :
    result current (src.compiler d) = some (t, src.compiler d) := by
  rw [current, result_ask, Compiler.current, Array.getD_eq_getD_getElem?,
    show (src.compiler d).tokens[(src.compiler d).cursor]? = some t from
      Source.getElem?_of_ahead h]
  rfl

theorem result_advance (h : src.ahead d.cursor = t :: ts) :
    result advance (src.compiler d) =
      some (t, src.compiler { d with cursor := d.cursor + 1 }) := by
  have hcurrent : (src.compiler d).current = t := by
    have hask := result_current h
    rw [current, result_ask] at hask
    exact congrArg Prod.fst (Option.some.inj hask)
  have hlt : (src.compiler d).cursor < (src.compiler d).tokens.size :=
    (Array.getElem?_eq_some_iff.mp (Source.getElem?_of_ahead h)).1
  rw [result, advance]
  simp only [hcurrent, if_pos hlt]
  rfl

theorem result_check (src : Source) (d : Draft) (k : TokenKind) :
    result (check k) (src.compiler d) =
      some (headKind (src.ahead d.cursor) == k, src.compiler d) := by
  rw [check, result_bind, result_kind]
  rfl

theorem result_matchKind (h : src.ahead d.cursor = t :: ts) (k : TokenKind) :
    result (matchKind k) (src.compiler d) =
      if t.kind = k then some (true, src.compiler { d with cursor := d.cursor + 1 })
      else some (false, src.compiler d) := by
  rw [matchKind, result_bind, result_check, h, Option.bind_some, result_ite, result_bind,
    result_advance h]
  simp only [headKind, beq_iff_eq]
  rfl

theorem result_consume (h : src.ahead d.cursor = t :: ts) (k : TokenKind) (expected : String) :
    result (consume k expected) (src.compiler d) =
      if t.kind = k then some (t, src.compiler { d with cursor := d.cursor + 1 }) else none := by
  rw [consume, result_bind, result_check, h, Option.bind_some, result_ite, result_advance h,
    result_bind, result_current h]
  simp only [headKind, beq_iff_eq]
  rfl

/-- A statement ends at a terminator, before an `else`, and at the end of the file. -/
theorem result_endStatement (h : src.ahead d.cursor = t :: ts)
    (hend : t.kind = .statementTerminator) :
    result endStatement (src.compiler d) =
      some ((), src.compiler { d with cursor := d.cursor + 1 }) := by
  rw [endStatement, result_bind, result_kind, h, Option.bind_some]
  simp only [headKind, hend]
  rw [result_bind, result_advance h]
  rfl

theorem result_here (src : Source) (d : Draft) :
    result here (src.compiler d) = some (d.code.code.size, src.compiler d) := rfl

theorem result_byte (src : Source) (d : Draft) (n : Nat) (token : Token) (what : String) :
    result (byte n token what) (src.compiler d) =
      if n < 256 then some (UInt8.ofNat n, src.compiler d) else none := by
  rw [byte, result_ite]
  rfl

theorem result_short (src : Source) (d : Draft) (n : Nat) (token : Token) (what : String) :
    result (short n token what) (src.compiler d) =
      if n < 65536 then some (UInt16.ofNat n, src.compiler d) else none := by
  rw [short, result_ite]
  rfl

theorem result_wordsOf (src : Source) (d : Draft) (ty : Scalar) (token : Token) :
    result (wordsOf ty.ty token) (src.compiler d) = some (1, src.compiler d) := by
  cases ty <;> rfl

theorem result_emitInteger (src : Source) (d : Draft) (w : Word) (token : Token) :
    result (emitInteger w.toInt token) (src.compiler d) =
      (d.code.load? w).map fun code => ((), src.compiler { d with code }) := by
  rw [emitInteger, Chunk.load?, result_ite]
  split
  · rfl
  -- a large number goes through the pool
  · rw [Word.ofInt_toInt, emitConstant, result_bind, addConstant, result_bind, result_ask]
    simp only [Option.bind_some]
    have hconstants : (src.compiler d).builder.code.constants = d.code.constants := rfl
    rw [hconstants]
    cases d.code.constants.findIdx? (· == w) with
    | some index =>
      simp only [result_short]
      by_cases h : index < 65536
      · rw [if_pos h, if_pos h]
        rfl
      · rw [if_neg h, if_neg h]
        rfl
    | none =>
      simp only [result_bind, result_ask, Option.bind_some, hconstants]
      have hpush : result (modify (Compiler.mapBuilder (·.pushConstants #[w]))) (src.compiler d) =
          some ((), src.compiler { d with
            code := { d.code with constants := d.code.constants ++ #[w] } }) := rfl
      rw [hpush]
      simp only [Option.bind_some, result_short]
      by_cases h : d.code.constants.size < 65536
      · rw [if_pos h, if_pos h]
        rfl
      · rw [if_neg h, if_neg h]
        rfl

theorem result_lookup (hscopes : d.scopes ≠ []) (x : String) :
    result (ask fun c => c.scopes.lookupVariable? c.scope x) (src.compiler d) =
      some ((slot? x d.scopes.flatten).map fun e => ⟨e.1.ty, e.2, true⟩, src.compiler d) := by
  obtain ⟨g, outer, hscopes⟩ := List.exists_cons_of_ne_nil hscopes
  rw [result_ask]
  congr 2
  have h := Scopes.lookupVariable?_tree x g outer
  rwa [← hscopes, show outer.length = d.scopes.length - 1 by rw [hscopes]; rfl] at h

end Draft

end WordScript
