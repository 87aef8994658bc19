/-
Scopes and the frames they describe.

The open scopes form a chain: a block continues the frame of the scope before it,
and a function begins a frame right above the global scope.  Each variable lies
inside the words of its scope, so a variable that a name stands for lies inside the
frame of the scope where the name is used, or inside the global variables.

* `ScopeTree.Sound` — the chain, and variables inside their frames;
* `ScopeTree.Sound.variable_fits` — where the variable of a name lies;
* `ScopeTree.Grown` — what statements may do to the scopes;
* `ScopeTree.Sound.enter`, `Sound.declareVariable` and so on — the operations.
-/
import WordScript.Proofs.TypeSizes
import WordScript.Scope

namespace WordScript.ScopeTree

variable {t t' : TypeTable} {sc sc' : ScopeTree}

/-! ### Frames -/

/-- The root of a frame depends only on the scopes below. -/
theorem frameRoot_congr : ∀ (id : Nat),
    (∀ k ≤ id, (sc'.get k).kind = (sc.get k).kind ∧ (sc'.get k).parent = (sc.get k).parent) →
      sc'.frameRoot id = sc.frameRoot id := by
  intro id
  induction id using Nat.strongRecOn with
  | ind id ih =>
    intro h
    obtain ⟨hkind, hparent⟩ := h id (Nat.le_refl _)
    rw [frameRoot, frameRoot, hkind, hparent]
    split
    · rename_i parent hblock hsome
      split
      · exact ih parent ‹_› fun k hk => h k (by omega)
      · rfl
    · rfl

theorem frameRoot_le (sc : ScopeTree) (id : Nat) : sc.frameRoot id ≤ id := by
  induction id using Nat.strongRecOn with
  | ind id ih =>
    rw [frameRoot]
    split
    · split
      · exact Nat.le_trans (ih _ ‹_›) (Nat.le_of_lt ‹_›)
      · exact Nat.le_refl _
    · exact Nat.le_refl _

theorem isGlobal_congr {id : Nat}
    (h : ∀ k ≤ id, (sc'.get k).kind = (sc.get k).kind ∧ (sc'.get k).parent = (sc.get k).parent) :
    sc'.isGlobal id = sc.isGlobal id := by
  rw [isGlobal, isGlobal, frameRoot_congr id h, (h _ (frameRoot_le sc id)).1]

/-- A block belongs to the frame of the scope before it. -/
theorem isGlobal_block {id parent : Nat} (hkind : (sc.get id).kind = .block)
    (hparent : (sc.get id).parent = some parent) (hlt : parent < id) :
    sc.isGlobal id = sc.isGlobal parent := by
  have hroot : sc.frameRoot id = sc.frameRoot parent := by
    rw [frameRoot, hkind, hparent]
    exact if_pos hlt
  rw [isGlobal, isGlobal, hroot]

theorem isGlobal_function {id : Nat} (hkind : (sc.get id).kind = .function) :
    sc.isGlobal id = false := by
  have hroot : sc.frameRoot id = id := by
    rw [frameRoot, hkind]
  rw [isGlobal, hroot, hkind]
  rfl

/-! ### Soundness -/

/-- The scopes form a chain, and variables lie inside their scopes.  Functions are declared in the
global scope only. -/
structure Sound (t : TypeTable) (sc : ScopeTree) : Prop where
  nonempty : 0 < sc.scopes.size
  root : (sc.get 0).kind = .global ∧ (sc.get 0).parent = none
  chain : ∀ i, 0 < i → i < sc.scopes.size →
    ((sc.get i).kind = .block ∧ (sc.get i).parent = some (i - 1) ∧
      sc.wordLength (i - 1) ≤ sc.wordLength i) ∨
    ((sc.get i).kind = .function ∧ (sc.get i).parent = some 0)
  vars : ∀ i, ∀ e ∈ (sc.get i).vars, e.2.ty.Bounded t.structures.size ∧ t.HasSize e.2.ty ∧
    e.2.offset + t.words e.2.ty ≤ sc.wordLength i ∧ e.2.global = sc.isGlobal i
  functions : ∀ i, i ≠ 0 → (sc.get i).functions = []
  total : sc.wordLength 0 = t.totalWords ((sc.get 0).vars.map fun e => e.2.ty)

theorem get_of_size_le {i : Nat} (h : sc.scopes.size ≤ i) : sc.get i = default := by
  rw [get, Array.getD_eq_getD_getElem?, Array.getElem?_eq_none h]
  rfl

namespace Sound

theorem isGlobal_root (h : sc.Sound t) : sc.isGlobal 0 = true := by
  have hroot : sc.frameRoot 0 = 0 := by
    rw [frameRoot, h.root.1]
  rw [isGlobal, hroot, h.root.1]
  rfl

/-- Words only grow toward the inner scopes of the global frame. -/
theorem wordLength_root_le (h : sc.Sound t) : ∀ {i : Nat}, i < sc.scopes.size →
    sc.isGlobal i = true → sc.wordLength 0 ≤ sc.wordLength i := by
  intro i
  induction i with
  | zero => exact fun _ _ => Nat.le_refl _
  | succ i ih =>
    intro hi hglobal
    obtain ⟨hkind, hparent, hle⟩ | ⟨hkind, -⟩ := h.chain (i + 1) (Nat.succ_pos i) hi
    · rw [isGlobal_block hkind hparent (Nat.lt_succ_self i)] at hglobal
      exact Nat.le_trans (ih (by omega) hglobal) hle
    · rw [isGlobal_function hkind] at hglobal
      cases hglobal

/-- Where the variable of a name lies: inside the frame of the scope where the name is used, or
among the global variables. -/
structure VariableFits (t : TypeTable) (sc : ScopeTree) (id : Nat) (v : Variable) : Prop where
  bounded : v.ty.Bounded t.structures.size
  hasSize : t.HasSize v.ty
  frame : v.global = false → sc.isGlobal id = false ∧ v.offset + t.words v.ty ≤ sc.wordLength id
  global : v.global = true →
    v.offset + t.words v.ty ≤ if sc.isGlobal id then sc.wordLength id else sc.wordLength 0

theorem variableFits_of_mem (h : sc.Sound t) {id : Nat} {name : String} {v : Variable}
    (hmem : (name, v) ∈ (sc.get id).vars) : VariableFits t sc id v := by
  obtain ⟨hb, hs, hin, hglobal⟩ := h.vars id _ hmem
  refine ⟨hb, hs, fun hv => ?_, fun hv => ?_⟩
  · exact ⟨hglobal.symm.trans hv, hin⟩
  · rw [if_pos (hglobal.symm.trans hv)]
    exact hin

theorem variable_fits (h : sc.Sound t) {name : String} {v : Variable} : ∀ {id : Nat},
    id < sc.scopes.size → sc.lookupVariable? id name = some v → VariableFits t sc id v := by
  intro id
  induction id using Nat.strongRecOn with
  | ind id ih =>
    intro hid hlookup
    rw [lookupVariable?, search] at hlookup
    -- the scope has the variable itself, or its parent is asked
    split at hlookup
    · rename_i v' hfound
      cases hlookup
      exact h.variableFits_of_mem (TypeTable.mem_of_lookup_eq_some hfound)
    · split at hlookup
      · rename_i parent hparent
        split at hlookup
        · rename_i hlt
          have hfits := ih parent hlt (by omega) hlookup
          refine ⟨hfits.bounded, hfits.hasSize, ?_, ?_⟩
          · -- only a block passes on the frame of its parent
            intro hv
            obtain ⟨hlocal, hin⟩ := hfits.frame hv
            obtain ⟨hkind, hparent', hle⟩ | ⟨hkind, hparent'⟩ := h.chain id (by omega) hid
            · obtain rfl : parent = id - 1 := Option.some_inj.mp (hparent.symm.trans hparent')
              rw [isGlobal_block hkind hparent hlt]
              exact ⟨hlocal, Nat.le_trans hin hle⟩
            · obtain rfl : parent = 0 := Option.some_inj.mp (hparent.symm.trans hparent')
              rw [h.isGlobal_root] at hlocal
              cases hlocal
          · intro hv
            have hin := hfits.global hv
            obtain ⟨hkind, hparent', hle⟩ | ⟨hkind, hparent'⟩ := h.chain id (by omega) hid
            · obtain rfl : parent = id - 1 := Option.some_inj.mp (hparent.symm.trans hparent')
              rw [isGlobal_block hkind hparent hlt]
              split at hin
              · rw [if_pos ‹_›]
                exact Nat.le_trans hin hle
              · rw [if_neg ‹_›]
                exact hin
            · obtain rfl : parent = 0 := Option.some_inj.mp (hparent.symm.trans hparent')
              rw [h.isGlobal_root, if_pos rfl] at hin
              rw [isGlobal_function hkind]
              exact hin
        · cases hlookup
      · cases hlookup

/-- Functions are found in the global scope. -/
theorem function_mem (h : sc.Sound t) {name : String} {header : FunctionHeader} : ∀ {id : Nat},
    sc.lookupFunction? id name = some header → (name, header) ∈ (sc.get 0).functions := by
  intro id
  induction id using Nat.strongRecOn with
  | ind id ih =>
    intro hlookup
    rw [lookupFunction?, search] at hlookup
    split at hlookup
    · rename_i header' hfound
      cases hlookup
      have hmem := TypeTable.mem_of_lookup_eq_some hfound
      by_cases hid : id = 0
      · rw [hid] at hmem
        exact hmem
      · rw [h.functions id hid] at hmem
        cases hmem
    · split at hlookup
      · split at hlookup
        · exact ih _ ‹_› hlookup
        · cases hlookup
      · cases hlookup

/-- Variables keep their places when more structures are laid out. -/
theorem keep (h : sc.Sound t) (hk : t.Keeps t') : sc.Sound t' := by
  refine ⟨h.nonempty, h.root, h.chain, fun i e he => ?_, h.functions, ?_⟩
  · obtain ⟨hb, hs, hin, hglobal⟩ := h.vars i e he
    rw [hs.words_keep hk]
    exact ⟨hb.mono hk.size_le, (hs.keep hk).1, hin, hglobal⟩
  · rw [h.total]
    refine (TypeTable.Fixed.totalWords_keep hk fun ty hty => ?_).symm
    obtain ⟨e, he, rfl⟩ := List.mem_map.mp hty
    exact (h.vars 0 e he).2.1.fixed

end Sound

/-! ### Operations -/

theorem get_push (sc : ScopeTree) (s : Scope) (i : Nat) :
    ScopeTree.get ⟨sc.scopes.push s⟩ i = if i = sc.scopes.size then s else sc.get i := by
  rw [get, Array.getD_eq_getD_getElem?, Array.getElem?_push]
  split
  · rfl
  · rw [get, Array.getD_eq_getD_getElem?]

theorem get_set {id : Nat} (hid : id < sc.scopes.size) (s : Scope) (i : Nat) :
    ScopeTree.get ⟨sc.scopes.setIfInBounds id s⟩ i = if i = id then s else sc.get i := by
  rw [get, Array.getD_eq_getD_getElem?]
  by_cases hi : i = id
  · subst hi
    rw [if_pos rfl, Array.getElem?_setIfInBounds_self_of_lt hid]
    rfl
  · rw [if_neg hi, Array.getElem?_setIfInBounds_ne (Ne.symm hi), get, Array.getD_eq_getD_getElem?]

/-- A new scope is sound where it continues the chain. -/
theorem Sound.push (h : sc.Sound t) {s : Scope} (hvars : s.vars = []) (hfunctions : s.functions = [])
    (hchain : (s.kind = .block ∧ s.parent = some (sc.scopes.size - 1) ∧
        sc.wordLength (sc.scopes.size - 1) ≤ s.wordLength) ∨
      (s.kind = .function ∧ s.parent = some 0)) : Sound t ⟨sc.scopes.push s⟩ := by
  have hpos := h.nonempty
  have hsize : (sc.scopes.push s).size = sc.scopes.size + 1 := Array.size_push _
  have hold : ∀ {i}, i < sc.scopes.size → ScopeTree.get ⟨sc.scopes.push s⟩ i = sc.get i :=
    fun hi => by rw [get_push, if_neg (Nat.ne_of_lt hi)]
  have hnew : ScopeTree.get ⟨sc.scopes.push s⟩ sc.scopes.size = s := by
    rw [get_push, if_pos rfl]
  have hwords : ∀ {i}, i < sc.scopes.size →
      ScopeTree.wordLength ⟨sc.scopes.push s⟩ i = sc.wordLength i :=
    fun hi => congrArg Scope.wordLength (hold hi)
  constructor
  · show 0 < (sc.scopes.push s).size
    omega
  · rw [hold hpos]
    exact h.root
  · intro i hi hlt
    have hlt : i < (sc.scopes.push s).size := hlt
    by_cases hi' : i = sc.scopes.size
    · -- the new scope, with the one before it as its parent
      subst hi'
      have hself : ScopeTree.wordLength ⟨sc.scopes.push s⟩ sc.scopes.size = s.wordLength :=
        congrArg Scope.wordLength hnew
      rw [hnew, hwords (show sc.scopes.size - 1 < sc.scopes.size by omega), hself]
      exact hchain
    · have hi' : i < sc.scopes.size := by omega
      rw [hold hi', hwords hi', hwords (show i - 1 < sc.scopes.size by omega)]
      exact h.chain i hi hi'
  · intro i e he
    rw [get_push] at he
    split at he
    · rw [hvars] at he
      cases he
    · have hi : i < sc.scopes.size := by
        by_cases hi : i < sc.scopes.size
        · exact hi
        · rw [get_of_size_le (Nat.not_lt.mp hi)] at he
          cases he
      -- whether a variable is global depends on the scopes below it alone
      obtain ⟨hb, hs, hin, hglobal⟩ := h.vars i e he
      rw [hwords hi]
      refine ⟨hb, hs, hin, hglobal.trans (isGlobal_congr fun k hk => ?_).symm⟩
      rw [hold (by omega)]
      exact ⟨rfl, rfl⟩
  · intro i hi
    rw [get_push]
    split
    · exact hfunctions
    · exact h.functions i hi
  · rw [hold hpos, hwords hpos]
    exact h.total

/-- Statements declare variables in the innermost scope and functions in the global one; the scopes
below the innermost are left alone. -/
structure Grown (sc sc' : ScopeTree) : Prop where
  below : sc'.scopes.pop = sc.scopes.pop
  size : sc'.scopes.size = sc.scopes.size
  kind : ∀ i, (sc'.get i).kind = (sc.get i).kind ∧ (sc'.get i).parent = (sc.get i).parent
  words : ∀ i, sc.wordLength i ≤ sc'.wordLength i

namespace Grown

theorem refl (sc : ScopeTree) : sc.Grown sc :=
  ⟨rfl, rfl, fun _ => ⟨rfl, rfl⟩, fun _ => Nat.le_refl _⟩

theorem trans {sc₁ sc₂ sc₃ : ScopeTree} (h₁ : sc₁.Grown sc₂) (h₂ : sc₂.Grown sc₃) :
    sc₁.Grown sc₃ := by
  refine ⟨h₂.below.trans h₁.below, h₂.size.trans h₁.size, fun i => ?_, fun i => ?_⟩
  · exact ⟨(h₂.kind i).1.trans (h₁.kind i).1, (h₂.kind i).2.trans (h₁.kind i).2⟩
  · exact Nat.le_trans (h₁.words i) (h₂.words i)

theorem isGlobal (h : sc.Grown sc') (i : Nat) : sc'.isGlobal i = sc.isGlobal i :=
  isGlobal_congr fun k _ => h.kind k

/-- The scopes below the innermost one are as they were. -/
theorem get_eq (h : sc.Grown sc') {i : Nat} (hi : i + 1 < sc.scopes.size) :
    sc'.get i = sc.get i := by
  have hpop : sc'.scopes.pop[i]? = sc.scopes.pop[i]? := by rw [h.below]
  rw [Array.getElem?_pop, Array.getElem?_pop, h.size, if_pos (by omega), if_pos (by omega)] at hpop
  rw [get, get, Array.getD_eq_getD_getElem?, Array.getD_eq_getD_getElem?, hpop]

end Grown

theorem pop_setIfInBounds_last {α : Type} (xs : Array α) {i : Nat} (hi : i + 1 = xs.size) (x : α) :
    (xs.setIfInBounds i x).pop = xs.pop := by
  apply Array.ext_getElem?
  intro k
  rw [Array.getElem?_pop, Array.getElem?_pop, Array.size_setIfInBounds]
  split
  · rw [Array.getElem?_setIfInBounds_ne (by omega)]
  · rfl

section

variable {id : Nat} {s : Scope} (hid : id + 1 = sc.scopes.size)
  (hkind : s.kind = (sc.get id).kind ∧ s.parent = (sc.get id).parent)
  (hwords : sc.wordLength id ≤ s.wordLength)

include hid hkind hwords

/-- The innermost scope is replaced by one with more in it. -/
theorem grown_set : sc.Grown ⟨sc.scopes.setIfInBounds id s⟩ := by
  have hlt : id < sc.scopes.size := by omega
  have hget := get_set hlt s
  refine ⟨pop_setIfInBounds_last _ hid s, Array.size_setIfInBounds, fun i => ?_, fun i => ?_⟩
  · rw [hget]
    split
    · rename_i hi
      rw [hi]
      exact hkind
    · exact ⟨rfl, rfl⟩
  · rw [wordLength, wordLength, hget]
    split
    · rename_i hi
      rw [hi]
      exact hwords
    · exact Nat.le_refl _

theorem Sound.set (h : sc.Sound t)
    (hvars : ∀ e ∈ s.vars, e.2.ty.Bounded t.structures.size ∧ t.HasSize e.2.ty ∧
      e.2.offset + t.words e.2.ty ≤ s.wordLength ∧ e.2.global = sc.isGlobal id)
    (hfunctions : id ≠ 0 → s.functions = [])
    (htotal : id = 0 → s.wordLength = t.totalWords (s.vars.map fun e => e.2.ty)) :
    Sound t ⟨sc.scopes.setIfInBounds id s⟩ := by
  have hgrown := grown_set hid hkind hwords
  have hlt : id < sc.scopes.size := by omega
  have hget := get_set hlt s
  have hself : ScopeTree.wordLength ⟨sc.scopes.setIfInBounds id s⟩ id = s.wordLength := by
    rw [wordLength, hget, if_pos rfl]
  constructor
  · rw [hgrown.size]
    exact h.nonempty
  · rw [(hgrown.kind 0).1, (hgrown.kind 0).2]
    exact h.root
  · intro i hi hlt
    rw [hgrown.size] at hlt
    rw [(hgrown.kind i).1, (hgrown.kind i).2]
    refine (h.chain i hi hlt).imp_left fun ⟨hblock, hparent, hle⟩ => ⟨hblock, hparent, ?_⟩
    rw [wordLength, hget, if_neg (by omega)]
    exact Nat.le_trans hle (hgrown.words i)
  · intro i e he
    rw [hgrown.isGlobal]
    by_cases hi : i = id
    · rw [hget, if_pos hi] at he
      rw [hi, hself]
      exact hvars e he
    · rw [hget, if_neg hi] at he
      obtain ⟨hb, hs, hin, hglobal⟩ := h.vars i e he
      exact ⟨hb, hs, Nat.le_trans hin (hgrown.words i), hglobal⟩
  · intro i hi
    rw [hget]
    split
    · rename_i heq
      exact hfunctions (heq ▸ hi)
    · exact h.functions i hi
  · by_cases h0 : id = 0
    · subst h0
      rw [hself, hget, if_pos rfl]
      exact htotal rfl
    · rw [wordLength, hget, if_neg (Ne.symm h0)]
      exact h.total

end

/-- A variable that is declared in the innermost scope. -/
theorem Sound.declareVariable (h : sc.Sound t) {id : Nat} (hid : id + 1 = sc.scopes.size)
    {name : String} {ty : Ty} {words : Nat} (hb : ty.Bounded t.structures.size)
    (hwords : t.wordLength ty = .ok words) {v : Variable}
    (hdeclare : sc.declareVariable id name ty words = .ok (v, sc')) :
    sc'.Sound t ∧ sc.Grown sc' ∧ sc'.wordLength id = sc.wordLength id + words ∧
      (sc'.get 0).functions = (sc.get 0).functions := by
  have hlt : id < sc.scopes.size := by omega
  have hty : t.words ty = words := TypeTable.words_of_wordLength hwords
  rw [ScopeTree.declareVariable] at hdeclare
  split at hdeclare
  · cases hdeclare
  · cases hdeclare
    have hle : (sc.get id).wordLength ≤ (sc.get id).wordLength + words := Nat.le_add_right _ _
    refine ⟨h.set hid ⟨rfl, rfl⟩ hle ?_ (h.functions id) ?_, grown_set hid ⟨rfl, rfl⟩ hle, ?_, ?_⟩
    -- the new variable begins where the scope ended
    · intro e he
      cases he with
      | head =>
        refine ⟨hb, TypeTable.hasSize_of_wordLength hwords, ?_, rfl⟩
        exact Nat.add_le_add_left (Nat.le_of_eq hty) _
      | tail _ he =>
        obtain ⟨hb, hs, hin, hglobal⟩ := h.vars id e he
        exact ⟨hb, hs, Nat.le_trans hin hle, hglobal⟩
    · rintro rfl
      show (sc.get 0).wordLength + words = t.words ty + t.totalWords _
      rw [hty, ← h.total, wordLength, Nat.add_comm]
    · rw [wordLength, get_set hlt, if_pos rfl]
      rfl
    · rw [get_set hlt]
      split
      · rename_i heq
        rw [heq]
      · rfl

/-- A function that is declared at the top level. -/
theorem Sound.declareFunction (h : sc.Sound t) {header : FunctionHeader}
    (hone : sc.scopes.size = 1) (hdeclare : sc.declareFunction 0 header = .ok sc') :
    sc'.Sound t ∧ sc.Grown sc' ∧ sc'.wordLength 0 = sc.wordLength 0 ∧
      (sc'.get 0).functions = (header.name, header) :: (sc.get 0).functions := by
  have hid : 0 + 1 = sc.scopes.size := hone.symm
  have hlt : 0 < sc.scopes.size := by omega
  rw [ScopeTree.declareFunction] at hdeclare
  split at hdeclare
  · cases hdeclare
  · cases hdeclare
    refine ⟨h.set hid ⟨rfl, rfl⟩ (Nat.le_refl _) (h.vars 0) (fun hne => absurd rfl hne)
      fun _ => h.total, grown_set hid ⟨rfl, rfl⟩ (Nat.le_refl _), ?_, ?_⟩
    · rw [wordLength, get_set hlt, if_pos rfl]
      rfl
    · rw [get_set hlt, if_pos rfl]

/-! ### Opening and closing -/

theorem Sound.enterBlock (h : sc.Sound t) {id : Nat} (hid : id + 1 = sc.scopes.size) :
    (sc.enter id .block).2.Sound t := by
  obtain rfl : id = sc.scopes.size - 1 := by omega
  exact h.push rfl rfl (.inl ⟨rfl, rfl, Nat.le_refl _⟩)

theorem Sound.enterFunction (h : sc.Sound t) : (sc.enter 0 .function).2.Sound t :=
  h.push rfl rfl (.inr ⟨rfl, rfl⟩)

theorem get_enter (sc : ScopeTree) (parent : Nat) (kind : ScopeKind) {i : Nat}
    (hi : i < sc.scopes.size) : (sc.enter parent kind).2.get i = sc.get i := by
  show ScopeTree.get ⟨sc.scopes.push _⟩ i = _
  rw [get_push, if_neg (Nat.ne_of_lt hi)]

theorem size_enter (sc : ScopeTree) (parent : Nat) (kind : ScopeKind) :
    (sc.enter parent kind).2.scopes.size = sc.scopes.size + 1 :=
  Array.size_push _

theorem get_enter_block (sc : ScopeTree) (parent : Nat) :
    (sc.enter parent .block).2.get sc.scopes.size =
      { parent := some parent, kind := .block, depth := (sc.get parent).depth + 1,
        wordLength := sc.wordLength parent } :=
  (get_push sc _ _).trans (if_pos rfl)

theorem isGlobal_enter_block {parent : Nat} (hlt : parent < sc.scopes.size) :
    (sc.enter parent .block).2.isGlobal sc.scopes.size = sc.isGlobal parent := by
  have hself := sc.get_enter_block parent
  rw [isGlobal_block (congrArg Scope.kind hself) (congrArg Scope.parent hself) hlt]
  refine isGlobal_congr fun k hk => ?_
  rw [sc.get_enter _ _ (by omega)]
  exact ⟨rfl, rfl⟩

/-- The innermost scope of a tree that has grown from a newly opened one. -/
theorem back_of_grown {parent : Nat} {kind : ScopeKind} (h : (sc.enter parent kind).2.Grown sc') :
    sc'.scopes.back? = some (sc'.get sc.scopes.size) := by
  have hsize : sc'.scopes.size = sc.scopes.size + 1 := h.size.trans (size_enter sc parent kind)
  have hlt : sc.scopes.size < sc'.scopes.size := by omega
  have hlast : sc'.scopes.size - 1 = sc.scopes.size := by omega
  rw [Array.back?_eq_getElem?, hlast, get, Array.getD_eq_getD_getElem?,
    Array.getElem?_eq_getElem hlt]
  rfl

theorem pop_of_grown {parent : Nat} {kind : ScopeKind} (h : (sc.enter parent kind).2.Grown sc') :
    (⟨sc'.scopes.pop⟩ : ScopeTree) = sc := by
  rw [h.below]
  exact congrArg ScopeTree.mk Array.pop_push

/-- A scope that is closed after it has grown leaves the scopes as they were before it. -/
theorem exit_of_grown {parent : Nat} {kind : ScopeKind} (h : (sc.enter parent kind).2.Grown sc') :
    sc'.exit.2 = sc := by
  rw [exit, back_of_grown h]
  dsimp only
  split <;> exact pop_of_grown h

/-- What a block has added to the frame when it is closed. -/
theorem exit_block_of_grown {parent : Nat} (h : (sc.enter parent .block).2.Grown sc') :
    sc'.exit.1 = sc'.wordLength sc.scopes.size - sc.wordLength parent := by
  obtain ⟨hkind, hparent⟩ := h.kind sc.scopes.size
  rw [show (sc.enter parent .block).2.get sc.scopes.size = _ from
    (get_push sc _ sc.scopes.size).trans (if_pos rfl)] at hkind hparent
  rw [exit, back_of_grown h]
  dsimp only
  rw [hkind, hparent]
  show _ - ScopeTree.wordLength ⟨sc'.scopes.pop⟩ parent = _
  rw [pop_of_grown h]
  rfl

end WordScript.ScopeTree
