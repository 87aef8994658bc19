/-
The layout of frames under any scopes.

Scopes are opened and closed in order, and variables are declared in the innermost one.
A frame may be left unfinished while another is laid out above it, and the words of a
block that has been closed are given to the next one.  Through all of this the variables
of a frame that can be seen tile its words: none of them overlaps another, and no word
between them is lost.

* `Ledger` — the open scopes, with a record of what has been declared in them;
* `Ledger.perform`, `Ledger.Disciplined` — an operation, and what it may be applied to;
* `Ledger.AgreeBelow` — the scopes below one are as they were;
* `Ledger.Laid` — the invariant; `Ledger.Laid.perform` keeps it;
* `frames_tiled` — what holds after any operations.

Design notes: a scope records no sizes, only how many words its frame has so far.  The
record keeps the size of each variable as it was declared, and the invariant ties the two
together one scope at a time: the variables of a frame up to a scope are lined up to the
words of that scope.
-/
import Mathlib.Logic.Relation
import WordScript.Proofs.ScopeFrames
import WordScript.Proofs.Tiling

namespace WordScript

/-- A variable as it was declared: the scope, the name, the words that it takes up, and the entry that
was made for it. -/
structure Declaration where
  scope : Nat
  name : String
  words : Nat
  entry : Variable

/-- The words of a variable in its frame. -/
def Declaration.segment (d : Declaration) : Segment :=
  ⟨d.entry.offset, d.words⟩

/-- What can be done with scopes. -/
inductive ScopeOperation where
  | enter (parent : Nat) (kind : ScopeKind)
  | exit (id : Nat)
  | declareVariable (id : Nat) (name : String) (ty : Ty) (words : Nat)
  | declareFunction (id : Nat) (header : FunctionHeader)

/-- The open scopes, and the variables that have been declared in them, the oldest first. -/
structure Ledger where
  tree : ScopeTree := {}
  declared : List Declaration := []

namespace Ledger

/-- The number of open scopes. -/
def size (s : Ledger) : Nat :=
  s.tree.scopes.size

/-- The variables of a scope. -/
def declaredIn (s : Ledger) (id : Nat) : List Declaration :=
  s.declared.filter fun d => d.scope = id

/-- The variables of all open scopes of the frame that a scope belongs to. -/
def frame (s : Ledger) (id : Nat) : List Declaration :=
  s.declared.filter fun d => s.tree.frameRoot d.scope = s.tree.frameRoot id

/-- The variables of a frame up to a scope of it. -/
def frameUpTo (s : Ledger) (id : Nat) : List Declaration :=
  s.declared.filter fun d => d.scope ≤ id ∧ s.tree.frameRoot d.scope = s.tree.frameRoot id

/-- No open scope above this one belongs to the same frame. -/
def Innermost (s : Ledger) (id : Nat) : Prop :=
  id < s.size ∧ ∀ j, id < j → j < s.size → s.tree.frameRoot j ≠ s.tree.frameRoot id

/-- Carries out an operation.  What is refused changes nothing. -/
def perform (s : Ledger) : ScopeOperation → Ledger
  | .enter parent kind => { s with tree := (s.tree.enter parent kind).2 }
  | .exit id => ⟨s.tree.exit.2, s.declared.filter fun d => d.scope ≠ id⟩
  | .declareVariable id name ty words =>
    match s.tree.declareVariable id name ty words with
    | .error _ => s
    | .ok (entry, tree) => ⟨tree, s.declared ++ [⟨id, name, words, entry⟩]⟩
  | .declareFunction id header =>
    match s.tree.declareFunction id header with
    | .error _ => s
    | .ok tree => { s with tree }

/-- What the compiler does with scopes.  The innermost scope is closed first, and the global one never.
A block is opened in the innermost scope and a function in the global one, variables are declared in
the innermost scope, and the words of a frame can be counted with 32 bits. -/
def Disciplined (s : Ledger) : ScopeOperation → Prop
  | .enter parent .block => parent + 1 = s.size
  | .enter parent .function => parent = ScopeTree.globalScope
  | .enter _ .global => False
  | .exit id => id + 1 = s.size ∧ id ≠ ScopeTree.globalScope
  | .declareVariable id name ty words =>
    id + 1 = s.size ∧ (s.perform (.declareVariable id name ty words)).tree.wordLength id < 4294967296
  | .declareFunction id _ => id < s.size

/-- One operation leads from the first ledger to the second. -/
def Step (s s' : Ledger) : Prop :=
  ∃ op, s.Disciplined op ∧ s.perform op = s'

/-- The operations begin with the global scope alone. -/
def Reached (s : Ledger) : Prop :=
  Relation.ReflTransGen Step {} s

/-- The scope with a number stays open from the first ledger to the second. -/
def WhileOpen (id : Nat) : Ledger → Ledger → Prop :=
  Relation.ReflTransGen fun s s' => Step s s' ∧ id < s'.size

/-! ### What stays as it was -/

/-- The first `n` scopes are as they were, functions apart, and so are the variables declared there. -/
structure AgreeBelow (n : Nat) (s s' : Ledger) : Prop where
  kind : ∀ k < n, (s'.tree.get k).kind = (s.tree.get k).kind
  parent : ∀ k < n, (s'.tree.get k).parent = (s.tree.get k).parent
  vars : ∀ k < n, (s'.tree.get k).vars = (s.tree.get k).vars
  words : ∀ k < n, s'.tree.wordLength k = s.tree.wordLength k
  declared : (s'.declared.filter fun d => d.scope < n) = s.declared.filter fun d => d.scope < n

namespace AgreeBelow

variable {n i : Nat} {s s' s₁ s₂ s₃ : Ledger}

theorem refl (n : Nat) (s : Ledger) : AgreeBelow n s s :=
  ⟨fun _ _ => rfl, fun _ _ => rfl, fun _ _ => rfl, fun _ _ => rfl, rfl⟩

theorem trans (h₁ : AgreeBelow n s₁ s₂) (h₂ : AgreeBelow n s₂ s₃) : AgreeBelow n s₁ s₃ where
  kind := fun k hk => (h₂.kind k hk).trans (h₁.kind k hk)
  parent := fun k hk => (h₂.parent k hk).trans (h₁.parent k hk)
  vars := fun k hk => (h₂.vars k hk).trans (h₁.vars k hk)
  words := fun k hk => (h₂.words k hk).trans (h₁.words k hk)
  declared := h₂.declared.trans h₁.declared

theorem of_get (hget : ∀ k < n, s'.tree.get k = s.tree.get k)
    (hdeclared : (s'.declared.filter fun d => d.scope < n) = s.declared.filter fun d => d.scope < n) :
    AgreeBelow n s s' where
  kind := fun k hk => congrArg Scope.kind (hget k hk)
  parent := fun k hk => congrArg Scope.parent (hget k hk)
  vars := fun k hk => congrArg Scope.vars (hget k hk)
  words := fun k hk => congrArg Scope.wordLength (hget k hk)
  declared := hdeclared

theorem mono {m : Nat} (h : AgreeBelow n s s') (hm : m ≤ n) : AgreeBelow m s s' where
  kind := fun k hk => h.kind k (by omega)
  parent := fun k hk => h.parent k (by omega)
  vars := fun k hk => h.vars k (by omega)
  words := fun k hk => h.words k (by omega)
  declared := by
    have hfilter := congrArg (List.filter fun d => d.scope < m) h.declared
    have hboth : ∀ d : Declaration, (decide (d.scope < m) && decide (d.scope < n)) =
        decide (d.scope < m) := by
      intro d
      rw [← Bool.decide_and, decide_eq_decide]
      omega
    simpa only [List.filter_filter, hboth] using hfilter

theorem frameRoot (h : AgreeBelow n s s') (hi : i < n) :
    s'.tree.frameRoot i = s.tree.frameRoot i :=
  ScopeTree.frameRoot_congr i fun k hk => ⟨h.kind k (by omega), h.parent k (by omega)⟩

theorem isGlobal (h : AgreeBelow n s s') (hi : i < n) :
    s'.tree.isGlobal i = s.tree.isGlobal i :=
  ScopeTree.isGlobal_congr fun k hk => ⟨h.kind k (by omega), h.parent k (by omega)⟩

/-- A name stands for the same variable in a scope that is as it was. -/
theorem lookupVariable? (h : AgreeBelow n s s') (name : String) (hi : i < n) :
    s'.tree.lookupVariable? i name = s.tree.lookupVariable? i name := by
  induction i using Nat.strongRecOn with
  | ind i ih =>
    rw [ScopeTree.lookupVariable?, ScopeTree.lookupVariable?, ScopeTree.search, ScopeTree.search,
      h.vars i hi, h.parent i hi]
    split
    · rfl
    · split
      · rename_i parent hparent
        split
        · rename_i hlt
          exact ih parent hlt (by omega)
        · rfl
      · rfl

theorem mem_iff (h : AgreeBelow n s s') {d : Declaration} (hd : d.scope < n) :
    d ∈ s'.declared ↔ d ∈ s.declared := by
  have hmem : d ∈ (s'.declared.filter fun d => d.scope < n) ↔
      d ∈ s.declared.filter fun d => d.scope < n := by rw [h.declared]
  simpa [List.mem_filter, hd] using hmem

/-- Variables that are looked for among those of the first scopes are found as before. -/
theorem filter_eq (h : AgreeBelow n s s') {p q : Declaration → Bool}
    (hp : ∀ d, p d = true → d.scope < n) (hpq : ∀ d, d.scope < n → q d = p d)
    (hq : ∀ d, q d = true → d.scope < n) : s'.declared.filter q = s.declared.filter p := by
  have hnarrow : ∀ {r : Declaration → Bool} (xs : List Declaration),
      (∀ d, r d = true → d.scope < n) →
        xs.filter r = (xs.filter fun d => d.scope < n).filter r := by
    intro r xs hr
    rw [List.filter_filter]
    refine List.filter_congr fun d _ => ?_
    cases hrd : r d with
    | false => rfl
    | true => simpa using hr d hrd
  rw [hnarrow _ hq, hnarrow s.declared hp, h.declared]
  refine List.filter_congr fun d hd => hpq d ?_
  simpa using (List.mem_filter.mp hd).2

theorem declaredIn (h : AgreeBelow n s s') (hi : i < n) : s'.declaredIn i = s.declaredIn i :=
  h.filter_eq (by grind) (fun _ _ => rfl) (by grind)

theorem frameUpTo (h : AgreeBelow n s s') (hi : i < n) : s'.frameUpTo i = s.frameUpTo i := by
  refine h.filter_eq (by grind) (fun d hd => ?_) (by grind)
  rw [h.frameRoot hd, h.frameRoot hi]

end AgreeBelow

variable {s s' : Ledger} {id n : Nat}

/-! ### Operations -/

theorem enter_agreeBelow (s : Ledger) (parent : Nat) (kind : ScopeKind) :
    AgreeBelow s.size s (s.perform (.enter parent kind)) :=
  .of_get (fun _ hk => s.tree.get_enter parent kind hk) rfl

theorem size_enter (s : Ledger) (parent : Nat) (kind : ScopeKind) :
    (s.perform (.enter parent kind)).size = s.size + 1 :=
  ScopeTree.size_enter s.tree parent kind

/-- Closing a scope drops it. -/
theorem scopes_exit (s : Ledger) (id : Nat) :
    (s.perform (.exit id)).tree.scopes = s.tree.scopes.pop := by
  show s.tree.exit.2.scopes = _
  rw [ScopeTree.exit]
  split
  · rename_i hnone
    rw [Array.back?_eq_none_iff.mp hnone, Array.pop_empty]
  · dsimp only
    split <;> rfl

theorem size_exit (hid : id + 1 = s.size) : (s.perform (.exit id)).size = id := by
  rw [size, scopes_exit, Array.size_pop]
  exact Nat.sub_eq_of_eq_add hid.symm

theorem exit_agreeBelow (hid : id + 1 = s.size) : AgreeBelow id s (s.perform (.exit id)) := by
  refine .of_get (fun k hk => ?_) ?_
  · have hlast : k < s.tree.scopes.size - 1 := by
      rw [size] at hid
      omega
    rw [ScopeTree.get, ScopeTree.get, scopes_exit, Array.getD_eq_getD_getElem?,
      Array.getD_eq_getD_getElem?, Array.getElem?_pop, if_pos hlast]
  · show (s.declared.filter _).filter _ = _
    rw [List.filter_filter]
    refine List.filter_congr fun d _ => ?_
    grind

/-- A declaration that is accepted adds a variable behind those that its scope has so far. -/
theorem declareVariable_eq_ok {name : String} {ty : Ty} {words : Nat} {entry : Variable}
    {tree : ScopeTree} (h : s.tree.declareVariable id name ty words = .ok (entry, tree)) :
    entry = ⟨ty, s.tree.wordLength id, s.tree.isGlobal id⟩ ∧
      tree = ⟨s.tree.scopes.setIfInBounds id { s.tree.get id with
        vars := (name, entry) :: (s.tree.get id).vars
        wordLength := s.tree.wordLength id + words }⟩ := by
  rw [ScopeTree.declareVariable] at h
  split at h
  · cases h
  · cases h
    exact ⟨rfl, rfl⟩

/-- It is refused if the scope has a variable of the name already. -/
theorem declareVariable_eq_error {name : String} {ty : Ty} {words : Nat} {e : Redeclared}
    (h : s.tree.declareVariable id name ty words = .error e) :
    ∃ entry, (name, entry) ∈ (s.tree.get id).vars := by
  rw [ScopeTree.declareVariable] at h
  split at h
  · exact ⟨_, TypeTable.mem_of_lookup_eq_some ‹_›⟩
  · cases h

theorem declareFunction_agreeBelow (s : Ledger) (header : FunctionHeader) (n : Nat)
    (hid : id < s.size) : AgreeBelow n s (s.perform (.declareFunction id header)) := by
  rw [perform]
  cases hdeclare : s.tree.declareFunction id header with
  | error e => exact .refl n s
  | ok tree =>
    rw [ScopeTree.declareFunction] at hdeclare
    split at hdeclare
    · cases hdeclare
    · cases hdeclare
      -- only the functions of one scope are not what they were
      have hkept {α : Type} (f : Scope → α) (hf : ∀ scope functions, f { scope with functions } = f scope)
          (k : Nat) : f (ScopeTree.get ⟨s.tree.scopes.setIfInBounds id { s.tree.get id with
            functions := (header.name, header) :: (s.tree.get id).functions }⟩ k) =
              f (s.tree.get k) := by
        rw [ScopeTree.get_set hid]
        split
        · rename_i hk
          rw [hk]
          exact hf _ _
        · rfl
      exact ⟨fun k _ => hkept Scope.kind (fun _ _ => rfl) k,
        fun k _ => hkept Scope.parent (fun _ _ => rfl) k,
        fun k _ => hkept Scope.vars (fun _ _ => rfl) k,
        fun k _ => hkept Scope.wordLength (fun _ _ => rfl) k, rfl⟩

theorem size_declareFunction (s : Ledger) (id : Nat) (header : FunctionHeader) :
    (s.perform (.declareFunction id header)).size = s.size ∧
      (s.perform (.declareFunction id header)).declared = s.declared := by
  rw [perform]
  cases hdeclare : s.tree.declareFunction id header with
  | error e => exact ⟨rfl, rfl⟩
  | ok tree =>
    rw [ScopeTree.declareFunction] at hdeclare
    split at hdeclare
    · cases hdeclare
    · cases hdeclare
      exact ⟨Array.size_setIfInBounds, rfl⟩

theorem declareVariable_agreeBelow (hid : id + 1 = s.size) (name : String) (ty : Ty)
    (words : Nat) : AgreeBelow id s (s.perform (.declareVariable id name ty words)) ∧
      (s.perform (.declareVariable id name ty words)).size = s.size := by
  rw [perform]
  cases hdeclare : s.tree.declareVariable id name ty words with
  | error e => exact ⟨.refl id s, rfl⟩
  | ok r =>
    obtain ⟨entry, tree⟩ := r
    obtain ⟨-, rfl⟩ := declareVariable_eq_ok hdeclare
    have hlt : id < s.tree.scopes.size := by
      rw [size] at hid
      omega
    refine ⟨.of_get (fun k hk => ?_) ?_, Array.size_setIfInBounds⟩
    · exact (ScopeTree.get_set hlt _ k).trans (if_neg (Nat.ne_of_lt hk))
    · show (s.declared ++ [_]).filter _ = _
      simp [List.filter_append]

/-- What an operation does to the scopes below the one that it is applied to. -/
theorem agreeBelow_of_step (h : s.Step s') (hopen : n < s'.size) : AgreeBelow n s s' := by
  obtain ⟨op, hop, rfl⟩ := h
  cases op with
  | enter parent kind =>
    rw [size_enter] at hopen
    exact (enter_agreeBelow s parent kind).mono (Nat.le_of_lt_succ hopen)
  | exit id =>
    rw [size_exit hop.1] at hopen
    exact (exit_agreeBelow hop.1).mono (Nat.le_of_lt hopen)
  | declareVariable id name ty words =>
    obtain ⟨hagree, hsize⟩ := declareVariable_agreeBelow hop.1 name ty words
    have hid := hop.1
    exact hagree.mono (by omega)
  | declareFunction id header => exact declareFunction_agreeBelow s header n hop

theorem agreeBelow_whileOpen (h : WhileOpen n s s') : AgreeBelow n s s' := by
  induction h with
  | refl => exact .refl n s
  | tail _ hstep ih => exact ih.trans (agreeBelow_of_step hstep.1 hstep.2)

/-! ### The invariant -/

/-- Scopes form a chain, and the variables of a frame are lined up. -/
structure Laid (s : Ledger) : Prop where
  root : 0 < s.size ∧ (s.tree.get 0).kind = .global
  chain : ∀ i, 0 < i → i < s.size →
    ((s.tree.get i).kind = .block ∧ (s.tree.get i).parent = some (i - 1)) ∨
      ((s.tree.get i).kind = .function ∧ (s.tree.get i).parent = some 0)
  held : ∀ i < s.size, (s.tree.get i).vars =
    (s.declaredIn i).reverse.map fun d => (d.name, d.entry)
  known : ∀ d ∈ s.declared, d.scope < s.size ∧ d.entry.global = s.tree.isGlobal d.scope
  lined : ∀ i < s.size, Segment.Lined 0 ((s.frameUpTo i).map Declaration.segment)
    (s.tree.wordLength i)

namespace Laid

/-- What has to be said of the scopes from the last one that is as it was. -/
theorem of_agreeBelow (h : s.Laid) (hagree : AgreeBelow n s s') (hle : n ≤ s.size)
    (hlast : s'.size ≤ n + 1) (hroot : 0 < s'.size ∧ (s'.tree.get 0).kind = .global)
    (hchain : s'.size = n + 1 → 0 < n →
      ((s'.tree.get n).kind = .block ∧ (s'.tree.get n).parent = some (n - 1)) ∨
        ((s'.tree.get n).kind = .function ∧ (s'.tree.get n).parent = some 0))
    (hheld : s'.size = n + 1 → (s'.tree.get n).vars =
      (s'.declaredIn n).reverse.map fun d => (d.name, d.entry))
    (hknown : ∀ d ∈ s'.declared, d.scope < s'.size ∧
      (d.scope < n ∨ d.scope = n ∧ d.entry.global = s'.tree.isGlobal n))
    (hlined : s'.size = n + 1 → Segment.Lined 0 ((s'.frameUpTo n).map Declaration.segment)
      (s'.tree.wordLength n)) : s'.Laid where
  root := hroot
  chain := by
    intro i hi hlt
    by_cases hin : i < n
    · rw [hagree.kind i hin, hagree.parent i hin]
      exact h.chain i hi (by omega)
    · obtain rfl : i = n := by omega
      exact hchain (by omega) hi
  held := by
    intro i hi
    by_cases hin : i < n
    · rw [hagree.vars i hin, hagree.declaredIn hin]
      exact h.held i (by omega)
    · obtain rfl : i = n := by omega
      exact hheld (by omega)
  known := by
    intro d hd
    obtain ⟨hlt, hdn | ⟨rfl, hglobal⟩⟩ := hknown d hd
    · rw [hagree.isGlobal hdn]
      exact ⟨hlt, (h.known d ((hagree.mem_iff hdn).mp hd)).2⟩
    · exact ⟨hlt, hglobal⟩
  lined := by
    intro i hi
    by_cases hin : i < n
    · rw [hagree.frameUpTo hin, hagree.words i hin]
      exact h.lined i (by omega)
    · obtain rfl : i = n := by omega
      exact hlined (by omega)

theorem scope_lt (h : s.Laid) {d : Declaration} (hd : d ∈ s.declared) : d.scope < s.size :=
  (h.known d hd).1

/-- A scope that has just been opened has no variables. -/
theorem declaredIn_size (h : s.Laid) : s.declaredIn s.size = [] := by
  refine List.filter_eq_nil_iff.mpr fun d hd => ?_
  have hlt := h.scope_lt hd
  grind

theorem frameRoot_block (h : s.Laid) {i : Nat} (hkind : (s.tree.get (i + 1)).kind = .block)
    (hi : i + 1 < s.size) : s.tree.frameRoot (i + 1) = s.tree.frameRoot i := by
  obtain ⟨-, hparent⟩ | ⟨hfunction, -⟩ := h.chain (i + 1) (Nat.succ_pos i) hi
  · rw [ScopeTree.frameRoot, hkind, hparent]
    exact if_pos (Nat.lt_succ_self i)
  · rw [hkind] at hfunction
    cases hfunction

/-- A block goes on with the frame of the scope before it. -/
theorem enterBlock (h : s.Laid) {parent : Nat} (hparent : parent + 1 = s.size) :
    (s.perform (.enter parent .block)).Laid := by
  have hagree := enter_agreeBelow s parent .block
  have hsize := size_enter s parent .block
  have hnew : (s.perform (.enter parent .block)).tree.get s.size = _ :=
    s.tree.get_enter_block parent
  have hroot : (s.perform (.enter parent .block)).tree.frameRoot s.size =
      s.tree.frameRoot parent := by
    rw [← hagree.frameRoot (i := parent) (by omega), ScopeTree.frameRoot, hnew]
    exact if_pos (by omega)
  refine h.of_agreeBelow hagree (Nat.le_refl _) (Nat.le_of_eq hsize) ⟨by omega, ?_⟩ (fun _ _ => ?_)
    (fun _ => ?_) (fun d hd => ?_) (fun _ => ?_)
  · exact (hagree.kind 0 h.root.1).trans h.root.2
  · rw [hnew]
    exact .inl ⟨rfl, congrArg some (by omega)⟩
  · rw [hnew]
    show [] = List.map _ (s.declaredIn s.size).reverse
    rw [h.declaredIn_size, List.reverse_nil, List.map_nil]
  · have hlt := h.scope_lt hd
    exact ⟨by omega, .inl hlt⟩
  · -- the line so far is that of the scope before it
    have hsame : (s.perform (.enter parent .block)).frameUpTo s.size = s.frameUpTo parent := by
      refine List.filter_congr fun d hd => ?_
      have hlt := h.scope_lt hd
      rw [hroot, hagree.frameRoot hlt]
      grind
    rw [hsame, ScopeTree.wordLength, hnew]
    exact h.lined parent (by omega)

/-- A function begins a frame. -/
theorem enterFunction (h : s.Laid) : (s.perform (.enter 0 .function)).Laid := by
  have hagree := enter_agreeBelow s 0 .function
  have hsize := size_enter s 0 .function
  have hnew : (s.perform (.enter 0 .function)).tree.get s.size =
      { parent := some 0, kind := .function, depth := (s.tree.get 0).depth + 1 } :=
    (ScopeTree.get_push s.tree _ _).trans (if_pos rfl)
  have hroot : (s.perform (.enter 0 .function)).tree.frameRoot s.size = s.size := by
    rw [ScopeTree.frameRoot, hnew]
  refine h.of_agreeBelow hagree (Nat.le_refl _) (Nat.le_of_eq hsize) ⟨by omega, ?_⟩ (fun _ _ => ?_)
    (fun _ => ?_) (fun d hd => ?_) (fun _ => ?_)
  · exact (hagree.kind 0 h.root.1).trans h.root.2
  · rw [hnew]
    exact .inr ⟨rfl, rfl⟩
  · rw [hnew]
    show [] = List.map _ (s.declaredIn s.size).reverse
    rw [h.declaredIn_size, List.reverse_nil, List.map_nil]
  · have hlt := h.scope_lt hd
    exact ⟨by omega, .inl hlt⟩
  · have hnone : (s.perform (.enter 0 .function)).frameUpTo s.size = [] := by
      refine List.filter_eq_nil_iff.mpr fun d hd => ?_
      have hlt := h.scope_lt hd
      have hle := ScopeTree.frameRoot_le s.tree d.scope
      rw [hroot, hagree.frameRoot hlt]
      grind
    rw [hnone, ScopeTree.wordLength, hnew]
    exact .nil 0

theorem exit (h : s.Laid) (hid : id + 1 = s.size) (hne : id ≠ 0) :
    (s.perform (.exit id)).Laid := by
  have hagree := exit_agreeBelow hid
  have hsize := size_exit hid
  refine h.of_agreeBelow hagree (by omega) (by omega) ⟨by omega, ?_⟩ (fun _ _ => by omega)
    (fun _ => by omega) (fun d hd => ?_) (fun _ => by omega)
  · exact (hagree.kind 0 (Nat.pos_of_ne_zero hne)).trans h.root.2
  · obtain ⟨hd, hscope⟩ := List.mem_filter.mp hd
    have hlt := h.scope_lt hd
    have hscope : d.scope ≠ id := of_decide_eq_true hscope
    exact ⟨by omega, .inl (by omega)⟩

/-- A variable comes behind those that the frame has so far. -/
theorem declareVariable (h : s.Laid) (hid : id + 1 = s.size) (name : String) (ty : Ty)
    (words : Nat) : (s.perform (.declareVariable id name ty words)).Laid := by
  obtain ⟨hagree, hsize⟩ := declareVariable_agreeBelow hid name ty words
  rw [perform] at hagree hsize ⊢
  cases hdeclare : s.tree.declareVariable id name ty words with
  | error e => exact h
  | ok r =>
    obtain ⟨entry, tree⟩ := r
    rw [hdeclare] at hagree hsize
    dsimp only at hagree hsize ⊢
    obtain ⟨hentry, htree⟩ := declareVariable_eq_ok hdeclare
    have hlt : id < s.tree.scopes.size := by rw [size] at hid; omega
    have hnew := ScopeTree.get_set hlt
      { s.tree.get id with
        vars := (name, entry) :: (s.tree.get id).vars
        wordLength := s.tree.wordLength id + words }
    rw [← htree] at hnew
    -- kinds and parents are what they were, and so are the roots of frames
    have hshape (k : Nat) : (tree.get k).kind = (s.tree.get k).kind ∧
        (tree.get k).parent = (s.tree.get k).parent := by
      rw [hnew]
      split
      · rename_i hk
        rw [hk]
        exact ⟨rfl, rfl⟩
      · exact ⟨rfl, rfl⟩
    have hroot (k : Nat) : tree.frameRoot k = s.tree.frameRoot k :=
      ScopeTree.frameRoot_congr k fun k _ => hshape k
    have hid' : id < s.size := by omega
    refine h.of_agreeBelow hagree (Nat.le_of_lt hid') (by omega)
      ⟨by omega, (hshape 0).1.trans h.root.2⟩ (fun _ hpos => ?_) (fun _ => ?_) (fun d hd => ?_)
      (fun _ => ?_)
    · rw [(hshape id).1, (hshape id).2]
      exact h.chain id hpos hid'
    · show (tree.get id).vars = (List.filter _ (s.declared ++ [_])).reverse.map _
      rw [hnew, if_pos rfl, List.filter_append, List.reverse_append, List.map_append, ← declaredIn,
        ← h.held id hid']
      simp
    · have hglobal : tree.isGlobal id = s.tree.isGlobal id :=
        ScopeTree.isGlobal_congr fun k _ => hshape k
      obtain hold | hnewest := List.mem_append.mp hd
      · obtain ⟨hlt, hentered⟩ := h.known d hold
        refine ⟨Nat.lt_of_lt_of_eq hlt hsize.symm, ?_⟩
        obtain hscope | hscope : d.scope < id ∨ d.scope = id := by omega
        · exact .inl hscope
        · rw [hscope, ← hglobal] at hentered
          exact .inr ⟨hscope, hentered⟩
      · obtain rfl := List.mem_singleton.mp hnewest
        refine ⟨Nat.lt_of_lt_of_eq hid' hsize.symm, .inr ⟨rfl, ?_⟩⟩
        rw [hentry]
        exact hglobal.symm
    · -- the variable begins where the line has ended so far
      have hline := (h.lined id hid').concat words
      have hfilter : (Ledger.mk tree (s.declared ++ [⟨id, name, words, entry⟩])).frameUpTo id =
          s.frameUpTo id ++ [⟨id, name, words, entry⟩] := by
        rw [frameUpTo, List.filter_append]
        simp [hroot, frameUpTo]
      rw [hfilter, List.map_append, ScopeTree.wordLength, hnew, if_pos rfl]
      rw [hentry]
      exact hline

theorem declareFunction (h : s.Laid) (hid : id < s.size) (header : FunctionHeader) :
    (s.perform (.declareFunction id header)).Laid := by
  have hagree := declareFunction_agreeBelow s header s.size hid
  obtain ⟨hsize, hdeclared⟩ := size_declareFunction s id header
  refine h.of_agreeBelow hagree (Nat.le_refl _) (by omega)
    ⟨by rw [hsize]; exact h.root.1, (hagree.kind 0 h.root.1).trans h.root.2⟩ (fun _ _ => by omega)
    (fun _ => by omega) (fun d hd => ?_) (fun _ => by omega)
  rw [hdeclared] at hd
  have hlt := h.scope_lt hd
  exact ⟨by omega, .inl hlt⟩

/-- An operation keeps the variables of every frame lined up. -/
theorem perform (h : s.Laid) {op : ScopeOperation} (hop : s.Disciplined op) :
    (s.perform op).Laid := by
  cases op with
  | enter parent kind =>
    cases kind with
    | global => exact hop.elim
    | function =>
      obtain rfl : parent = 0 := hop
      exact h.enterFunction
    | block => exact h.enterBlock hop
  | exit id => exact h.exit hop.1 hop.2
  | declareVariable id name ty words => exact h.declareVariable hop.1 name ty words
  | declareFunction id header => exact h.declareFunction hop header

/-- At the beginning there is the global scope, and no variable. -/
theorem start : Laid {} where
  root := ⟨Nat.zero_lt_one, rfl⟩
  chain := fun i hi hlt => absurd hlt (Nat.not_lt.mpr hi)
  held := fun i hi => by
    obtain rfl : i = 0 := Nat.lt_one_iff.mp hi
    rfl
  known := fun d hd => nomatch hd
  lined := fun i hi => by
    obtain rfl : i = 0 := Nat.lt_one_iff.mp hi
    exact .nil 0

theorem of_reached (h : s.Reached) : s.Laid := by
  induction h with
  | refl => exact start
  | tail _ hstep ih =>
    obtain ⟨op, hop, rfl⟩ := hstep
    exact ih.perform hop

/-! ### What the invariant says of frames -/

/-- The variables of a frame up to its innermost scope are all that it has. -/
theorem frame_eq (h : s.Laid) (hid : s.Innermost id) : s.frame id = s.frameUpTo id := by
  refine List.filter_congr fun d hd => ?_
  have hlt := h.scope_lt hd
  have habove := hid.2 d.scope
  grind

theorem tiles (h : s.Laid) (hid : s.Innermost id) :
    Segment.Tiles ((s.frame id).map Declaration.segment) (s.tree.wordLength id) := by
  rw [h.frame_eq hid]
  exact (h.lined id hid.1).tiles

/-- Only the global scope owns the frame of the global variables. -/
theorem isGlobal_iff (h : s.Laid) (hid : id < s.size) :
    s.tree.isGlobal id = true ↔ s.tree.frameRoot id = ScopeTree.globalScope := by
  have hle := ScopeTree.frameRoot_le s.tree id
  rw [ScopeTree.isGlobal, beq_iff_eq]
  constructor
  · intro hkind
    by_contra hne
    obtain ⟨hblock, -⟩ | ⟨hfunction, -⟩ := h.chain _ (Nat.pos_of_ne_zero hne) (by omega)
    · rw [hkind] at hblock
      cases hblock
    · rw [hkind] at hfunction
      cases hfunction
  · intro hroot
    rw [hroot]
    exact h.root.2

end Laid

/-- The words of some variables, by a split of them into two kinds. -/
theorem sum_words_filter {p q r : Declaration → Bool} : ∀ xs : List Declaration,
    (∀ d ∈ xs, (p d = true ↔ q d = true ∨ r d = true) ∧ ¬ (q d = true ∧ r d = true)) →
      ((xs.filter p).map Declaration.words).sum =
        ((xs.filter q).map Declaration.words).sum + ((xs.filter r).map Declaration.words).sum
  | [], _ => rfl
  | d :: xs, h => by
    obtain ⟨hd, hxs⟩ := List.forall_mem_cons.mp h
    have ih := sum_words_filter xs hxs
    simp only [List.filter_cons]
    grind

namespace Laid

theorem wordLength_eq (h : s.Laid) (hid : id < s.size) :
    s.tree.wordLength id = ((s.frameUpTo id).map Declaration.words).sum := by
  have hend := (h.lined id hid).end_eq
  rw [List.map_map, Nat.zero_add] at hend
  exact hend

/-- Closing a scope gives the words that have been declared in it. -/
theorem exit_words (h : s.Laid) (hid : id + 1 = s.size) (hne : id ≠ 0) :
    s.tree.exit.1 = ((s.declaredIn id).map Declaration.words).sum := by
  have hlt : id < s.size := by omega
  have hlast : s.tree.scopes.back? = some (s.tree.get id) := by
    rw [Array.back?_eq_getElem?, ScopeTree.get, Array.getD_eq_getD_getElem?,
      show s.tree.scopes.size - 1 = id from Nat.sub_eq_of_eq_add hid.symm,
      Array.getElem?_eq_getElem hlt, Option.getD_some]
  have htotal := h.wordLength_eq hlt
  rw [ScopeTree.wordLength] at htotal
  rw [ScopeTree.exit, hlast]
  dsimp only
  obtain ⟨hkind, hparent⟩ | ⟨hkind, hparent⟩ := h.chain id (Nat.pos_of_ne_zero hne) hlt
  · -- a block has the words that its frame has more than up to the scope before it
    have hrest : ScopeTree.wordLength ⟨s.tree.scopes.pop⟩ (id - 1) = s.tree.wordLength (id - 1) := by
      have hwords := (exit_agreeBelow hid).words (id - 1) (by omega)
      rwa [ScopeTree.wordLength, ScopeTree.get, scopes_exit] at hwords
    have hroot : s.tree.frameRoot id = s.tree.frameRoot (id - 1) := by
      obtain ⟨k, rfl⟩ := Nat.exists_eq_succ_of_ne_zero hne
      exact h.frameRoot_block hkind hlt
    have hsplit : ((s.frameUpTo id).map Declaration.words).sum =
        ((s.frameUpTo (id - 1)).map Declaration.words).sum +
          ((s.declaredIn id).map Declaration.words).sum := by
      refine sum_words_filter s.declared fun d hd => ?_
      have hscope := h.scope_lt hd
      grind
    rw [hkind, hparent]
    dsimp only
    rw [hrest, htotal, hsplit, h.wordLength_eq (by omega), Nat.add_sub_cancel_left]
  · -- a function has a frame of its own
    have hroot : s.tree.frameRoot id = id := by
      rw [ScopeTree.frameRoot, hkind]
    have hown : s.frameUpTo id = s.declaredIn id := by
      refine List.filter_congr fun d hd => ?_
      have hle := ScopeTree.frameRoot_le s.tree d.scope
      grind
    rw [hkind, hparent]
    dsimp only
    rw [htotal, hown]

end Laid

end Ledger

open Ledger in
/-- After any operations that keep to the discipline of the compiler, the variables of every open frame
tile the words of its innermost scope, and those of the frame that the global scope owns are the
global ones.  Closing a scope gives the words that were declared in it, and after that every name
stands for what it stood for before the scope was opened.  A declaration that is refused changes
nothing. -/
theorem frames_tiled {s : Ledger} (h : s.Reached) :
    (∀ id < s.size, (s.tree.get id).vars =
      (s.declaredIn id).reverse.map fun d => (d.name, d.entry)) ∧
    (∀ id, s.Innermost id →
      Segment.Tiles ((s.frame id).map Declaration.segment) (s.tree.wordLength id)) ∧
    (∀ d ∈ s.declared, d.entry.global = true ↔
      s.tree.frameRoot d.scope = ScopeTree.globalScope) ∧
    (∀ id, s.Disciplined (.exit id) →
      s.tree.exit.1 = ((s.declaredIn id).map Declaration.words).sum) ∧
    (∀ (parent : Nat) (kind : ScopeKind) (s' : Ledger), s.Disciplined (.enter parent kind) →
      WhileOpen s.size (s.perform (.enter parent kind)) s' → s'.Disciplined (.exit s.size) →
        (s'.perform (.exit s.size)).size = s.size ∧ ∀ id < s.size, ∀ name,
          (s'.perform (.exit s.size)).tree.lookupVariable? id name =
            s.tree.lookupVariable? id name) ∧
    (∀ id < s.size, ∀ (name : String) (ty : Ty) (words : Nat) (e : Redeclared),
      s.tree.declareVariable id name ty words = .error e →
        (∃ d ∈ s.declaredIn id, d.name = name) ∧
          s.perform (.declareVariable id name ty words) = s) ∧
    (∀ (id : Nat) (header : FunctionHeader) (e : Redeclared),
      s.tree.declareFunction id header = .error e →
        s.perform (.declareFunction id header) = s) := by
  have hlaid := Laid.of_reached h
  refine ⟨hlaid.held, fun id => hlaid.tiles, fun d hd => ?_, fun id hid =>
    hlaid.exit_words hid.1 hid.2, fun parent kind s' _ hopen hexit => ?_,
    fun id hid name ty words e he => ⟨?_, ?_⟩, fun id header e he => ?_⟩
  · obtain ⟨hlt, hglobal⟩ := hlaid.known d hd
    rw [hglobal]
    exact hlaid.isGlobal_iff hlt
  · have hagree := (enter_agreeBelow s parent kind).trans
      ((agreeBelow_whileOpen hopen).trans (exit_agreeBelow hexit.1))
    exact ⟨size_exit hexit.1, fun id hid name => hagree.lookupVariable? name hid⟩
  · obtain ⟨entry, hentry⟩ := declareVariable_eq_error he
    rw [hlaid.held id hid, List.mem_map] at hentry
    obtain ⟨d, hd, hname⟩ := hentry
    exact ⟨d, List.mem_reverse.mp hd, congrArg Prod.fst hname⟩
  · rw [perform, he]
  · rw [perform, he]

/-- A block over a global variable, left open while a function is laid out above it. -/
def nestedFrames : Ledger :=
  [.declareVariable 0 "a" .int 3, .enter 0 .block, .declareVariable 1 "b" .float 2,
    .enter 0 .function, .declareVariable 2 "a" .bool 1].foldl Ledger.perform {}

theorem frames_tiled_of_nestedFrames :
    nestedFrames.Reached ∧ nestedFrames.Innermost 1 ∧ nestedFrames.Innermost 2 ∧
      (nestedFrames.frame 1).map Declaration.segment = [⟨0, 3⟩, ⟨3, 2⟩] ∧
      Segment.Tiles ((nestedFrames.frame 1).map Declaration.segment) 5 ∧
      (nestedFrames.frame 2).map Declaration.segment = [⟨0, 1⟩] ∧
      Segment.Tiles ((nestedFrames.frame 2).map Declaration.segment) 1 ∧
      nestedFrames.tree.exit.1 = 1 := by
  have hreached : nestedFrames.Reached := by
    refine .tail (.tail (.tail (.tail (.tail .refl
      ⟨.declareVariable 0 "a" .int 3, ⟨rfl, ?_⟩, rfl⟩) ⟨.enter 0 .block, rfl, rfl⟩)
      ⟨.declareVariable 1 "b" .float 2, ⟨rfl, ?_⟩, rfl⟩) ⟨.enter 0 .function, rfl, rfl⟩)
      ⟨.declareVariable 2 "a" .bool 1, ⟨rfl, ?_⟩, rfl⟩
    all_goals decide +kernel
  have hsize : nestedFrames.size = 3 := by decide +kernel
  have hblock : nestedFrames.Innermost 1 := by
    refine ⟨by omega, fun j hj hlt => ?_⟩
    obtain rfl : j = 2 := by omega
    decide +kernel
  have hfunction : nestedFrames.Innermost 2 := ⟨by omega, fun j hj hlt => by omega⟩
  obtain ⟨-, htiles, -, hexit, -⟩ := frames_tiled hreached
  have hfive : nestedFrames.tree.wordLength 1 = 5 := by decide +kernel
  have hone : nestedFrames.tree.wordLength 2 = 1 := by decide +kernel
  refine ⟨hreached, hblock, hfunction, by decide +kernel, hfive ▸ htiles 1 hblock,
    by decide +kernel, hone ▸ htiles 2 hfunction, ?_⟩
  rw [hexit 2 ⟨hsize.symm, by decide⟩]
  decide +kernel

end WordScript
