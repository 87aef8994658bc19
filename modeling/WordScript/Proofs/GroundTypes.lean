/-
Types without parameters.

A type is ground if neither a placeholder nor a template that waits for its
arguments occurs in it, at any depth.  While the fields of a template are read,
types are over its parameters: they may mention the placeholders that belong to
them, and a template waits only where one of its arguments mentions a placeholder.
So a type over no parameters at all is ground, and one over some parameters has no
placeholder left once ground types are put in their places.

* `Ty.Ground`, `Ty.Over` — the two kinds of types;
* `Ty.Over.ground` — a type over parameters that mentions none is ground;
* `Ty.Over.substitute` — putting types in the places of the parameters;
* `Compiler.Ground` — states that keep only ground types.

Design notes: a template that waits for ground arguments is itself no ground type
although it mentions no placeholder.  Substitution leaves such types behind, and
only the instances that are made for them are ground.  This is why `Ty.Over` asks
for a placeholder below every template that waits.
-/
import WordScript.Proofs.TemplateInstances

namespace WordScript

namespace Ty

/-- Neither a placeholder nor a template that waits for arguments occurs, at any depth. -/
@[grind] def Ground : Ty → Prop
  | placeholder _ | generic _ _ => False
  | span element _ | list element | pointer element | reference element => Ground element
  | void | bool | int | float | string | structure_ _ => True

mutual

/-- Placeholders belong to the first `k` parameters, and every template that waits for arguments
mentions one. -/
def Over (k : Nat) : Ty → Prop
  | placeholder index => index.toNat < k
  | generic _ arguments => (firstPlaceholderIn? arguments).isSome = true ∧ OverAll k arguments
  | span element _ | list element | pointer element | reference element => Over k element
  | void | bool | int | float | string | structure_ _ => True

/-- All types of a list are over the first `k` parameters. -/
def OverAll (k : Nat) : List Ty → Prop
  | [] => True
  | t :: ts => Over k t ∧ OverAll k ts

end

theorem overAll_iff {k : Nat} {ts : List Ty} : OverAll k ts ↔ ∀ t ∈ ts, t.Over k := by
  induction ts with
  | nil => simp [OverAll]
  | cons t ts ih => simp [OverAll, ih]

theorem over_generic {k template : Nat} {arguments : List Ty} : Over k (generic template arguments) ↔
    arguments.any containsPlaceholder = true ∧ ∀ t ∈ arguments, t.Over k := by
  rw [Over, overAll_iff, firstPlaceholderIn?_eq_findSome?, List.findSome?_isSome_iff]
  simp [containsPlaceholder]

/-! ### The two kinds of types -/

/-- The scalar types are ground. -/
theorem ground_primitive {name : String} {ty : Ty} (h : primitive? name = some ty) : ty.Ground := by
  unfold primitive? at h
  split at h <;> cases h <;> trivial

theorem Ground.over (k : Nat) : ∀ {ty : Ty}, ty.Ground → ty.Over k
  | span element _, h | list element, h | pointer element, h | reference element, h =>
    @Ground.over k element h
  | void, _ | bool, _ | int, _ | float, _ | string, _ | structure_ _, _ => trivial

theorem Ground.containsPlaceholder_eq_false : ∀ {ty : Ty}, ty.Ground →
    ty.containsPlaceholder = false
  | span element _, h | list element, h | pointer element, h | reference element, h =>
    @Ground.containsPlaceholder_eq_false element h
  | void, _ | bool, _ | int, _ | float, _ | string, _ | structure_ _, _ => rfl

/-- No template waits for arguments where no placeholder is mentioned. -/
theorem Over.ground {k : Nat} : ∀ {ty : Ty}, ty.Over k → ty.containsPlaceholder = false → ty.Ground
  | placeholder _, _, h => absurd h (by simp [containsPlaceholder, firstPlaceholder?])
  | generic _ _, hover, h => absurd (hover.1.symm.trans h) Bool.true_eq_false.mp
  | span element _, hover, h | list element, hover, h | pointer element, hover, h
  | reference element, hover, h => @Over.ground k element hover h
  | void, _, _ | bool, _, _ | int, _, _ | float, _, _ | string, _, _ | structure_ _, _, _ => trivial

mutual

theorem Over.firstPlaceholder?_lt {k : Nat} {i : UInt8} : ∀ {ty : Ty}, ty.Over k →
    ty.firstPlaceholder? = some i → i.toNat < k
  | placeholder index, hover, h => by
    obtain rfl : index = i := Option.some.inj h
    exact hover
  | generic _ arguments, hover, h => @OverAll.firstPlaceholderIn?_lt k i arguments hover.2 h
  | span element _, hover, h | list element, hover, h | pointer element, hover, h
  | reference element, hover, h => @Over.firstPlaceholder?_lt k i element hover h

theorem OverAll.firstPlaceholderIn?_lt {k : Nat} {i : UInt8} : ∀ {ts : List Ty}, OverAll k ts →
    firstPlaceholderIn? ts = some i → i.toNat < k
  | t :: ts, hover, h => by
    rw [firstPlaceholderIn?, Option.or_eq_some_iff] at h
    obtain h | ⟨-, h⟩ := h
    · exact Over.firstPlaceholder?_lt hover.1 h
    · exact OverAll.firstPlaceholderIn?_lt hover.2 h

end

/-- Without parameters there is nothing to wait for. -/
theorem over_zero_iff {ty : Ty} : ty.Over 0 ↔ ty.Ground := by
  refine ⟨fun h => h.ground ?_, Ground.over 0⟩
  cases hfirst : ty.firstPlaceholder? with
  | none => simp [containsPlaceholder, hfirst]
  | some i => exact absurd (h.firstPlaceholder?_lt hfirst) (Nat.not_lt_zero _)

/-! ### Putting types in the places of parameters -/

mutual

/-- Ground types in the places of all parameters leave no placeholder. -/
theorem Over.substitute {arguments : List Ty} (hground : ∀ a ∈ arguments, a.Ground) :
    ∀ {ty : Ty}, ty.Over arguments.length → (ty.substitute arguments).containsPlaceholder = false
  | placeholder index, h => by
    rw [Ty.substitute, List.getElem?_eq_getElem h]
    exact (hground _ (List.getElem_mem h)).containsPlaceholder_eq_false
  | generic _ inner, h => by
    rw [Ty.substitute]
    exact @OverAll.substitute arguments hground inner h.2
  | span element _, h | list element, h | pointer element, h | reference element, h => by
    rw [Ty.substitute]
    exact @Over.substitute arguments hground element h
  | void, _ | bool, _ | int, _ | float, _ | string, _ | structure_ _, _ => by
    rw [Ty.substitute]
    rfl

theorem OverAll.substitute {arguments : List Ty} (hground : ∀ a ∈ arguments, a.Ground) :
    ∀ {ts : List Ty}, OverAll arguments.length ts →
      (firstPlaceholderIn? (substituteAll arguments ts)).isSome = false
  | [], _ => rfl
  | t :: ts, h => by
    have ht : (t.substitute arguments).firstPlaceholder?.isSome = false := Over.substitute hground h.1
    rw [substituteAll, firstPlaceholderIn?, Option.isSome_or, ht, OverAll.substitute hground h.2]
    rfl

end

end Ty

/-! ### What is kept -/

/-- The parameters of a function and its result are ground. -/
structure FunctionHeader.Ground (h : FunctionHeader) : Prop where
  parameters : ∀ p ∈ h.parameters, p.ty.Ground
  returns : h.returns.Ground

/-- The fields of a structure and its methods are ground. -/
structure StructureType.Ground (s : StructureType) : Prop where
  fields : ∀ f ∈ s.fields, f.ty.Ground
  methods : ∀ m ∈ s.methods, m.Ground

/-- The variables and functions of a scope are ground. -/
structure Scope.Ground (s : Scope) : Prop where
  vars : ∀ v ∈ s.vars, v.2.ty.Ground
  functions : ∀ f ∈ s.functions, f.2.Ground

/-- Every type that a state keeps is ground: in the variables and functions of all open scopes, in
the fields and methods of all structures, and in the results of the chunks under construction. -/
structure Compiler.Ground (c : Compiler) : Prop where
  scopes : ∀ s ∈ c.scopes.scopes, s.Ground
  structures : ∀ s ∈ c.types.structures, s.Ground
  entry : c.entry.returns.Ground
  nested : ∀ b ∈ c.nested, b.returns.Ground

theorem Scope.ground_default : (default : Scope).Ground :=
  ⟨List.forall_mem_nil _, List.forall_mem_nil _⟩

/-! ### The table -/

namespace TypeTable

variable {t t' : TypeTable}

/-- A ground type may have no size, but not for want of an argument. -/
theorem wordLength_ne_unresolved {i : UInt8} : ∀ {ty : Ty}, ty.Ground →
    t.wordLength ty ≠ .error (.unresolvedPlaceholder i)
  | .span element length, h => by
    have helement := @wordLength_ne_unresolved i element h
    rw [wordLength]
    grind
  | .structure_ id, _ => by
    rw [wordLength]
    grind
  | .list _, _ | .pointer _, _ | .reference _, _ | .void, _ | .bool, _ | .int, _ | .float, _
  | .string, _ => by simp [wordLength]

/-- Neither have structures with ground fields. -/
theorem layoutFields_ne_unresolved {i : UInt8} : ∀ {fields : List (String × Ty)} {offset : Nat},
    (∀ f ∈ fields, f.2.Ground) → t.layoutFields offset fields ≠ .error (.unresolvedPlaceholder i)
  | [], _, _ => by simp [layoutFields]
  | (name, ty) :: rest, offset, h => by
    obtain ⟨hty, hrest⟩ := List.forall_mem_cons.mp h
    have hwords := wordLength_ne_unresolved (t := t) (i := i) hty
    have hfields := fun o => @layoutFields_ne_unresolved i rest o hrest
    rw [layoutFields]
    grind

theorem ground_field? (h : ∀ s ∈ t.structures, s.Ground) {id : Nat} {name : String} {f : Field}
    (hfield : t.field? id name = some f) : f.ty.Ground := by
  obtain ⟨s, hs, hf⟩ := Option.bind_eq_some_iff.mp hfield
  exact (h s (Array.mem_of_getElem? hs)).fields f (List.mem_of_find?_eq_some hf)

theorem ground_method? (h : ∀ s ∈ t.structures, s.Ground) {id : Nat} {name : String}
    {m : FunctionHeader} (hmethod : t.method? id name = some m) : m.Ground := by
  obtain ⟨s, hs, hm⟩ := Option.bind_eq_some_iff.mp hmethod
  exact (h s (Array.mem_of_getElem? hs)).methods m (List.mem_of_find?_eq_some hm)

theorem ground_addStructure (h : ∀ s ∈ t.structures, s.Ground) (name : String) (register : Bool) :
    ∀ s ∈ (t.addStructure name register).2.structures, s.Ground := by
  intro s hs
  obtain hs | rfl := Array.mem_push.mp hs
  · exact h s hs
  · exact ⟨List.forall_mem_nil _, List.forall_mem_nil _⟩

theorem ground_modifyStructure (h : ∀ s ∈ t.structures, s.Ground) {id : Nat}
    {f : StructureType → StructureType} (hf : ∀ s : StructureType, s.Ground → (f s).Ground) :
    ∀ s ∈ (t.modifyStructure id f).structures, s.Ground := by
  intro s hs
  obtain ⟨j, hj⟩ := Array.mem_iff_getElem?.mp hs
  rw [modifyStructure, Array.getElem?_modify] at hj
  split at hj
  · obtain ⟨s', hs', rfl⟩ := Option.map_eq_some_iff.mp hj
    exact hf s' (h s' (Array.mem_of_getElem? hs'))
  · exact h s (Array.mem_of_getElem? hj)

theorem ground_setFields (h : ∀ s ∈ t.structures, s.Ground) {id : Nat}
    {fields : List (String × Ty)} (hfields : ∀ f ∈ fields, f.2.Ground)
    (hset : t.setFields id fields = .ok t') :
    (∀ s ∈ t'.structures, s.Ground) ∧ t'.templates = t.templates := by
  obtain ⟨laid, total, hlaid, rfl⟩ := setFields_eq_ok hset
  have hsame := map_layoutFields hlaid
  refine ⟨ground_modifyStructure h fun s hs => ⟨fun f hf => ?_, hs.methods⟩, rfl⟩
  exact hfields (f.name, f.ty) (hsame ▸ List.mem_map_of_mem hf)

theorem setFields_ne_unresolved {id : Nat} {fields : List (String × Ty)} {i : UInt8}
    (hfields : ∀ f ∈ fields, f.2.Ground) :
    t.setFields id fields ≠ .error (.unresolvedPlaceholder i) := by
  have hlaid := @layoutFields_ne_unresolved t i fields 0 hfields
  rw [setFields]
  grind

/-- The number of parameters of a template. -/
def arity? (t : TypeTable) (template : Nat) : Option Nat :=
  (t.template? template).map fun d => d.placeholders.length

/-- The fields of every template are over its own parameters. -/
def FieldsOver (t : TypeTable) : Prop :=
  ∀ template d, t.template? template = some d → ∀ f ∈ d.fields, f.ty.Over d.placeholders.length

theorem FieldsOver.addTemplate (h : t.FieldsOver) {d : StructureTemplate} (hd : d.fields = []) :
    (t.addTemplate d).2.FieldsOver := by
  intro i d' hd'
  rw [template?_addTemplate] at hd'
  split at hd'
  · obtain rfl := Option.some.inj hd'
    rw [hd]
    exact List.forall_mem_nil _
  · exact h i d' hd'

theorem arity?_addTemplate {d : StructureTemplate} {i n : Nat} (h : t.arity? i = some n) :
    (t.addTemplate d).2.arity? i = some n := by
  obtain ⟨d', hd', rfl⟩ := Option.map_eq_some_iff.mp h
  have hne : i ≠ t.templates.size := by
    rintro rfl
    rw [template?, Array.getElem?_eq_none (Nat.le_refl _)] at hd'
    cases hd'
  rw [arity?, template?_addTemplate, if_neg hne, hd']
  rfl

theorem arity?_addTemplate_self (d : StructureTemplate) :
    (t.addTemplate d).2.arity? t.templates.size = some d.placeholders.length := by
  rw [arity?, template?_addTemplate, if_pos rfl]
  rfl

theorem FieldsOver.modifyTemplate (h : t.FieldsOver) {id k : Nat} {fields : List FieldTemplate}
    {methods : List Nat} (hk : t.arity? id = some k) (hfields : ∀ f ∈ fields, f.ty.Over k) :
    (t.modifyTemplate id fun d => { d with fields, methods }).FieldsOver := by
  intro i d hd
  rw [template?_modifyTemplate] at hd
  split at hd
  · rename_i hi
    obtain ⟨d', hd', rfl⟩ := Option.map_eq_some_iff.mp hd
    obtain rfl : d'.placeholders.length = k := by
      rw [arity?, hi, hd'] at hk
      exact Option.some.inj hk
    exact hfields
  · exact h i d hd

theorem arity?_modifyTemplate (id i : Nat) (fields : List FieldTemplate) (methods : List Nat) :
    (t.modifyTemplate id fun d => { d with fields, methods }).arity? i = t.arity? i := by
  rw [arity?, arity?, template?_modifyTemplate]
  split
  · rw [Option.map_map]
    rfl
  · rfl

end TypeTable

/-! ### The scopes -/

namespace ScopeTree

variable {t t' : ScopeTree}

theorem ground_get (h : ∀ s ∈ t.scopes, s.Ground) (id : Nat) : (t.get id).Ground := by
  rw [get, Array.getD_eq_getD_getElem?]
  cases hget : t.scopes[id]? with
  | none => exact Scope.ground_default
  | some s => exact h s (Array.mem_of_getElem? hget)

/-- What is found stands in one of the scopes. -/
theorem exists_of_search {α : Type} {find : Scope → Option α} {x : α} {id : Nat}
    (h : t.search find id = some x) : ∃ i, find (t.get i) = some x := by
  induction id using Nat.strongRecOn with
  | ind id ih =>
    rw [search] at h
    split at h
    · exact ⟨id, h ▸ ‹_›⟩
    · split at h
      · split at h
        · exact ih _ ‹_› h
        · cases h
      · cases h

theorem ground_lookupVariable? (h : ∀ s ∈ t.scopes, s.Ground) {id : Nat} {name : String}
    {v : Variable} (hlookup : t.lookupVariable? id name = some v) : v.ty.Ground := by
  obtain ⟨i, hi⟩ := exists_of_search hlookup
  exact (ground_get h i).vars _ (TypeTable.mem_of_lookup_eq_some hi)

theorem ground_lookupFunction? (h : ∀ s ∈ t.scopes, s.Ground) {id : Nat} {name : String}
    {f : FunctionHeader} (hlookup : t.lookupFunction? id name = some f) : f.Ground := by
  obtain ⟨i, hi⟩ := exists_of_search hlookup
  exact (ground_get h i).functions _ (TypeTable.mem_of_lookup_eq_some hi)

theorem ground_enter (h : ∀ s ∈ t.scopes, s.Ground) (parent : Nat) (kind : ScopeKind) :
    ∀ s ∈ (t.enter parent kind).2.scopes, s.Ground := by
  intro s hs
  obtain hs | rfl := Array.mem_push.mp hs
  · exact h s hs
  · exact ⟨List.forall_mem_nil _, List.forall_mem_nil _⟩

theorem ground_exit (h : ∀ s ∈ t.scopes, s.Ground) : ∀ s ∈ t.exit.2.scopes, s.Ground := by
  have hpop : ∀ s ∈ t.scopes.pop, s.Ground := by
    intro s hs
    rw [← Array.mem_toList_iff, Array.toList_pop] at hs
    exact h s (Array.mem_toList_iff.mp ((List.dropLast_sublist _).subset hs))
  rw [exit]
  grind

theorem ground_setIfInBounds (h : ∀ s ∈ t.scopes, s.Ground) {id : Nat} {s : Scope} (hs : s.Ground) :
    ∀ s' ∈ t.scopes.setIfInBounds id s, s'.Ground := by
  intro s' hs'
  obtain hs' | rfl := Array.mem_or_eq_of_mem_setIfInBounds hs'
  · exact h s' hs'
  · exact hs

theorem ground_declareVariable (h : ∀ s ∈ t.scopes, s.Ground) {id words : Nat} {name : String}
    {ty : Ty} {v : Variable} (hty : ty.Ground)
    (hdeclare : t.declareVariable id name ty words = .ok (v, t')) :
    v.ty.Ground ∧ ∀ s ∈ t'.scopes, s.Ground := by
  rw [declareVariable] at hdeclare
  have hscope := ground_get h id
  split at hdeclare
  · cases hdeclare
  · cases hdeclare
    exact ⟨hty, ground_setIfInBounds h
      ⟨List.forall_mem_cons.mpr ⟨hty, hscope.vars⟩, hscope.functions⟩⟩

theorem ground_declareFunction (h : ∀ s ∈ t.scopes, s.Ground) {id : Nat} {f : FunctionHeader}
    (hf : f.Ground) (hdeclare : t.declareFunction id f = .ok t') : ∀ s ∈ t'.scopes, s.Ground := by
  rw [declareFunction] at hdeclare
  have hscope := ground_get h id
  split at hdeclare
  · cases hdeclare
  · cases hdeclare
    exact ground_setIfInBounds h
      ⟨hscope.vars, List.forall_mem_cons.mpr ⟨hf, hscope.functions⟩⟩

end ScopeTree

/-! ### The chunks under construction -/

@[grind =] theorem Builder.returns_push (b : Builder) (i : Instruction) :
    (b.push i).returns = b.returns :=
  rfl

@[grind =] theorem Builder.returns_patch (b : Builder) (at_ : Nat) (displacement : Int) :
    (b.patch at_ displacement).returns = b.returns :=
  rfl

@[grind =] theorem Builder.returns_pushConstants (b : Builder) (ws : Array Word) :
    (b.pushConstants ws).returns = b.returns :=
  rfl

namespace Compiler.Ground

variable {c : Compiler}

theorem mapBuilder {f : Builder → Builder} (h : c.Ground) (hf : ∀ b, (f b).returns = b.returns) :
    (c.mapBuilder f).Ground := by
  obtain ⟨types, scopes, entry, nested, chunks, _⟩ := c
  cases nested with
  | nil => exact { h with entry := (hf entry) ▸ h.entry }
  | cons b rest =>
    obtain ⟨hb, hrest⟩ := List.forall_mem_cons.mp h.nested
    exact { h with nested := List.forall_mem_cons.mpr ⟨hf b ▸ hb, hrest⟩ }

theorem returns_builder (h : c.Ground) : c.builder.returns.Ground := by
  rw [builder]
  split
  · exact h.entry
  · exact h.nested _ (by simp [*])

end Compiler.Ground

end WordScript
