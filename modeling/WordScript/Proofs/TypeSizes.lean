/-
Sizes of types in a growing table.

While a module is compiled, structures are entered, laid out and given methods.
What has been said about the size of a type has to stay true meanwhile, although a
structure that is being laid out has no size yet.

* `TypeTable.words` — the size of a type, also where it is not settled;
* `TypeTable.HasSize` — types that have a size;
* `TypeTable.Le` — a later table, in which the structures of the earlier one are
  as they were;
* `TypeTable.Keeps` — a table with more structures laid out;
* `TypeTable.Reached` — tables that come about by admissible operations;
* `TypeTable.Sound` — such a table, in which fields lie inside their structures and
  numbers stand for structures that are there.

Design notes: a type that mentions only structures of the earlier table keeps its
words in a later one (`TypeTable.Le.words_eq`), and a type that has a size keeps it
when another structure is laid out (`TypeTable.HasSize.keep`).  The first is what
values on the stack rely on, the second what variables and functions rely on.
-/
import Mathlib.Algebra.Ring.Nat
import Mathlib.Logic.Relation
import WordScript.Types.Table

namespace WordScript

namespace Ty

mutual

/-- The structures that a type mentions. -/
def structures : Ty → List Nat
  | structure_ id => [id]
  | span element _ | list element | pointer element | reference element => structures element
  | generic _ arguments => structuresIn arguments
  | _ => []

/-- The structures that some types mention. -/
def structuresIn : List Ty → List Nat
  | [] => []
  | t :: ts => structures t ++ structuresIn ts

end

theorem mem_structuresIn {id : Nat} {ts : List Ty} :
    id ∈ structuresIn ts ↔ ∃ t ∈ ts, id ∈ t.structures := by
  induction ts with
  | nil => simp [structuresIn]
  | cons t ts ih => simp [structuresIn, ih]

/-- Every structure that a type mentions is one of the first `n`. -/
def Bounded (n : Nat) (ty : Ty) : Prop :=
  ∀ id ∈ ty.structures, id < n

theorem Bounded.mono {m n : Nat} {ty : Ty} (h : ty.Bounded m) (hmn : m ≤ n) : ty.Bounded n :=
  fun id hid => Nat.lt_of_lt_of_le (h id hid) hmn

theorem bounded_of_structures_eq_nil {ty : Ty} (h : ty.structures = []) (n : Nat) :
    ty.Bounded n := by
  intro id hid
  rw [h] at hid
  cases hid

@[simp] theorem bounded_void (n : Nat) : Bounded n void :=
  bounded_of_structures_eq_nil rfl n

@[simp] theorem bounded_bool (n : Nat) : Bounded n bool :=
  bounded_of_structures_eq_nil rfl n

@[simp] theorem bounded_int (n : Nat) : Bounded n int :=
  bounded_of_structures_eq_nil rfl n

@[simp] theorem bounded_float (n : Nat) : Bounded n float :=
  bounded_of_structures_eq_nil rfl n

@[simp] theorem bounded_string (n : Nat) : Bounded n string :=
  bounded_of_structures_eq_nil rfl n

@[simp] theorem bounded_placeholder (n : Nat) (index : UInt8) : Bounded n (placeholder index) :=
  bounded_of_structures_eq_nil rfl n

@[simp] theorem bounded_span {n : Nat} {element : Ty} {length : UInt16} :
    Bounded n (span element length) ↔ element.Bounded n :=
  Iff.rfl

@[simp] theorem bounded_list {n : Nat} {element : Ty} :
    Bounded n (list element) ↔ element.Bounded n :=
  Iff.rfl

@[simp] theorem bounded_pointer {n : Nat} {element : Ty} :
    Bounded n (pointer element) ↔ element.Bounded n :=
  Iff.rfl

@[simp] theorem bounded_reference {n : Nat} {element : Ty} :
    Bounded n (reference element) ↔ element.Bounded n :=
  Iff.rfl

@[simp] theorem bounded_structure {n id : Nat} : Bounded n (structure_ id) ↔ id < n := by
  simp [Bounded, structures]

@[simp] theorem bounded_generic {n template : Nat} {arguments : List Ty} :
    Bounded n (generic template arguments) ↔ ∀ t ∈ arguments, t.Bounded n := by
  simp only [Bounded, structures, mem_structuresIn]
  constructor
  · intro h t ht id hid
    exact h id ⟨t, ht, hid⟩
  · rintro h id ⟨t, ht, hid⟩
    exact h t ht id hid

/-- The scalar types mention no structure. -/
theorem bounded_primitive {name : String} {ty : Ty} (h : primitive? name = some ty) (n : Nat) :
    ty.Bounded n := by
  unfold primitive? at h
  split at h <;> cases h <;> exact bounded_of_structures_eq_nil rfl n

mutual

theorem Bounded.substitute {n : Nat} {arguments : List Ty} (ha : ∀ a ∈ arguments, a.Bounded n) :
    ∀ ty : Ty, ty.Bounded n → (ty.substitute arguments).Bounded n
  | .placeholder index, _ => by
    rw [Ty.substitute]
    cases h : arguments[index.toNat]? with
    | none => simp
    | some a => exact ha a (List.mem_of_getElem? h)
  | .span element length, h => by
    rw [Ty.substitute]
    exact Bounded.substitute ha element h
  | .list element, h | .pointer element, h | .reference element, h => by
    rw [Ty.substitute]
    exact Bounded.substitute ha element h
  | .generic template inner, h => by
    rw [Ty.substitute, bounded_generic]
    exact Bounded.substituteAll ha inner (bounded_generic.mp h)
  | .structure_ id, h => by
    rw [Ty.substitute]
    exact h
  | .void, h | .bool, h | .int, h | .float, h | .string, h => by
    rw [Ty.substitute]
    exact h

theorem Bounded.substituteAll {n : Nat} {arguments : List Ty} (ha : ∀ a ∈ arguments, a.Bounded n) :
    ∀ ts : List Ty, (∀ t ∈ ts, t.Bounded n) → ∀ t ∈ Ty.substituteAll arguments ts, t.Bounded n
  | [], _ => by
    rw [Ty.substituteAll]
    exact fun t ht => nomatch ht
  | t :: ts, h => by
    rw [Ty.substituteAll]
    intro u hu
    cases hu with
    | head => exact Bounded.substitute ha t (h t List.mem_cons_self)
    | tail _ hu =>
      exact Bounded.substituteAll ha ts (fun v hv => h v (List.mem_cons_of_mem _ hv)) u hu

end

end Ty

namespace TypeTable

/-- The structure with a number; one that is not there is empty. -/
def at_ (t : TypeTable) (id : Nat) : StructureType :=
  t.structures.getD id default

/-- The size of a type in words, where what has no size counts as its structures do so far. -/
def words (t : TypeTable) : Ty → Nat
  | .void | .placeholder _ | .generic _ _ => 0
  | .bool | .int | .float | .string => 1
  | .list _ | .pointer _ | .reference _ => 1
  | .span element length => t.words element * length.toNat
  | .structure_ id => (t.at_ id).wordLength

/-- A type has a size. -/
def HasSize (t : TypeTable) (ty : Ty) : Prop :=
  t.wordLength ty = .ok (t.words ty)

theorem words_of_wordLength {t : TypeTable} : ∀ {ty : Ty} {n : Nat}, t.wordLength ty = .ok n →
    t.words ty = n
  | .span element length, n, h => by
    rw [wordLength] at h
    split at h
    · cases h
    · rename_i words hwords
      dsimp only at h
      split at h
      · cases h
        rw [TypeTable.words, words_of_wordLength hwords]
      · cases h
  | .structure_ id, n, h => by
    rw [wordLength] at h
    split at h
    · cases h
      rfl
    · cases h
  | .void, _, h | .bool, _, h | .int, _, h | .float, _, h | .string, _, h | .list _, _, h
  | .pointer _, _, h | .reference _, _, h => by
    cases h
    rfl
  | .placeholder _, _, h | .generic _ _, _, h => nomatch h

theorem hasSize_of_wordLength {t : TypeTable} {ty : Ty} {n : Nat} (h : t.wordLength ty = .ok n) :
    t.HasSize ty := by
  rw [HasSize, words_of_wordLength h, h]

@[simp] theorem hasSize_void (t : TypeTable) : t.HasSize .void := rfl

@[simp] theorem hasSize_reference (t : TypeTable) (ty : Ty) : t.HasSize (.reference ty) := rfl

/-- A structure that has a size is complete. -/
theorem complete_of_hasSize {t : TypeTable} {id : Nat} (h : t.HasSize (.structure_ id)) :
    (t.at_ id).complete = true := by
  rw [HasSize, wordLength] at h
  split at h
  · assumption
  · cases h

theorem hasSize_of_complete {t : TypeTable} {id : Nat} (h : (t.at_ id).complete = true) :
    t.HasSize (.structure_ id) := by
  rw [HasSize, wordLength]
  exact if_pos h

/-- The size of a span is that of its elements, as far as it is within the limit. -/
theorem hasSize_span {t : TypeTable} {element : Ty} {length : UInt16} :
    t.HasSize (.span element length) ↔
      t.HasSize element ∧ t.words element * length.toNat < 4294967296 := by
  rw [HasSize, wordLength, words]
  constructor
  · intro h
    split at h
    · cases h
    · rename_i n hn
      have hwords := words_of_wordLength hn
      dsimp only at h
      split at h
      · exact ⟨hasSize_of_wordLength hn, by rwa [hwords]⟩
      · cases h
  · rintro ⟨hsize, hlt⟩
    rw [HasSize] at hsize
    rw [hsize]
    exact if_pos hlt

/-- What the size of a structure depends on. -/
def layoutAt (t : TypeTable) (id : Nat) : List Field × Nat × Bool :=
  ((t.at_ id).fields, (t.at_ id).wordLength, (t.at_ id).complete)

theorem lt_size_of_complete {t : TypeTable} {id : Nat} (h : (t.at_ id).complete = true) :
    id < t.structures.size := by
  by_cases hid : id < t.structures.size
  · exact hid
  · rw [at_, Array.getD_eq_getD_getElem?, Array.getElem?_eq_none (Nat.not_lt.mp hid)] at h
    cases h

/-- More structures; those that were there are laid out as they were. -/
structure Le (t t' : TypeTable) : Prop where
  size_le : t.structures.size ≤ t'.structures.size
  layout : ∀ id < t.structures.size, t'.layoutAt id = t.layoutAt id

/-- A type keeps its words as long as the structures that it mentions are laid out as they were. -/
theorem words_congr {t t' : TypeTable} {n : Nat} (h : ∀ id < n, t'.layoutAt id = t.layoutAt id) :
    ∀ {ty : Ty}, ty.Bounded n → t'.words ty = t.words ty
  | .span element length, hb => by
    have helement : element.Bounded n := hb
    rw [words, words, words_congr h helement]
  | .structure_ id, hb => congrArg (fun l => l.2.1) (h id (Ty.bounded_structure.mp hb))
  | .void, _ | .placeholder _, _ | .generic _ _, _ | .bool, _ | .int, _ | .float, _ | .string, _
  | .list _, _ | .pointer _, _ | .reference _, _ => rfl

/-- Complete structures are laid out as they were. -/
structure Keeps (t t' : TypeTable) : Prop where
  size_le : t.structures.size ≤ t'.structures.size
  layout : ∀ id, (t.at_ id).complete = true → t'.layoutAt id = t.layoutAt id

namespace Le

variable {t t₁ t₂ t₃ t' : TypeTable}

theorem refl (t : TypeTable) : t.Le t :=
  ⟨Nat.le_refl _, fun _ _ => rfl⟩

theorem trans (h₁ : t₁.Le t₂) (h₂ : t₂.Le t₃) : t₁.Le t₃ := by
  refine ⟨Nat.le_trans h₁.size_le h₂.size_le, fun id hid => ?_⟩
  rw [h₂.layout id (Nat.lt_of_lt_of_le hid h₁.size_le), h₁.layout id hid]

theorem keeps (h : t.Le t') : t.Keeps t' :=
  ⟨h.size_le, fun id hid => h.layout id (lt_size_of_complete hid)⟩

theorem wordLength_at (h : t.Le t') {id : Nat} (hid : id < t.structures.size) :
    (t'.at_ id).wordLength = (t.at_ id).wordLength :=
  congrArg (fun l => l.2.1) (h.layout id hid)

theorem words_eq (h : t.Le t') {ty : Ty} (hb : ty.Bounded t.structures.size) :
    t'.words ty = t.words ty :=
  words_congr h.layout hb

theorem bounded (h : t.Le t') {ty : Ty} (hb : ty.Bounded t.structures.size) :
    ty.Bounded t'.structures.size :=
  hb.mono h.size_le

end Le

/-- A type that has a size keeps it when more structures are laid out. -/
theorem HasSize.keep {t t' : TypeTable} (hk : t.Keeps t') : ∀ {ty : Ty}, t.HasSize ty →
    t'.HasSize ty ∧ t'.words ty = t.words ty
  | .span element length, h => by
    obtain ⟨hsize, hlt⟩ := hasSize_span.mp h
    obtain ⟨hsize', hwords⟩ := HasSize.keep hk hsize
    rw [hasSize_span, words, words, hwords]
    exact ⟨⟨hsize', hlt⟩, rfl⟩
  | .structure_ id, h => by
    have hcomplete := complete_of_hasSize h
    have hlayout := hk.layout id hcomplete
    have hcomplete' : (t'.at_ id).complete = true := by
      rw [← hcomplete]
      exact congrArg (fun l => l.2.2) hlayout
    exact ⟨hasSize_of_complete hcomplete', congrArg (fun l => l.2.1) hlayout⟩
  | .void, _ | .bool, _ | .int, _ | .float, _ | .string, _ | .list _, _ | .pointer _, _
  | .reference _, _ => ⟨rfl, rfl⟩
  | .placeholder _, h | .generic _ _, h => nomatch h

theorem HasSize.words_keep {t t' : TypeTable} {ty : Ty} (h : t.HasSize ty) (hk : t.Keeps t') :
    t'.words ty = t.words ty :=
  (h.keep hk).2

theorem wordLength_keep {t t' : TypeTable} (hk : t.Keeps t') {ty : Ty} {n : Nat}
    (h : t.wordLength ty = .ok n) : t'.wordLength ty = .ok n := by
  obtain ⟨hsize, hwords⟩ := (hasSize_of_wordLength h).keep hk
  rwa [HasSize, hwords, words_of_wordLength h] at hsize

/-- The words of a type that rest on complete structures only will not change any more. -/
def Fixed (t : TypeTable) : Ty → Prop
  | .span element _ => t.Fixed element
  | .structure_ id => (t.at_ id).complete = true
  | _ => True

theorem HasSize.fixed {t : TypeTable} : ∀ {ty : Ty}, t.HasSize ty → t.Fixed ty
  | .span element _, h => by
    have helement : t.HasSize element := (hasSize_span.mp h).1
    rw [Fixed]
    exact helement.fixed
  | .structure_ _, h => complete_of_hasSize h
  | .void, _ | .bool, _ | .int, _ | .float, _ | .string, _ | .list _, _ | .pointer _, _
  | .reference _, _ | .placeholder _, _ | .generic _ _, _ => trivial

theorem fixed_of_complete {t : TypeTable} (h : ∀ id < t.structures.size, (t.at_ id).complete = true) :
    ∀ {ty : Ty}, ty.Bounded t.structures.size → t.Fixed ty
  | .span element _, hb => by
    have helement : element.Bounded t.structures.size := hb
    rw [Fixed]
    exact fixed_of_complete h helement
  | .structure_ id, hb => h id (Ty.bounded_structure.mp hb)
  | .void, _ | .bool, _ | .int, _ | .float, _ | .string, _ | .list _, _ | .pointer _, _
  | .reference _, _ | .placeholder _, _ | .generic _ _, _ => trivial

theorem Fixed.keep {t t' : TypeTable} (hk : t.Keeps t') : ∀ {ty : Ty}, t.Fixed ty →
    t'.Fixed ty ∧ t'.words ty = t.words ty
  | .span element length, h => by
    rw [Fixed] at h
    obtain ⟨hfixed, hwords⟩ := Fixed.keep hk h
    rw [words, words, hwords, Fixed]
    exact ⟨hfixed, rfl⟩
  | .structure_ id, h => by
    have hlayout := hk.layout id h
    refine ⟨?_, congrArg (fun l => l.2.1) hlayout⟩
    rw [Fixed, show (t'.at_ id).complete = (t.at_ id).complete from congrArg (fun l => l.2.2) hlayout]
    exact h
  | .void, _ | .bool, _ | .int, _ | .float, _ | .string, _ | .list _, _ | .pointer _, _
  | .reference _, _ | .placeholder _, _ | .generic _ _, _ => ⟨trivial, rfl⟩

/-- The sum of the sizes of some types. -/
def totalWords (t : TypeTable) (tys : List Ty) : Nat :=
  (tys.map t.words).sum

theorem totalWords_congr {t t' : TypeTable} {n : Nat} (h : ∀ id < n, t'.layoutAt id = t.layoutAt id)
    {tys : List Ty} (hb : ∀ ty ∈ tys, ty.Bounded n) : t'.totalWords tys = t.totalWords tys :=
  congrArg List.sum (List.map_congr_left fun ty hty => words_congr h (hb ty hty))

theorem Le.totalWords_eq {t t' : TypeTable} (h : t.Le t') {tys : List Ty}
    (hb : ∀ ty ∈ tys, ty.Bounded t.structures.size) : t'.totalWords tys = t.totalWords tys :=
  totalWords_congr h.layout hb

theorem Fixed.totalWords_keep {t t' : TypeTable} (hk : t.Keeps t') {tys : List Ty}
    (h : ∀ ty ∈ tys, t.Fixed ty) : t'.totalWords tys = t.totalWords tys :=
  congrArg List.sum (List.map_congr_left fun ty hty => ((h ty hty).keep hk).2)

end TypeTable

/-! ### Operations -/

/-- What can be done with the table of types. -/
inductive TypeOperation where
  | addStructure (name : String) (register : Bool)
  | addTemplate (template : StructureTemplate)
  | fillTemplate (id : Nat) (fields : List FieldTemplate) (methods : List Nat)
  | recordInstance (template : Nat) (arguments : List Ty) (id : Nat)
  | setFields (id : Nat) (fields : List (String × Ty))
  | addMethod (id : Nat) (header : FunctionHeader)

namespace TypeTable

/-- Carries out an operation.  A layout that is refused changes nothing. -/
def perform (t : TypeTable) : TypeOperation → TypeTable
  | .addStructure name register => (t.addStructure name register).2
  | .addTemplate template => (t.addTemplate template).2
  | .fillTemplate id fields methods => t.modifyTemplate id fun d => { d with fields, methods }
  | .recordInstance template arguments id => t.recordInstance template arguments id
  | .setFields id fields =>
    match t.setFields id fields with
    | .error _ => t
    | .ok t' => t'
  | .addMethod id header => t.modifyStructure id fun s => { s with methods := s.methods ++ [header] }

/-- Numbers stand for structures that are there, and a structure is laid out once. -/
def Admits (t : TypeTable) : TypeOperation → Prop
  | .setFields id fields => id < t.structures.size ∧
    ((t.at_ id).complete = true → ∀ t', t.setFields id fields ≠ .ok t')
  | .addMethod id _ | .recordInstance _ _ id => id < t.structures.size
  | _ => True

/-- One operation leads from the first table to the second. -/
def Step (t t' : TypeTable) : Prop :=
  ∃ op, t.Admits op ∧ t.perform op = t'

/-- The operations begin with an empty table. -/
def Reached (t : TypeTable) : Prop :=
  Relation.ReflTransGen Step {} t

/-! ### Sound tables -/

/-- The table has been made by operations, numbers stand for structures that are there, and fields
have a size and lie inside their structure.  The structures in `making` may still wait for their
layout. -/
structure Sound (making : Nat → Prop) (t : TypeTable) : Prop where
  names : ∀ e ∈ t.names, ∀ id, e.2 = .structure_ id → id < t.structures.size
  instances : ∀ e ∈ t.instances, e.2 < t.structures.size
  templates : ∀ (k : Nat) (d : StructureTemplate), t.templates[k]? = some d →
    ∀ f ∈ d.fields, f.ty.Bounded t.structures.size
  fields : ∀ id, ∀ f ∈ (t.at_ id).fields, f.ty.Bounded t.structures.size ∧ t.HasSize f.ty ∧
    f.offset + t.words f.ty ≤ (t.at_ id).wordLength
  complete : ∀ id < t.structures.size, (t.at_ id).complete = true ∨ making id
  reached : t.Reached

variable {t : TypeTable} {making : Nat → Prop}

/-- One more operation. -/
theorem Reached.perform {t : TypeTable} (h : t.Reached) (op : TypeOperation) (hop : t.Admits op) :
    (t.perform op).Reached :=
  .tail h ⟨op, hop, rfl⟩

theorem mem_of_lookup_eq_some {α β : Type} [BEq α] [LawfulBEq α] {l : List (α × β)} {a : α} {b : β}
    (h : l.lookup a = some b) : (a, b) ∈ l := by
  obtain ⟨l₁, l₂, rfl, -⟩ := List.lookup_eq_some_iff.mp h
  simp

theorem Sound.lookup_lt (h : t.Sound making) {name : String} {id : Nat}
    (hlookup : t.lookup? name = some (.structure_ id)) : id < t.structures.size :=
  h.names _ (mem_of_lookup_eq_some hlookup) id rfl

theorem Sound.instance_lt (h : t.Sound making) {template id : Nat} {arguments : List Ty}
    (hlookup : t.instance? template arguments = some id) : id < t.structures.size :=
  h.instances _ (mem_of_lookup_eq_some hlookup)

theorem mem_fields_of_field? {id : Nat} {name : String} {f : Field}
    (h : t.field? id name = some f) : f ∈ (t.at_ id).fields := by
  obtain ⟨s, hs, hf⟩ := Option.bind_eq_some_iff.mp h
  have hat : t.at_ id = s := by
    rw [at_, Array.getD_eq_getD_getElem?, show t.structures[id]? = some s from hs]
    rfl
  rw [hat]
  exact List.mem_of_find?_eq_some hf

theorem mem_methods_of_method? {id : Nat} {name : String} {header : FunctionHeader}
    (h : t.method? id name = some header) : header ∈ (t.at_ id).methods := by
  obtain ⟨s, hs, hm⟩ := Option.bind_eq_some_iff.mp h
  have hat : t.at_ id = s := by
    rw [at_, Array.getD_eq_getD_getElem?, show t.structures[id]? = some s from hs]
    rfl
  rw [hat]
  exact List.mem_of_find?_eq_some hm

/-- The fields of a structure that is laid out as it was are where they should be. -/
theorem Sound.fields_of_keeps (h : t.Sound making) {t' : TypeTable} (hk : t.Keeps t') {id : Nat}
    (hlayout : t'.layoutAt id = t.layoutAt id) :
    ∀ f ∈ (t'.at_ id).fields, f.ty.Bounded t'.structures.size ∧ t'.HasSize f.ty ∧
      f.offset + t'.words f.ty ≤ (t'.at_ id).wordLength := by
  intro f hf
  have hfields : (t'.at_ id).fields = (t.at_ id).fields := congrArg (fun l => l.1) hlayout
  have hwords : (t'.at_ id).wordLength = (t.at_ id).wordLength := congrArg (fun l => l.2.1) hlayout
  rw [hfields] at hf
  obtain ⟨hb, hs, hin⟩ := h.fields id f hf
  rw [hs.words_keep hk, hwords]
  exact ⟨hb.mono hk.size_le, (hs.keep hk).1, hin⟩

/-! ### A new structure -/

theorem at_addStructure (t : TypeTable) (name : String) (register : Bool) (id : Nat) :
    (t.addStructure name register).2.at_ id =
      if id = t.structures.size then { name } else t.at_ id := by
  show (t.structures.push _).getD id default = _
  rw [Array.getD_eq_getD_getElem?, Array.getElem?_push]
  split
  · rfl
  · rw [at_, Array.getD_eq_getD_getElem?]

theorem size_addStructure (t : TypeTable) (name : String) (register : Bool) :
    (t.addStructure name register).2.structures.size = t.structures.size + 1 :=
  Array.size_push _

theorem addStructure_le (t : TypeTable) (name : String) (register : Bool) :
    t.Le (t.addStructure name register).2 := by
  refine ⟨by rw [size_addStructure]; omega, fun id hid => ?_⟩
  rw [layoutAt, at_addStructure, if_neg (Nat.ne_of_lt hid), layoutAt]

theorem methods_addStructure (t : TypeTable) (name : String) (register : Bool) (id : Nat) :
    ((t.addStructure name register).2.at_ id).methods = (t.at_ id).methods := by
  rw [at_addStructure]
  split
  · rename_i hid
    rw [hid, at_, Array.getD_eq_getD_getElem?, Array.getElem?_eq_none (Nat.le_refl _)]
    rfl
  · rfl

theorem Sound.addStructure (h : t.Sound making) (name : String) (register : Bool) :
    (t.addStructure name register).2.Sound fun id => id = t.structures.size ∨ making id := by
  have hle := addStructure_le t name register
  have hsize := size_addStructure t name register
  constructor
  · intro e he id hid
    have he : e ∈ if register then (name, .structure_ t.structures.size) :: t.names else t.names :=
      he
    rw [hsize]
    split at he
    · cases he with
      | head =>
        cases hid
        omega
      | tail _ he => exact Nat.lt_succ_of_lt (h.names e he id hid)
    · exact Nat.lt_succ_of_lt (h.names e he id hid)
  · intro e he
    rw [hsize]
    exact Nat.lt_succ_of_lt (h.instances e he)
  · intro k d hd f hf
    exact hle.bounded (h.templates k d hd f hf)
  · intro id
    by_cases hid : id = t.structures.size
    · rw [at_addStructure, if_pos hid]
      exact fun f hf => nomatch hf
    · refine h.fields_of_keeps hle.keeps ?_
      rw [layoutAt, at_addStructure, if_neg hid, layoutAt]
  -- the new structure is the one that is being made
  · intro id hid
    rw [at_addStructure]
    split
    · exact .inr (.inl ‹_›)
    · rw [hsize] at hid
      exact (h.complete id (by omega)).imp_right .inr
  · exact h.reached.perform (.addStructure name register) trivial

theorem recordInstance_le (t : TypeTable) (template : Nat) (arguments : List Ty) (id : Nat) :
    t.Le (t.recordInstance template arguments id) :=
  ⟨Nat.le_refl _, fun _ _ => rfl⟩

theorem Sound.recordInstance (h : t.Sound making) {id : Nat} (hid : id < t.structures.size)
    (template : Nat) (arguments : List Ty) :
    (t.recordInstance template arguments id).Sound making := by
  refine ⟨h.names, fun e he => ?_, h.templates,
    fun _ => h.fields_of_keeps (recordInstance_le t template arguments id).keeps rfl, h.complete,
    h.reached.perform (.recordInstance template arguments id) hid⟩
  cases he with
  | head => exact hid
  | tail _ he => exact h.instances e he

/-! ### A new template -/

theorem addTemplate_le (t : TypeTable) (d : StructureTemplate) : t.Le (t.addTemplate d).2 :=
  ⟨Nat.le_refl _, fun _ _ => rfl⟩

theorem modifyTemplate_le (t : TypeTable) (id : Nat) (f : StructureTemplate → StructureTemplate) :
    t.Le (t.modifyTemplate id f) :=
  ⟨Nat.le_refl _, fun _ _ => rfl⟩

theorem Sound.addTemplate (h : t.Sound making) {d : StructureTemplate} (hd : d.fields = []) :
    (t.addTemplate d).2.Sound making := by
  refine ⟨fun e he id hid => ?_, h.instances, fun k d' hd' f hf => ?_,
    fun _ => h.fields_of_keeps (addTemplate_le t d).keeps rfl, h.complete,
    h.reached.perform (.addTemplate d) trivial⟩
  · have he : e ∈ (d.name, TypeName.template t.templates.size) :: t.names := he
    cases he with
    | head => cases hid
    | tail _ he => exact h.names e he id hid
  · have hd' : (t.templates.push d)[k]? = some d' := hd'
    rw [Array.getElem?_push] at hd'
    split at hd'
    · cases hd'
      rw [hd] at hf
      cases hf
    · exact h.templates k d' hd' f hf

theorem Sound.modifyTemplate (h : t.Sound making) (id : Nat) (fields : List FieldTemplate)
    (methods : List Nat) (hf : ∀ f ∈ fields, f.ty.Bounded t.structures.size) :
    (t.modifyTemplate id fun d => { d with fields, methods }).Sound making := by
  refine ⟨h.names, h.instances, fun k d hd f hmem => ?_,
    fun _ => h.fields_of_keeps (modifyTemplate_le t id _).keeps rfl, h.complete,
    h.reached.perform (.fillTemplate id fields methods) trivial⟩
  have hd : (t.templates.modify id fun d => { d with fields, methods })[k]? = some d := hd
  rw [Array.getElem?_modify] at hd
  split at hd
  · obtain ⟨d₀, -, rfl⟩ := Option.map_eq_some_iff.mp hd
    exact hf f hmem
  · exact h.templates k d hd f hmem

/-! ### Layout and methods -/

theorem at_modifyStructure (t : TypeTable) {id : Nat} (hid : id < t.structures.size)
    (f : StructureType → StructureType) (j : Nat) :
    (t.modifyStructure id f).at_ j = if j = id then f (t.at_ id) else t.at_ j := by
  show (t.structures.modify id f).getD j default = _
  rw [Array.getD_eq_getD_getElem?, Array.getElem?_modify]
  by_cases hj : j = id
  · subst hj
    rw [if_pos rfl, if_pos rfl, at_, Array.getD_eq_getD_getElem?, Array.getElem?_eq_getElem hid]
    rfl
  · rw [if_neg (Ne.symm hj), if_neg hj, at_, Array.getD_eq_getD_getElem?]

theorem size_modifyStructure (t : TypeTable) (id : Nat) (f : StructureType → StructureType) :
    (t.modifyStructure id f).structures.size = t.structures.size :=
  Array.size_modify

/-- Entering a method changes the layout of no structure. -/
theorem layoutAt_addMethod (t : TypeTable) {id : Nat} (hid : id < t.structures.size)
    (header : FunctionHeader) (j : Nat) :
    (t.modifyStructure id fun s => { s with methods := s.methods ++ [header] }).layoutAt j =
      t.layoutAt j := by
  rw [layoutAt, at_modifyStructure t hid, layoutAt]
  split
  · rename_i hj
    rw [hj]
  · rfl

theorem addMethod_le (t : TypeTable) {id : Nat} (hid : id < t.structures.size)
    (header : FunctionHeader) :
    t.Le (t.modifyStructure id fun s => { s with methods := s.methods ++ [header] }) :=
  ⟨Nat.le_of_eq (size_modifyStructure ..).symm, fun j _ => layoutAt_addMethod t hid header j⟩

theorem Sound.addMethod (h : t.Sound making) {id : Nat} (hid : id < t.structures.size)
    (header : FunctionHeader) :
    (t.modifyStructure id fun s => { s with methods := s.methods ++ [header] }).Sound making := by
  have hle := addMethod_le t hid header
  have hsize := size_modifyStructure t id fun s => { s with methods := s.methods ++ [header] }
  have hlayout := layoutAt_addMethod t hid header
  constructor
  · rw [hsize]
    exact h.names
  · rw [hsize]
    exact h.instances
  · rw [hsize]
    exact h.templates
  · exact fun j => h.fields_of_keeps hle.keeps (hlayout j)
  · rw [hsize]
    intro j hj
    have hcomplete := congrArg (fun l => l.2.2) (hlayout j)
    exact (h.complete j hj).imp_left fun hj => hcomplete.trans hj
  · exact h.reached.perform (.addMethod id header) hid

/-- Fields that are laid out follow one another, and each of them has a size. -/
theorem layoutFields_eq_ok {fields : List (String × Ty)} :
    ∀ {offset total : Nat} {laid : List Field}, t.layoutFields offset fields = .ok (laid, total) →
      offset ≤ total ∧ ∀ f ∈ laid, (∃ name, (name, f.ty) ∈ fields) ∧ t.HasSize f.ty ∧
        f.offset + t.words f.ty ≤ total := by
  induction fields with
  | nil =>
    intro offset total laid h
    cases h
    exact ⟨Nat.le_refl _, fun f hf => nomatch hf⟩
  | cons field rest ih =>
    obtain ⟨name, ty⟩ := field
    intro offset total laid h
    rw [layoutFields] at h
    split at h
    · cases h
    · rename_i words hwords
      split at h
      · split at h
        · cases h
        · rename_i laid' total' hrest
          cases h
          obtain ⟨hle, hin⟩ := ih hrest
          -- the first field ends where the rest begins
          refine ⟨by omega, fun f hf => ?_⟩
          cases hf with
          | head =>
            refine ⟨⟨name, List.mem_cons_self⟩, hasSize_of_wordLength hwords, ?_⟩
            rw [words_of_wordLength hwords]
            exact hle
          | tail _ hf =>
            obtain ⟨⟨name', hname'⟩, hsize, hlt⟩ := hin f hf
            exact ⟨⟨name', List.mem_cons_of_mem _ hname'⟩, hsize, hlt⟩
      · cases h

/-- Fields that have been laid out have their names and types. -/
theorem map_layoutFields {fields : List (String × Ty)} {offset total : Nat}
    {laid : List Field} (h : t.layoutFields offset fields = .ok (laid, total)) :
    laid.map (fun f => (f.name, f.ty)) = fields := by
  induction fields generalizing offset laid with
  | nil =>
    cases h
    rfl
  | cons p fields ih =>
    obtain ⟨name, ty⟩ := p
    rw [layoutFields] at h
    split at h
    · cases h
    split at h
    · split at h
      · cases h
      · rename_i hrest
        cases h
        rw [List.map_cons, ih hrest]
    · cases h

theorem setFields_eq_ok {t' : TypeTable} {id : Nat} {fields : List (String × Ty)}
    (h : t.setFields id fields = .ok t') :
    ∃ laid total, t.layoutFields 0 fields = .ok (laid, total) ∧
      t' = t.modifyStructure id fun s =>
        { s with fields := laid, wordLength := total, complete := true } := by
  rw [setFields] at h
  split at h
  · cases h
  · cases h
    exact ⟨_, _, ‹_›, rfl⟩

/-- Laying out a structure changes no other. -/
theorem layoutAt_setFields {t' : TypeTable} {id : Nat} {fields : List (String × Ty)}
    (hid : id < t.structures.size) (h : t.setFields id fields = .ok t') {j : Nat} (hj : j ≠ id) :
    t'.layoutAt j = t.layoutAt j := by
  obtain ⟨laid, total, -, rfl⟩ := setFields_eq_ok h
  rw [layoutAt, at_modifyStructure t hid, if_neg hj, layoutAt]

theorem setFields_keeps {t' : TypeTable} {id : Nat} {fields : List (String × Ty)}
    (hid : id < t.structures.size) (hnew : (t.at_ id).complete = false)
    (h : t.setFields id fields = .ok t') : t.Keeps t' := by
  refine ⟨?_, fun j hj => layoutAt_setFields hid h ?_⟩
  · obtain ⟨laid, total, -, rfl⟩ := setFields_eq_ok h
    exact Nat.le_of_eq (size_modifyStructure ..).symm
  · rintro rfl
    rw [hnew] at hj
    cases hj

theorem size_setFields {t' : TypeTable} {id : Nat} {fields : List (String × Ty)}
    (h : t.setFields id fields = .ok t') : t'.structures.size = t.structures.size := by
  obtain ⟨laid, total, -, rfl⟩ := setFields_eq_ok h
  exact size_modifyStructure t id _

/-- A structure keeps its methods when it is laid out. -/
theorem methods_setFields {t' : TypeTable} {id : Nat} {fields : List (String × Ty)}
    (hid : id < t.structures.size) (h : t.setFields id fields = .ok t') (j : Nat) :
    (t'.at_ j).methods = (t.at_ j).methods := by
  obtain ⟨laid, total, -, rfl⟩ := setFields_eq_ok h
  rw [at_modifyStructure t hid]
  split
  · rename_i hj
    rw [hj]
  · rfl

theorem Sound.setFields {t' : TypeTable} {id : Nat} {fields : List (String × Ty)}
    (hs : t.Sound fun j => j = id ∨ making j) (hid : id < t.structures.size)
    (hnew : (t.at_ id).complete = false)
    (hfields : ∀ f ∈ fields, f.2.Bounded t.structures.size)
    (h : t.setFields id fields = .ok t') : t'.Sound making := by
  have hk := setFields_keeps hid hnew h
  have hsize := size_setFields h
  have hlayout := fun j hj => layoutAt_setFields (j := j) hid h hj
  have hperform : t.perform (.setFields id fields) = t' := by rw [perform, h]
  have hreached := hs.reached.perform (.setFields id fields)
    ⟨hid, fun hcomplete => absurd hcomplete (by rw [hnew]; exact Bool.false_ne_true)⟩
  rw [hperform] at hreached
  obtain ⟨laid, total, hlaid, rfl⟩ := setFields_eq_ok h
  obtain ⟨-, hin⟩ := layoutFields_eq_ok hlaid
  constructor
  · rw [hsize]
    exact hs.names
  · rw [hsize]
    exact hs.instances
  · rw [hsize]
    exact hs.templates
  · intro j
    -- the structure that has been laid out, and all the others
    by_cases hj : j = id
    · intro f hf
      rw [at_modifyStructure t hid, if_pos hj] at hf ⊢
      obtain ⟨⟨name, hmem⟩, hf, hlt⟩ := hin f hf
      rw [hf.words_keep hk, hsize]
      exact ⟨hfields _ hmem, (hf.keep hk).1, hlt⟩
    · exact hs.fields_of_keeps hk (hlayout j hj)
  · intro j hj
    rw [hsize] at hj
    rw [at_modifyStructure t hid]
    split
    · exact .inl rfl
    · exact (hs.complete j hj).imp_right fun h => h.resolve_left ‹_›
  · exact hreached

end TypeTable

end WordScript
