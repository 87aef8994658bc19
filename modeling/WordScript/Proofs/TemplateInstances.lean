/-
Instances of templates.

The instance of a template for some arguments is made where it is first mentioned,
and every later mention finds it in the table.  Here it is said what an instance
owes to its template, and how the table grows while instances are made.

* `TypeTable.resolved?` — a type in which the instances of a table stand for the
  templates that waited for their arguments;
* `TypeTable.Faithful` — a structure with the members that a template declares;
* `TypeTable.Made` — how an instance stands once it has been made;
* `TypeTable.Later` — a later table, in which nothing that was there has changed
  and every new instance has been made;
* `TypeTable.Making` — the table while one structure is being made.

Design notes: an instance is recorded before its members are known, so that they
may mention it.  Whatever is read meanwhile leads to a later table and leaves the
structure alone (`TypeTable.Making.later`); the maker itself changes nothing else
(`TypeTable.Making.modify`).  A template is entered before its members are read,
too.  An instance that is made in between finds no members to take over, and
`TypeTable.later_of_template` is where it falls behind its template.
-/
import Mathlib.Data.List.Forall2
import WordScript.Compiler.Module
import WordScript.Proofs.TypeSizes

namespace WordScript

namespace TypeTable

mutual

/-- The type with the instances of the table in the place of templates with arguments.  There is
none if an instance is missing or a placeholder is left. -/
def resolved? (t : TypeTable) : Ty → Option Ty
  | .generic template arguments =>
    (resolvedAll? t arguments).bind fun arguments =>
      (t.instance? template arguments).map .structure_
  | .span element length => (resolved? t element).map (.span · length)
  | .list element => (resolved? t element).map .list
  | .pointer element => (resolved? t element).map .pointer
  | .reference element => (resolved? t element).map .reference
  | .placeholder _ => none
  | .void => some .void
  | .bool => some .bool
  | .int => some .int
  | .float => some .float
  | .string => some .string
  | .structure_ id => some (.structure_ id)

/-- The types with instances in the place of templates with arguments. -/
def resolvedAll? (t : TypeTable) : List Ty → Option (List Ty)
  | [] => some []
  | ty :: tys => (resolved? t ty).bind fun ty => (resolvedAll? t tys).map (ty :: ·)

end

/-- The type mentions an instance of a template. -/
def Mentions (t : TypeTable) (ty : Ty) : Prop :=
  ∃ id ∈ ty.structures, ∃ template arguments, t.instance? template arguments = some id

/-- What a name or a template with arguments stands for in the first table, it stands for in the
second. -/
structure Within (t t' : TypeTable) : Prop where
  names : ∀ {name x}, t.lookup? name = some x → t'.lookup? name = some x
  instances : ∀ {template arguments id}, t.instance? template arguments = some id →
    t'.instance? template arguments = some id

/-- The header of the method at a place of a template's declaration, in the instance `id` for some
arguments.  It bears the name that is written there, and the rest of it is the signature as it is
read there with the arguments for the type parameters. -/
def Declares (t : TypeTable) (d : StructureTemplate) (arguments : List Ty) (id at_ : Nat)
    (header : FunctionHeader) : Prop :=
  (d.tokens[at_ + 1]?).map Token.lexeme = some header.name ∧
    ∃ (fuel : Nat) (c c' : Compiler) (s : Signature) (chunk : UInt16),
      c.tokens = d.tokens ∧ c.cursor = at_ ∧
      c.bindings.head? = some (d.placeholders.zip arguments) ∧
      Function.signature (productions fuel) c = .ok (s, c') ∧ c'.types.Within t ∧
      header = s.header (.script chunk) (some id)

/-- The structure `id` has the members that the template declares, in their order: the fields with
the arguments for the placeholders and with instances for templates, and the methods. -/
structure Faithful (t : TypeTable) (d : StructureTemplate) (arguments : List Ty) (id : Nat)
    (s : StructureType) : Prop where
  fields : List.Forall₂ (fun (f : FieldTemplate) (f' : Field) =>
    f'.name = f.name ∧ t.resolved? (f.ty.substitute arguments) = some f'.ty) d.fields s.fields
  methods : List.Forall₂ (t.Declares d arguments id) d.methods s.methods

/-- How the instance of an entry stands once it has been made.  It is complete, and it has the
members of its template or none at all.  The latter only happens if a field of the template mentions
an instance. -/
def Made (t : TypeTable) (e : (Nat × List Ty) × Nat) : Prop :=
  ∃ d s, t.template? e.1.1 = some d ∧ t.structure? e.2 = some s ∧ s.complete = true ∧
    (t.Faithful d e.1.2 e.2 s ∨
      (s.fields = [] ∧ s.methods = []) ∧ ∃ f ∈ d.fields, t.Mentions f.ty)

/-- A later table: what was there is as it was, and every instance since then has been made. -/
structure Later (t t' : TypeTable) : Prop extends t.Within t' where
  structures : ∀ {id s}, t.structure? id = some s → t'.structure? id = some s
  templates : ∀ {template d}, t.template? template = some d → t'.template? template = some d
  made : ∀ e ∈ t'.instances, e ∈ t.instances ∨ t.structures.size ≤ e.2 ∧ t'.Made e

/-- A table since `t₀`, while the first structure after those of `t₀` is being made.  It stands as
`s` so far, and the entries `own` are recorded for it. -/
structure Making (t₀ : TypeTable) (own : List ((Nat × List Ty) × Nat)) (s : StructureType)
    (t : TypeTable) : Prop extends t₀.Within t where
  structures : ∀ {id s'}, t₀.structure? id = some s' → t.structure? id = some s'
  templates : ∀ {template d}, t₀.template? template = some d → t.template? template = some d
  made : ∀ e ∈ t.instances, e ∈ t₀.instances ∨ e ∈ own ∨ t₀.structures.size < e.2 ∧ t.Made e
  current : t.structure? t₀.structures.size = some s

variable {t t' t₀ t₁ t₂ t₃ : TypeTable} {d : StructureTemplate} {s : StructureType}

/-! ### What is kept -/

namespace Within

theorem refl (t : TypeTable) : t.Within t :=
  ⟨fun h => h, fun h => h⟩

theorem trans (h₁ : t₁.Within t₂) (h₂ : t₂.Within t₃) : t₁.Within t₃ :=
  ⟨fun h => h₂.names (h₁.names h), fun h => h₂.instances (h₁.instances h)⟩

theorem of_eq (hnames : t'.names = t.names) (hinstances : t'.instances = t.instances) :
    t.Within t' := by
  constructor
  · intro name x h
    rwa [lookup?, hnames]
  · intro template arguments id h
    rwa [instance?, hinstances]

theorem mentions (h : t.Within t') {ty : Ty} (hty : t.Mentions ty) : t'.Mentions ty := by
  obtain ⟨id, hid, template, arguments, hinstance⟩ := hty
  exact ⟨id, hid, template, arguments, h.instances hinstance⟩

theorem declares (h : t.Within t') {arguments : List Ty} {id at_ : Nat} {header : FunctionHeader}
    (hd : t.Declares d arguments id at_ header) : t'.Declares d arguments id at_ header := by
  obtain ⟨hname, fuel, c, c', s, chunk, htokens, hcursor, hbindings, hsignature, hwithin, rfl⟩ := hd
  exact ⟨hname, fuel, c, c', s, chunk, htokens, hcursor, hbindings, hsignature,
    hwithin.trans h, rfl⟩

mutual

theorem resolved? (h : t.Within t') :
    ∀ (ty : Ty) {ty' : Ty}, t.resolved? ty = some ty' → t'.resolved? ty = some ty'
  | .generic template arguments, ty', hty => by
    rw [TypeTable.resolved?] at hty ⊢
    obtain ⟨arguments', harguments, hty⟩ := Option.bind_eq_some_iff.mp hty
    obtain ⟨id, hid, rfl⟩ := Option.map_eq_some_iff.mp hty
    rw [resolvedAll? h arguments harguments, Option.bind_some, h.instances hid, Option.map_some]
  | .span element _, ty', hty | .list element, ty', hty | .pointer element, ty', hty
  | .reference element, ty', hty => by
    rw [TypeTable.resolved?] at hty ⊢
    obtain ⟨element', helement, rfl⟩ := Option.map_eq_some_iff.mp hty
    rw [resolved? h element helement, Option.map_some]
  | .placeholder _, ty', hty => by
    rw [TypeTable.resolved?] at hty
    cases hty
  | .void, ty', hty | .bool, ty', hty | .int, ty', hty | .float, ty', hty | .string, ty', hty
  | .structure_ _, ty', hty => by
    rw [TypeTable.resolved?] at hty ⊢
    exact hty

theorem resolvedAll? (h : t.Within t') : ∀ (tys : List Ty) {tys' : List Ty},
    t.resolvedAll? tys = some tys' → t'.resolvedAll? tys = some tys'
  | [], tys', htys => by
    rw [TypeTable.resolvedAll?] at htys ⊢
    exact htys
  | ty :: tys, tys', htys => by
    rw [TypeTable.resolvedAll?] at htys ⊢
    obtain ⟨ty', hty, htys⟩ := Option.bind_eq_some_iff.mp htys
    obtain ⟨rest, hrest, rfl⟩ := Option.map_eq_some_iff.mp htys
    rw [resolved? h ty hty, Option.bind_some, resolvedAll? h tys hrest, Option.map_some]

end

end Within

theorem Faithful.mono {arguments : List Ty} {id : Nat} (h : t.Faithful d arguments id s)
    (hwithin : t.Within t') : t'.Faithful d arguments id s := by
  constructor
  · refine h.fields.imp ?_
    rintro f f' ⟨hname, hty⟩
    exact ⟨hname, hwithin.resolved? _ hty⟩
  · exact h.methods.imp fun _ _ => hwithin.declares

/-- An instance stands as it did as long as its structure and its template do. -/
theorem Made.mono {e : (Nat × List Ty) × Nat} (h : t.Made e) (hwithin : t.Within t')
    (hstructure : ∀ {s}, t.structure? e.2 = some s → t'.structure? e.2 = some s)
    (htemplate : ∀ {d}, t.template? e.1.1 = some d → t'.template? e.1.1 = some d) : t'.Made e := by
  obtain ⟨d, s, hd, hs, hcomplete, hmembers⟩ := h
  refine ⟨d, s, htemplate hd, hstructure hs, hcomplete, ?_⟩
  obtain hfaithful | ⟨hnone, f, hf, hmentions⟩ := hmembers
  · exact .inl (hfaithful.mono hwithin)
  · exact .inr ⟨hnone, f, hf, hwithin.mentions hmentions⟩

/-- The number of structures does not go down as long as the structures stay. -/
theorem size_le_of_structures
    (h : ∀ {id s}, t.structure? id = some s → t'.structure? id = some s) :
    t.structures.size ≤ t'.structures.size := by
  by_contra hlt
  have hlast := h (Array.getElem?_eq_getElem (Nat.not_le.mp hlt))
  rw [structure?, Array.getElem?_eq_none (Nat.le_refl _)] at hlast
  cases hlast

namespace Later

theorem refl (t : TypeTable) : t.Later t :=
  { Within.refl t with
    structures := fun h => h
    templates := fun h => h
    made := fun _ he => .inl he }

theorem size_le (h : t.Later t') : t.structures.size ≤ t'.structures.size :=
  size_le_of_structures h.structures

theorem trans (h₁ : t₁.Later t₂) (h₂ : t₂.Later t₃) : t₁.Later t₃ := by
  refine { h₁.toWithin.trans h₂.toWithin with
    structures := fun h => h₂.structures (h₁.structures h)
    templates := fun h => h₂.templates (h₁.templates h)
    made := fun e he => ?_ }
  -- An instance that was made on the first stretch stands as it did on the second.
  obtain he | ⟨hsize, hmade⟩ := h₂.made e he
  · obtain he | ⟨hsize, hmade⟩ := h₁.made e he
    · exact .inl he
    · exact .inr ⟨hsize, hmade.mono h₂.toWithin h₂.structures h₂.templates⟩
  · exact .inr ⟨Nat.le_trans h₁.size_le hsize, hmade⟩

end Later

/-! ### One structure being made -/

theorem structure?_modifyStructure (t : TypeTable) (id j : Nat)
    (f : StructureType → StructureType) : (t.modifyStructure id f).structure? j =
      if id = j then (t.structure? j).map f else t.structure? j := by
  rw [structure?, modifyStructure, Array.getElem?_modify]
  rfl

theorem structure?_addStructure (t : TypeTable) (name : String) (register : Bool) (id : Nat) :
    (t.addStructure name register).2.structure? id =
      if id = t.structures.size then some { name } else t.structure? id :=
  Array.getElem?_push

/-- The structures that are there come before the next one. -/
theorem ne_size_of_structure? {id : Nat} (h : t.structure? id = some s) :
    id ≠ t.structures.size := by
  rintro rfl
  rw [structure?, Array.getElem?_eq_none (Nat.le_refl _)] at h
  cases h

/-- A name or key that has just been entered does not hide one that was there. -/
theorem lookup_cons_of_eq_none {α β : Type} [BEq α] [LawfulBEq α] {l : List (α × β)} {a a' : α}
    {b b' : β} (hnone : l.lookup a = none) (h : l.lookup a' = some b') :
    ((a, b) :: l).lookup a' = some b' := by
  have hne : (a' == a) = false := by
    refine beq_eq_false_iff_ne.mpr ?_
    rintro rfl
    rw [hnone] at h
    cases h
  rw [List.lookup_cons, hne]
  exact h

namespace Making

variable {own : List ((Nat × List Ty) × Nat)}

/-- A structure of its own has been entered. -/
theorem of_structure {name : String} (hname : t₀.lookup? name = none) :
    t₀.Making [] { name } (t₀.addStructure name true).2 where
  names := lookup_cons_of_eq_none hname
  instances := fun h => h
  structures := by
    intro id s' h
    rw [structure?_addStructure, if_neg (ne_size_of_structure? h)]
    exact h
  templates := fun h => h
  made := fun _ he => .inl he
  current := by rw [structure?_addStructure, if_pos rfl]

/-- The structure of an instance has been entered and recorded. -/
theorem of_instance {template : Nat} {arguments : List Ty} (name : String)
    (hnone : t₀.instance? template arguments = none) :
    t₀.Making [((template, arguments), t₀.structures.size)] { name }
      ((t₀.addStructure name false).2.recordInstance template arguments t₀.structures.size) where
  names := fun h => h
  instances := lookup_cons_of_eq_none hnone
  structures := by
    intro id s' h
    show (t₀.addStructure name false).2.structure? id = some s'
    rw [structure?_addStructure, if_neg (ne_size_of_structure? h)]
    exact h
  templates := fun h => h
  made := by
    intro e he
    cases he with
    | head => exact .inr (.inl List.mem_cons_self)
    | tail _ he => exact .inl he
  current := by
    show (t₀.addStructure name false).2.structure? t₀.structures.size = some { name }
    rw [structure?_addStructure, if_pos rfl]

/-- What is read meanwhile leaves the structure alone. -/
theorem later (h : t₀.Making own s t) (hlater : t.Later t') : t₀.Making own s t' := by
  refine { h.toWithin.trans hlater.toWithin with
    structures := fun hs => hlater.structures (h.structures hs)
    templates := fun hd => hlater.templates (h.templates hd)
    made := fun e he => ?_
    current := hlater.structures h.current }
  obtain he | ⟨hsize, hmade⟩ := hlater.made e he
  · obtain he | hown | ⟨hlt, hmade⟩ := h.made e he
    · exact .inl he
    · exact .inr (.inl hown)
    · exact .inr (.inr ⟨hlt, hmade.mono hlater.toWithin hlater.structures hlater.templates⟩)
  · -- A new instance comes after the structure, which has a place already.
    have hlt : t₀.structures.size < t.structures.size := by
      by_contra hle
      have hcurrent := h.current
      rw [structure?, Array.getElem?_eq_none (Nat.not_lt.mp hle)] at hcurrent
      cases hcurrent
    exact .inr (.inr ⟨Nat.lt_of_lt_of_le hlt hsize, hmade⟩)

/-- The maker changes the structure. -/
theorem modify (h : t₀.Making own s t) (f : StructureType → StructureType) :
    t₀.Making own (f s) (t.modifyStructure t₀.structures.size f) := by
  have hother {id : Nat} {s' : StructureType} (hne : t₀.structures.size ≠ id)
      (hs : t.structure? id = some s') :
      (t.modifyStructure t₀.structures.size f).structure? id = some s' := by
    rw [structure?_modifyStructure, if_neg hne, hs]
  refine { h.toWithin.trans (Within.of_eq rfl rfl) with
    structures := fun hs => hother (ne_size_of_structure? hs).symm (h.structures hs)
    templates := fun hd => h.templates hd
    made := fun e he => ?_
    current := by rw [structure?_modifyStructure, if_pos rfl, h.current, Option.map_some] }
  obtain he | hown | ⟨hlt, hmade⟩ := h.made e he
  · exact .inl he
  · exact .inr (.inl hown)
  · exact .inr (.inr ⟨hlt, hmade.mono (.of_eq rfl rfl) (hother (Nat.ne_of_lt hlt)) fun hd => hd⟩)

/-- The structure is finished. -/
theorem finish (h : t₀.Making own s t) (hsize : ∀ e ∈ own, t₀.structures.size ≤ e.2)
    (hmade : ∀ e ∈ own, t.Made e) : t₀.Later t := by
  refine { h.toWithin with
    structures := h.structures
    templates := h.templates
    made := fun e he => ?_ }
  obtain he | hown | ⟨hlt, hmade⟩ := h.made e he
  · exact .inl he
  · exact .inr ⟨hsize e hown, hmade e hown⟩
  · exact .inr ⟨Nat.le_of_lt hlt, hmade⟩

end Making

/-! ### A template being read -/

theorem template?_addTemplate (t : TypeTable) (d : StructureTemplate) (template : Nat) :
    (t.addTemplate d).2.template? template =
      if template = t.templates.size then some d else t.template? template :=
  Array.getElem?_push

theorem template?_modifyTemplate (t : TypeTable) (id template : Nat)
    (f : StructureTemplate → StructureTemplate) : (t.modifyTemplate id f).template? template =
      if id = template then (t.template? template).map f else t.template? template := by
  rw [template?, modifyTemplate, Array.getElem?_modify]
  rfl

/-- A template without members has instances without members. -/
theorem Made.bare {e : (Nat × List Ty) × Nat} (h : t.Made e) (hd : t.template? e.1.1 = some d)
    (hfields : d.fields = []) (hmethods : d.methods = []) :
    ∃ s, t.structure? e.2 = some s ∧ s.complete = true ∧ s.fields = [] ∧ s.methods = [] := by
  obtain ⟨d', s, hd', hs, hcomplete, hmembers⟩ := h
  obtain rfl : d' = d := Option.some.inj (hd'.symm.trans hd)
  refine ⟨s, hs, hcomplete, ?_⟩
  obtain hfaithful | ⟨hnone, f, hf, -⟩ := hmembers
  · have hfields' := hfaithful.fields
    have hmethods' := hfaithful.methods
    rw [hfields, List.forall₂_nil_left_iff] at hfields'
    rw [hmethods, List.forall₂_nil_left_iff] at hmethods'
    exact ⟨hfields', hmethods'⟩
  · rw [hfields] at hf
    cases hf

/-- A template is entered without members, and gets them after they have been read.  Its instances
that were made by then stay without members. -/
theorem later_of_template {fields : List FieldTemplate} {methods : List Nat}
    (hname : t₀.lookup? d.name = none) (hfields : d.fields = []) (hmethods : d.methods = [])
    (hread : (t₀.addTemplate d).2.Later t)
    (hmentions : t.instances = t₀.instances ∨ ∃ f ∈ fields, t.Mentions f.ty) :
    t₀.Later (t.modifyTemplate t₀.templates.size fun d => { d with fields, methods }) := by
  have hd : t.template? t₀.templates.size = some d :=
    hread.templates (by rw [template?_addTemplate, if_pos rfl])
  -- other templates were there before, at other places
  have hold {template : Nat} {d' : StructureTemplate} (h : t₀.template? template = some d') :
      template ≠ t₀.templates.size := by
    rintro rfl
    rw [template?, Array.getElem?_eq_none (Nat.le_refl _)] at h
    cases h
  have hother {template : Nat} {d' : StructureTemplate} (hne : t₀.templates.size ≠ template)
      (h : t.template? template = some d') :
      (t.modifyTemplate t₀.templates.size fun d => { d with fields, methods }).template? template =
        some d' := by
    rw [template?_modifyTemplate, if_neg hne, h]
  refine
    { names := fun h => hread.names (lookup_cons_of_eq_none hname h)
      instances := fun h => hread.instances h
      structures := fun h => hread.structures h
      templates := fun h => ?_
      made := fun e he => ?_ }
  · refine hother (hold h).symm (hread.templates ?_)
    rw [template?_addTemplate, if_neg (hold h)]
    exact h
  obtain hsame | ⟨f, hf, hmention⟩ := hmentions
  · exact .inl (hsame ▸ he)
  obtain hmem | ⟨hsize, hmade⟩ := hread.made e he
  · exact .inl hmem
  refine .inr ⟨hsize, ?_⟩
  by_cases htemplate : t₀.templates.size = e.1.1
  · -- An instance of the template itself, made before the members were known.
    rw [htemplate] at hd
    obtain ⟨s, hs, hcomplete, hbare⟩ := hmade.bare hd hfields hmethods
    refine ⟨{ d with fields, methods }, s, ?_, hs, hcomplete, .inr ⟨hbare, f, hf, ?_⟩⟩
    · rw [template?_modifyTemplate, if_pos htemplate, hd, Option.map_some]
    · exact (Within.of_eq rfl rfl).mentions hmention
  · exact hmade.mono (.of_eq rfl rfl) (fun hs => hs) (hother htemplate)

end TypeTable

end WordScript
