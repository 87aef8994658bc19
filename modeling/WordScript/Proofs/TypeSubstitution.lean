/-
Substitution in types.

The parameters of a template are replaced in stages: a field that applies another
template keeps its arguments until the parameters of its own template are known.  So
it must make no difference whether arguments are put into a type one after the other
or all together, and what is left to be replaced must be what the arguments bring
along.

* `Ty.placeholders` — the placeholders of a type from left to right;
* `Ty.placeholders_substitute` — those of a type after a substitution;
* `Ty.substitute_eq_self`, `Ty.substitute_eq_substitute` — a substitution that changes
  nothing, and two of them that make one;
* `Ty.substitutes_in_stages` — the laws together.

Design notes: arguments come as a list, but a substitution is a function on
placeholders, `Ty.argument`.  Each law is proved from what the arguments do to the
placeholders that occur in the type.
-/
import Mathlib.Data.List.Basic
import WordScript.Types.Basic

namespace WordScript.Ty

mutual

/-- The placeholders of a type, from left to right. -/
def placeholders : Ty → List UInt8
  | placeholder index => [index]
  | span element _ | list element | pointer element | reference element => placeholders element
  | generic _ arguments => placeholdersIn arguments
  | void | bool | int | float | string | structure_ _ => []

/-- The placeholders of a list of types, from left to right. -/
def placeholdersIn : List Ty → List UInt8
  | [] => []
  | t :: ts => placeholders t ++ placeholdersIn ts

end

/-- What stands for a placeholder after a substitution. -/
def argument (arguments : List Ty) (index : UInt8) : Ty :=
  arguments[index.toNat]?.getD (placeholder index)

variable {a b c : List Ty} {t : Ty}

theorem argument_of_getElem? {i : UInt8} {u : Ty} (h : a[i.toNat]? = some u) : argument a i = u := by
  rw [argument, h, Option.getD_some]

/-! ### Induction -/

/-- Induction on types.  A template that waits for arguments has a hypothesis for each of them. -/
@[elab_as_elim]
theorem inductOn {motive : Ty → Prop} (t : Ty) (void : motive void) (bool : motive bool)
    (int : motive int) (float : motive float) (string : motive string)
    (structure_ : ∀ id, motive (structure_ id)) (placeholder : ∀ index, motive (placeholder index))
    (span : ∀ element length, motive element → motive (span element length))
    (list : ∀ element, motive element → motive (list element))
    (pointer : ∀ element, motive element → motive (pointer element))
    (reference : ∀ element, motive element → motive (reference element))
    (generic : ∀ template ts, (∀ t ∈ ts, motive t) → motive (generic template ts)) : motive t :=
  @Ty.rec motive (fun ts => ∀ t ∈ ts, motive t) void bool int float string span list pointer
    reference structure_ placeholder generic (List.forall_mem_nil motive)
    (fun _ _ hhead htail => List.forall_mem_cons.mpr ⟨hhead, htail⟩) t

theorem placeholdersIn_eq_flatMap (ts : List Ty) : placeholdersIn ts = ts.flatMap placeholders := by
  induction ts with
  | nil => rw [placeholdersIn, List.flatMap_nil]
  | cons t ts ih => rw [placeholdersIn, ih, List.flatMap_cons]

theorem placeholders_generic (template : Nat) (ts : List Ty) :
    (generic template ts).placeholders = ts.flatMap placeholders := by
  rw [placeholders, placeholdersIn_eq_flatMap]

theorem substitute_generic (template : Nat) (ts : List Ty) :
    (generic template ts).substitute a = generic template (ts.map (substitute a)) := by
  rw [substitute, substituteAll_eq_map]

/-- The leftmost placeholder is the first one. -/
theorem firstPlaceholder?_eq_head? (t : Ty) : t.firstPlaceholder? = t.placeholders.head? := by
  induction t using inductOn with
  | void | bool | int | float | string | structure_ _ | placeholder _ => rfl
  | span element _ ih | list element ih | pointer element ih | reference element ih =>
    rw [firstPlaceholder?, placeholders, ih]
  | generic template ts ih =>
    rw [firstPlaceholder?, firstPlaceholderIn?_eq_findSome?, placeholders_generic,
      List.head?_flatMap]
    -- the same front of the same list, and one answer for each of its types
    rw [← List.head?_filterMap, ← List.head?_filterMap, List.filterMap_congr ih]

theorem containsPlaceholder_iff : t.containsPlaceholder = true ↔ ∃ i, i ∈ t.placeholders := by
  rw [containsPlaceholder, firstPlaceholder?_eq_head?, List.isSome_head?]
  exact ⟨List.exists_mem_of_ne_nil _, fun ⟨_, hi⟩ => List.ne_nil_of_mem hi⟩

theorem containsPlaceholder_eq_false : t.containsPlaceholder = false ↔ t.placeholders = [] := by
  rw [containsPlaceholder, firstPlaceholder?_eq_head?, Option.isSome_eq_false_iff,
    Option.isNone_iff_eq_none, List.head?_eq_none_iff]

/-! ### Substitution -/

/-- Every placeholder makes way for those of its argument. -/
theorem placeholders_substitute (t : Ty) :
    (t.substitute a).placeholders = t.placeholders.flatMap fun i => (argument a i).placeholders := by
  induction t using inductOn with
  | void | bool | int | float | string | structure_ _ => rfl
  | placeholder index => rw [substitute, placeholders, List.flatMap_singleton, argument]
  | span element _ ih | list element ih | pointer element ih | reference element ih =>
    rw [substitute, placeholders, placeholders, ih]
  | generic template ts ih =>
    rw [substitute_generic, placeholders_generic, placeholders_generic, List.flatMap_map,
      List.flatMap_assoc]
    exact List.flatMap_congr ih

/-- Nothing changes if every placeholder that occurs is replaced by itself. -/
theorem substitute_eq_self (h : ∀ i ∈ t.placeholders, argument a i = placeholder i) :
    t.substitute a = t := by
  induction t using inductOn with
  | void | bool | int | float | string | structure_ _ => rfl
  | placeholder index =>
    rw [substitute]
    exact h index (by rw [placeholders]; exact List.mem_singleton_self index)
  | span element _ ih | list element ih | pointer element ih | reference element ih =>
    rw [placeholders] at h
    rw [substitute, ih h]
  | generic template ts ih =>
    rw [placeholders_generic] at h
    have hts : ∀ t ∈ ts, t.substitute a = id t := fun t ht =>
      ih t ht fun i hi => h i (List.mem_flatMap.mpr ⟨t, ht, hi⟩)
    rw [substitute_generic, List.map_congr_left hts, List.map_id]

/-- Two substitutions are one if they are for every placeholder that occurs. -/
theorem substitute_eq_substitute
    (h : ∀ i ∈ t.placeholders, (argument a i).substitute b = argument c i) :
    (t.substitute a).substitute b = t.substitute c := by
  induction t using inductOn with
  | void | bool | int | float | string | structure_ _ => rfl
  | placeholder index =>
    rw [substitute, substitute]
    exact h index (by rw [placeholders]; exact List.mem_singleton_self index)
  | span element _ ih | list element ih | pointer element ih | reference element ih =>
    rw [placeholders] at h
    rw [substitute, substitute, substitute, ih h]
  | generic template ts ih =>
    rw [placeholders_generic] at h
    rw [substitute_generic, substitute_generic, substitute_generic, List.map_map]
    exact congrArg _ (List.map_congr_left fun t ht =>
      ih t ht fun i hi => h i (List.mem_flatMap.mpr ⟨t, ht, hi⟩))

/-- The leftmost placeholder after a substitution comes from the first of the placeholders whose
argument has one. -/
theorem firstPlaceholder?_substitute {j : UInt8} :
    (t.substitute a).firstPlaceholder? = some j ↔ ∃ front i back, t.placeholders = front ++ i :: back ∧
      (argument a i).firstPlaceholder? = some j ∧
      ∀ k ∈ front, (argument a k).firstPlaceholder? = none := by
  simp only [firstPlaceholder?_eq_head?]
  rw [placeholders_substitute, List.head?_flatMap]
  exact List.findSome?_eq_some_iff

end WordScript.Ty

namespace WordScript

open Ty

/-- If there is an argument for every placeholder of a type, it makes no difference whether further
arguments are put into the type after them or into the arguments themselves.  What is left to be
replaced is what is left in the arguments of the placeholders that occur, and the leftmost of it stands
in the first of those arguments that has any.  A type without placeholders stays as it is. -/
theorem substitutes_in_stages (t : Ty) (a b : List Ty)
    (h : ∀ i ∈ t.placeholders, i.toNat < a.length) :
    (t.substitute a).substitute b = t.substitute (a.map (substitute b)) ∧
    ((t.substitute a).containsPlaceholder = true ↔
      ∃ i ∈ t.placeholders, ∃ u, a[i.toNat]? = some u ∧ u.containsPlaceholder = true) ∧
    (∀ j, (t.substitute a).firstPlaceholder? = some j ↔
      ∃ front i back u, t.placeholders = front ++ i :: back ∧
        (∀ k ∈ front, ∀ v, a[k.toNat]? = some v → v.containsPlaceholder = false) ∧
        a[i.toNat]? = some u ∧ u.firstPlaceholder? = some j) ∧
    (t.containsPlaceholder = false → t.substitute a = t) := by
  have hargument : ∀ i ∈ t.placeholders, a[i.toNat]? = some (argument a i) := by
    intro i hi
    rw [argument, List.getElem?_eq_getElem (h i hi), Option.getD_some]
  refine ⟨?_, ?_, fun j => ?_, fun hnone => ?_⟩
  · refine substitute_eq_substitute fun i hi => ?_
    have hmap : (a.map (substitute b))[i.toNat]? = some ((argument a i).substitute b) := by
      rw [List.getElem?_map, hargument i hi, Option.map_some]
    rw [argument_of_getElem? hmap]
  · rw [containsPlaceholder_iff, placeholders_substitute]
    constructor
    · rintro ⟨j, hj⟩
      obtain ⟨i, hi, hj⟩ := List.mem_flatMap.mp hj
      exact ⟨i, hi, _, hargument i hi, containsPlaceholder_iff.mpr ⟨j, hj⟩⟩
    · rintro ⟨i, hi, u, hu, hcontains⟩
      obtain ⟨j, hj⟩ := containsPlaceholder_iff.mp hcontains
      rw [← argument_of_getElem? hu] at hj
      exact ⟨j, List.mem_flatMap.mpr ⟨i, hi, hj⟩⟩
  · have hfree : ∀ u : Ty, u.containsPlaceholder = false ↔ u.firstPlaceholder? = none := fun u => by
      rw [containsPlaceholder, Option.isSome_eq_false_iff, Option.isNone_iff_eq_none]
    rw [firstPlaceholder?_substitute]
    constructor
    · rintro ⟨front, i, back, hsplit, hj, hfront⟩
      have hi : i ∈ t.placeholders := by
        rw [hsplit]
        exact List.mem_append_right _ List.mem_cons_self
      refine ⟨front, i, back, _, hsplit, fun k hk v hv => ?_, hargument i hi, hj⟩
      rw [hfree, ← argument_of_getElem? hv]
      exact hfront k hk
    · rintro ⟨front, i, back, u, hsplit, hfront, hu, hj⟩
      refine ⟨front, i, back, hsplit, argument_of_getElem? hu ▸ hj, fun k hk => ?_⟩
      have hmem : k ∈ t.placeholders := by
        rw [hsplit]
        exact List.mem_append_left _ hk
      exact (hfree _).mp (hfront k hk _ (hargument k hmem))
  · refine substitute_eq_self fun i hi => ?_
    rw [containsPlaceholder_eq_false.mp hnone] at hi
    exact absurd hi List.not_mem_nil

/-- A template applied to a pointer to the first parameter and a list of the second. -/
def pendingPair : Ty :=
  generic 3 [pointer (placeholder 0), list (placeholder 1)]

/-- Only the second argument brings a placeholder along, and it is replaced in a second stage. -/
theorem substitutes_in_stages_pendingPair :
    (∀ i ∈ pendingPair.placeholders, i.toNat < [int, span (placeholder 2) 5].length) ∧
    (pendingPair.substitute [int, span (placeholder 2) 5]).substitute [void, void, bool] =
      pendingPair.substitute [int, span bool 5] ∧
    (pendingPair.substitute [int, span (placeholder 2) 5]).containsPlaceholder = true ∧
    (pendingPair.substitute [int, span (placeholder 2) 5]).firstPlaceholder? = some 2 := by
  have hplaces : pendingPair.placeholders = [0, 1] := rfl
  have hsecond : 1 ∈ pendingPair.placeholders := hplaces ▸ List.mem_cons_of_mem _ List.mem_cons_self
  have h : ∀ i ∈ pendingPair.placeholders, i.toNat < [int, span (placeholder 2) 5].length := by
    rw [hplaces, List.forall_mem_cons, List.forall_mem_singleton]
    decide
  obtain ⟨hstages, hcontains, hfirst, -⟩ := substitutes_in_stages _ _ [void, void, bool] h
  refine ⟨h, hstages, hcontains.mpr ⟨1, hsecond, _, rfl, rfl⟩, (hfirst 2).mpr ?_⟩
  refine ⟨[0], 1, [], _, hplaces, List.forall_mem_singleton.mpr ?_, rfl, rfl⟩
  rintro _ ⟨⟩
  rfl

end WordScript
