/-
Types of the language.

A type is a scalar, a span of equal elements stored in place, a list, pointer or
reference stored in one word, or a structure.  The parameters of a structure
template are placeholders, by position; a template applied to types that still
mention placeholders waits until they are replaced.

* `Ty.firstPlaceholder?` — the leftmost placeholder of a type;
* `Ty.substitute` — placeholders replaced by arguments;
* `Ty.beq_eq_true_iff` — equality of types is decided structurally.
-/
namespace WordScript

/-- A type. -/
inductive Ty where
  | void
  | bool
  | int
  | float
  | string
  /-- a number of elements one after the other, in place -/
  | span (element : Ty) (length : UInt16)
  /-- a growing sequence on the heap -/
  | list (element : Ty)
  /-- an address on the heap -/
  | pointer (element : Ty)
  /-- an address on the stack or on the heap -/
  | reference (element : Ty)
  /-- the structure with a number in the table of types -/
  | structure_ (id : Nat)
  /-- a parameter of a template, by position -/
  | placeholder (index : UInt8)
  /-- a template applied to arguments that still mention placeholders -/
  | generic (template : Nat) (arguments : List Ty)
deriving Repr, Inhabited

namespace Ty

mutual

/-- Whether two types are the same. -/
def beq : Ty → Ty → Bool
  | void, void | bool, bool | int, int | float, float | string, string => true
  | span s m, span t n => m == n && beq s t
  | list s, list t | pointer s, pointer t | reference s, reference t => beq s t
  | structure_ i, structure_ j => i == j
  | placeholder i, placeholder j => i == j
  | generic i ss, generic j ts => i == j && beqList ss ts
  | _, _ => false

/-- Whether two lists of types are the same. -/
def beqList : List Ty → List Ty → Bool
  | [], [] => true
  | s :: ss, t :: ts => beq s t && beqList ss ts
  | _, _ => false

end

instance : BEq Ty := ⟨beq⟩

mutual

/-- The leftmost placeholder. -/
def firstPlaceholder? : Ty → Option UInt8
  | placeholder index => some index
  | span element _ | list element | pointer element | reference element =>
    firstPlaceholder? element
  | generic _ arguments => firstPlaceholderIn? arguments
  | _ => none

/-- The leftmost placeholder of a list of types. -/
def firstPlaceholderIn? : List Ty → Option UInt8
  | [] => none
  | t :: ts => (firstPlaceholder? t).or (firstPlaceholderIn? ts)

end

/-- Whether a placeholder occurs. -/
def containsPlaceholder (t : Ty) : Bool :=
  t.firstPlaceholder?.isSome

mutual

/-- Replaces every placeholder by the argument at its position; one past the arguments stays. -/
def substitute (arguments : List Ty) : Ty → Ty
  | placeholder index => arguments[index.toNat]?.getD (placeholder index)
  | span element length => span (substitute arguments element) length
  | list element => list (substitute arguments element)
  | pointer element => pointer (substitute arguments element)
  | reference element => reference (substitute arguments element)
  | generic template inner => generic template (substituteAll arguments inner)
  | void => void
  | bool => bool
  | int => int
  | float => float
  | string => string
  | structure_ id => structure_ id

/-- Replaces placeholders in a list of types. -/
def substituteAll (arguments : List Ty) : List Ty → List Ty
  | [] => []
  | t :: ts => substitute arguments t :: substituteAll arguments ts

end

/-- The scalar type with a name. -/
def primitive? : String → Option Ty
  | "Void" => some void
  | "Bool" => some bool
  | "Int" => some int
  | "Float" => some float
  | "String" => some string
  | _ => none

theorem substituteAll_eq_map (arguments ts : List Ty) :
    substituteAll arguments ts = ts.map (substitute arguments) := by
  induction ts with
  | nil => rw [substituteAll, List.map_nil]
  | cons t ts ih => rw [substituteAll, ih, List.map_cons]

theorem firstPlaceholderIn?_eq_findSome? (ts : List Ty) :
    firstPlaceholderIn? ts = ts.findSome? firstPlaceholder? := by
  induction ts with
  | nil => rw [firstPlaceholderIn?, List.findSome?_nil]
  | cons t ts ih =>
    rw [firstPlaceholderIn?, ih, List.findSome?_cons]
    cases firstPlaceholder? t <;> rfl

mutual

theorem beq_eq_true_iff (s t : Ty) : beq s t = true ↔ s = t := by
  cases s with
  | span e n => cases t <;> simp [beq, beq_eq_true_iff e, and_comm]
  | list e | pointer e | reference e => cases t <;> simp [beq, beq_eq_true_iff e]
  | generic n ss => cases t <;> simp [beq, beqList_eq_true_iff ss]
  | void | bool | int | float | string | structure_ _ | placeholder _ =>
    cases t <;> simp [beq]

theorem beqList_eq_true_iff (ss ts : List Ty) : beqList ss ts = true ↔ ss = ts := by
  cases ss with
  | nil => cases ts <;> simp [beqList]
  | cons s ss => cases ts <;> simp [beqList, beq_eq_true_iff s, beqList_eq_true_iff ss]

end

instance : LawfulBEq Ty where
  eq_of_beq h := (beq_eq_true_iff _ _).mp h
  rfl := (beq_eq_true_iff _ _).mpr rfl

instance : DecidableEq Ty := fun s t =>
  decidable_of_iff (beq s t = true) (beq_eq_true_iff s t)

end Ty

end WordScript
