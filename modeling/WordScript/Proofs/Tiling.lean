/-
Words laid out one behind the other.

The variables of a frame and the fields of a structure are laid out in the same way:
each begins where the one before it ends.  So they tile the words that they take up
together, and each begins at the sum of the sizes before it.

* `Segment` — consecutive words;
* `Segment.Tiles` — segments that share no word and leave none out;
* `Segment.Lined` — segments of which each begins where the one before it ends;
  `Segment.Lined.tiles` and `Segment.Lined.offset_eq` are what follows for them.
-/
import Mathlib.Algebra.Ring.Nat

namespace WordScript

/-- Consecutive words: where they begin, and how many they are. -/
structure Segment where
  offset : Nat
  words : Nat
deriving Repr, DecidableEq

namespace Segment

/-- The word is one of the segment. -/
def Holds (x : Segment) (w : Nat) : Prop :=
  x.offset ≤ w ∧ w < x.offset + x.words

/-- The segments lie among the first `n` words, no two of them share a word, and none of the words is
left out. -/
structure Tiles (xs : List Segment) (n : Nat) : Prop where
  inside : ∀ x ∈ xs, x.offset + x.words ≤ n
  apart : xs.Pairwise fun x y => ∀ w, ¬ (x.Holds w ∧ y.Holds w)
  covered : ∀ w < n, ∃ x ∈ xs, x.Holds w

/-- The first segment begins at `a`, each of the others where the one before it ends, and the last one
ends at `b`. -/
inductive Lined : Nat → List Segment → Nat → Prop
  | nil (a : Nat) : Lined a [] a
  | cons {a b k : Nat} {xs : List Segment} (h : Lined (a + k) xs b) : Lined a (⟨a, k⟩ :: xs) b

namespace Lined

variable {a b k : Nat} {xs : List Segment}

/-- The segments take up all that lies between the ends. -/
theorem end_eq (h : Lined a xs b) : b = a + (xs.map Segment.words).sum := by
  induction h with
  | nil a => rfl
  | cons _ ih =>
    rw [ih, List.map_cons, List.sum_cons, Nat.add_assoc]

theorem le (h : Lined a xs b) : a ≤ b := by
  rw [h.end_eq]
  exact Nat.le_add_right _ _

/-- A segment more, behind the others. -/
theorem concat (h : Lined a xs b) (k : Nat) : Lined a (xs ++ [⟨b, k⟩]) (b + k) := by
  induction h with
  | nil a => exact .cons (.nil _)
  | cons _ ih => exact .cons ih

theorem bounds (h : Lined a xs b) : ∀ x ∈ xs, a ≤ x.offset ∧ x.offset + x.words ≤ b := by
  induction h with
  | nil a => exact fun x hx => nomatch hx
  | @cons a b k xs h ih =>
    intro x hx
    cases hx with
    | head => exact ⟨Nat.le_refl _, h.le⟩
    | tail _ hx =>
      obtain ⟨hfirst, hlast⟩ := ih x hx
      exact ⟨by omega, hlast⟩

/-- Segments in a line share no word. -/
theorem pairwise (h : Lined a xs b) : xs.Pairwise fun x y => x.offset + x.words ≤ y.offset := by
  induction h with
  | nil a => exact .nil
  | cons h ih => exact .cons (fun y hy => (h.bounds y hy).1) ih

theorem exists_holds (h : Lined a xs b) : ∀ w, a ≤ w → w < b → ∃ x ∈ xs, x.Holds w := by
  induction h with
  | nil a => exact fun w hle hlt => absurd hlt (Nat.not_lt.mpr hle)
  | @cons a b k xs h ih =>
    intro w hle hlt
    by_cases hw : w < a + k
    · exact ⟨⟨a, k⟩, List.mem_cons_self, hle, hw⟩
    · obtain ⟨x, hx, hholds⟩ := ih w (Nat.not_lt.mp hw) hlt
      exact ⟨x, List.mem_cons_of_mem _ hx, hholds⟩

theorem tiles (h : Lined 0 xs b) : Tiles xs b where
  inside := fun x hx => (h.bounds x hx).2
  apart := h.pairwise.imp fun hle w hholds => by
    obtain ⟨⟨-, hlt⟩, hge, -⟩ := hholds
    omega
  covered := fun w hw => h.exists_holds w (Nat.zero_le w) hw

/-- Each segment begins at the sum of the sizes before it. -/
theorem offset_eq (h : Lined a xs b) : ∀ (i : Nat) (x : Segment), xs[i]? = some x →
    x.offset = a + ((xs.take i).map Segment.words).sum := by
  induction h with
  | nil a => exact fun i x hx => by simp at hx
  | @cons a b k xs h ih =>
    intro i x hx
    cases i with
    | zero =>
      cases hx
      rfl
    | succ i =>
      rw [ih i x hx, List.take_succ_cons, List.map_cons, List.sum_cons, Nat.add_assoc]

end Lined

end Segment

end WordScript
