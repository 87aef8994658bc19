/-
Components of values.

A value of a structure or span lies in consecutive words, and so does every part of it.
An accessor leads from a value to a part, and a chain of accessors to a part of a part:
the offsets add up, and the words of the part lie inside those of the whole.

* `Accessor` — the name of a field or the number of an element;
* `TypeTable.component?`, `TypeTable.locate?` — where an accessor and a chain lead to;
* `TypeTable.Part.locate` — the words of the part lie inside those of the whole;
* `TypeTable.component?_keep` — where a part lies does not change when more types are laid
  out.
-/
import WordScript.Proofs.HeapWords
import WordScript.Proofs.TypeSizes

namespace WordScript

/-- What leads from a value to a part of it. -/
inductive Accessor where
  | field (name : String)
  | element (index : Nat)
deriving Repr, DecidableEq

namespace TypeTable

variable (t : TypeTable)

/-- The offset and the type of the part that an accessor leads to. -/
def component? : Ty → Accessor → Option (Nat × Ty)
  | .structure_ id, .field name => (t.field? id name).map fun f => (f.offset, f.ty)
  | .span element length, .element index =>
    if index < length.toNat then some (index * t.words element, element) else none
  | _, _ => none

/-- The offset and the type of the part that a chain of accessors leads to. -/
def locate? : Ty → List Accessor → Option (Nat × Ty)
  | ty, [] => some (0, ty)
  | ty, a :: rest => (t.component? ty a).bind fun p =>
    (locate? p.2 rest).map fun q => (p.1 + q.1, q.2)

/-- The elements of a span lie inside it. -/
theorem element_le (element : Ty) {index length : Nat} (h : index < length) :
    index * t.words element + t.words element ≤ t.words element * length := by
  rw [Nat.mul_comm index, ← Nat.mul_succ]
  exact Nat.mul_le_mul_left _ h

/-- A part of a value: its type has a size, and its words lie inside the value's. -/
structure Part (t : TypeTable) (ty : Ty) (p : Nat × Ty) : Prop where
  sized : t.HasSize p.2
  inside : p.1 + t.words p.2 ≤ t.words ty

variable {t} {t' : TypeTable} {making : Nat → Prop} {ty : Ty} {a : Accessor} {p : Nat × Ty}
  {path : List Accessor}

theorem locate?_cons_eq_some {a : Accessor} (h : t.locate? ty (a :: path) = some p) :
    ∃ q r, t.component? ty a = some q ∧ t.locate? q.2 path = some r ∧ p = (q.1 + r.1, r.2) := by
  obtain ⟨q, hq, hrest⟩ := Option.bind_eq_some_iff.mp h
  obtain ⟨r, hr, rfl⟩ := Option.map_eq_some_iff.mp hrest
  exact ⟨q, r, hq, hr, rfl⟩

/-- Only spans have elements. -/
theorem component?_element_eq_some {index : Nat} (h : t.component? ty (.element index) = some p) :
    ∃ element length, ty = .span element length ∧ index < length.toNat ∧
      p = (index * t.words element, element) := by
  cases ty with
  | span element length =>
    rw [component?] at h
    split at h
    · rename_i hlt
      cases h
      exact ⟨element, length, rfl, hlt, rfl⟩
    · cases h
  | _ => cases h

/-- An accessor leads to a part. -/
theorem Part.component (hsound : t.Sound making) (hty : t.HasSize ty)
    (h : t.component? ty a = some p) : t.Part ty p := by
  unfold component? at h
  split at h
  · obtain ⟨f, hf, rfl⟩ := Option.map_eq_some_iff.mp h
    obtain ⟨-, hsize, hin⟩ := hsound.fields _ f (mem_fields_of_field? hf)
    exact ⟨hsize, hin⟩
  · rename_i element length index
    split at h
    · rename_i hlt
      cases h
      exact ⟨(hasSize_span.mp hty).1, t.element_le element hlt⟩
    · cases h
  · cases h

/-- A part of a part is a part. -/
theorem Part.trans {q : Nat × Ty} (h : t.Part ty p) (h' : t.Part p.2 q) :
    t.Part ty (p.1 + q.1, q.2) := by
  refine ⟨h'.sized, ?_⟩
  have := h.inside
  have := h'.inside
  show p.1 + q.1 + t.words q.2 ≤ _
  omega

/-- A chain of accessors leads to a part. -/
theorem Part.locate (hsound : t.Sound making) (hty : t.HasSize ty)
    (h : t.locate? ty path = some p) : t.Part ty p := by
  induction path generalizing ty p with
  | nil =>
    cases h
    exact ⟨hty, Nat.le_of_eq (Nat.zero_add _)⟩
  | cons a path ih =>
    obtain ⟨q, r, hq, hr, rfl⟩ := locate?_cons_eq_some h
    have hq := Part.component hsound hty hq
    exact hq.trans (ih hq.sized hr)

theorem Keeps.trans {t'' : TypeTable} (h : t.Keeps t') (h' : t'.Keeps t'') : t.Keeps t'' := by
  refine ⟨Nat.le_trans h.size_le h'.size_le, fun id hcomplete => ?_⟩
  have hlayout := h.layout id hcomplete
  have hcomplete' : (t'.at_ id).complete = true := by
    rw [← hcomplete]
    exact congrArg (·.2.2) hlayout
  rw [h'.layout id hcomplete', hlayout]

/-- The parts of a type that has a size stay where they are. -/
theorem component?_keep (hk : t.Keeps t') (hty : t.HasSize ty) (a : Accessor) :
    t'.component? ty a = t.component? ty a := by
  unfold component?
  split
  · rename_i id name
    have hcomplete := complete_of_hasSize hty
    have hlayout := hk.layout id hcomplete
    have hlt := lt_size_of_complete hcomplete
    have hfields : (t'.at_ id).fields = (t.at_ id).fields := congrArg Prod.fst hlayout
    have hfield : ∀ {u : TypeTable}, id < u.structures.size →
        u.field? id name = (u.at_ id).fields.find? fun f => f.name == name := by
      intro u hu
      rw [field?, structure?, at_, Array.getD_eq_getD_getElem?, Array.getElem?_eq_getElem hu]
      rfl
    rw [hfield hlt, hfield (Nat.lt_of_lt_of_le hlt hk.size_le), hfields]
  · rw [(hasSize_span.mp hty).1.words_keep hk]
  · rfl

end TypeTable

/-- A run of a run. -/
theorem Words.run_run (words : Array Word) {i n j k : Nat} (h : j + k ≤ n) :
    run (run words i n) j k = run words (i + j) k := by
  refine run_eq_run fun l hl => ?_
  rw [getElem?_run, if_pos (by omega), Nat.add_assoc]

end WordScript
