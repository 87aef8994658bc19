/-
Accessors that are accepted.

Fields and numbered elements are checked when the program is compiled.  A chain of them that
leads to a part of a value is accepted as long as sizes and offsets fit into operands, and a
number that no element of the span has is rejected.  An index in brackets is left to the
machine.

* `CompileM.exists_load`, `exists_deref`, `exists_select` — steps that cannot fail;
* `Access.exists_member` — an accessor that leads to a part is accepted;
* `Access.member_rejects_iff` — numbers that are rejected.
-/
import WordScript.Proofs.AccessorCode
import WordScript.Proofs.GrammarProgress

namespace WordScript

/-- The offset of an operand that is a place. -/
def Operand.offset : Operand → Nat
  | .place p => p.offset
  | .value _ => 0

namespace CompileM

open Compiler

variable {c : Compiler} {o : Operand} {ty inner : Ty} (token : Token) {what : String} {k n : Nat}

theorem byte_eq {token : Token} (h : n < 256) : byte n token what c = .ok (UInt8.ofNat n, c) := by
  rw [byte, if_pos h]
  rfl

theorem short_eq {token : Token} (h : n < 65536) : short n token what c = .ok (UInt16.ofNat n, c) := by
  rw [short, if_pos h]
  rfl

theorem exists_load (hsize : c.types.HasSize o.ty) (hwords : c.types.words o.ty < 256)
    (hoffset : o.offset < 65536) :
    ∃ c', load o token c = .ok (o.ty, c') ∧ c'.types = c.types := by
  cases o with
  | value whole => exact ⟨c, rfl, rfl⟩
  | place p =>
    have hsize : c.types.HasSize p.ty := hsize
    have hwords : c.types.words p.ty < 256 := hwords
    have hoffset : p.offset < 65536 := hoffset
    refine ⟨c.mapBuilder (·.push (.ofByteShort p.storage.loadOp (UInt8.ofNat (c.types.words p.ty))
      (UInt16.ofNat p.offset))), ?_, types_mapBuilder _ _⟩
    rw [load, bind_of_ok (wordsOf_eq hsize), bind_of_ok (byte_eq hwords), bind_of_ok (short_eq hoffset)]
    cases p.storage <;> rfl

theorem exists_deref (hty : o.ty = ty ∨ o.ty = .pointer ty) (hne : ∀ inner, ty ≠ .pointer inner)
    (hoffset : o.offset < 65536) :
    ∃ o' c', deref o token c = .ok (o', c') ∧ o'.ty = ty ∧ o'.offset ≤ o.offset ∧
      (∀ whole, o' = .value whole → o = .value whole) ∧ c'.types = c.types := by
  rcases hty with rfl | hty
  · refine ⟨o, c, ?_, rfl, Nat.le_refl _, fun _ h => h, rfl⟩
    simp only [deref]
    rfl
  · have hword : c.types.HasSize o.ty := by
      rw [hty]
      rfl
    have hwords : c.types.words o.ty < 256 := by
      rw [hty, TypeTable.words]
      decide
    obtain ⟨c', hload, htypes⟩ := exists_load token hword hwords hoffset
    refine ⟨.place (.atAddress ty), c', ?_, rfl, Nat.zero_le _, ?_, htypes⟩
    · rw [deref]
      simp only [hty]
      rw [bind_of_ok hload]
      rfl
    · intro whole hwhole
      cases hwhole

theorem exists_select (hwhole : c.types.HasSize o.ty) (hinner : c.types.HasSize inner)
    (hwords : ∀ whole, o = .value whole → c.types.words whole < 256) (hin : k + c.types.words inner ≤ c.types.words o.ty) :
    ∃ o' c', select o k inner token c = .ok (o', c') ∧ o'.ty = inner ∧ o'.offset ≤ o.offset + k ∧
      c'.types = c.types := by
  cases o with
  | place p => exact ⟨_, c, rfl, rfl, Nat.le_refl _, rfl⟩
  | value whole =>
    have hwhole : c.types.HasSize whole := hwhole
    have hwords := hwords whole rfl
    have hin : k + c.types.words inner ≤ c.types.words whole := hin
    refine ⟨.value inner, c.mapBuilder (·.push (.ofBytes .select (UInt8.ofNat (c.types.words whole))
      (UInt8.ofNat k) (UInt8.ofNat (c.types.words inner)))), ?_, rfl, Nat.zero_le _,
      types_mapBuilder _ _⟩
    rw [select, bind_of_ok (wordsOf_eq hwhole), bind_of_ok (byte_eq hwords),
      bind_of_ok (wordsOf_eq hinner), bind_of_ok (byte_eq (by omega)), bind_of_ok (byte_eq (by omega))]
    rfl

end CompileM

namespace Access

open CompileM

variable {g : Productions} {c : Compiler} {o : Operand} {a : Accessor} {q : Nat × Ty} {ty : Ty}

theorem idle_part (a : Accessor) (o : Operand) (token : Token) : Idle (part a o token) := by
  cases a with
  | field name => exact (tracks_field rfl (Walk.good_free _)).idle
  | element n => exact (tracks_element rfl (Walk.good_free _)).idle

/-- An accessor that leads to a part is accepted. -/
theorem exists_member (hat : c.DotAt c.cursor a) (hty : o.ty = ty ∨ o.ty = .pointer ty)
    (hpart : c.types.component? ty a = some q) (hsize : c.types.HasSize ty) (hq : c.types.Part ty q)
    (hwords : ∀ whole, o = .value whole → c.types.words whole < 256) (hoffset : o.offset < 65536) :
    ∃ o' c', member g o c = .ok (o', c') ∧ o'.ty = q.2 ∧ o'.offset ≤ o.offset + q.1 ∧
      c'.types = c.types ∧ c.past.past.Beside c' := by
  obtain ⟨token, htoken, hnames⟩ := hat.name
  have hlt : c.cursor < c.tokens.size :=
    Nat.lt_of_succ_lt (Array.getElem?_eq_some_iff.mp htoken).1
  have hdot := Array.getElem?_eq_getElem hlt
  obtain ⟨o₁, c₁, hderef, rfl, hle, hvalue, htypes⟩ := exists_deref (c := c.past)
    c.tokens[c.cursor] hty (ne_pointer_of_component? hpart) hoffset
  have htypes₁ : c₁.past.types = c.types := htypes
  rw [← htypes₁] at hpart hsize hq hwords
  obtain ⟨o', c', hselect, hinner, hle', htypes'⟩ := exists_select token hsize hq.sized
    (fun whole hwhole => hwords whole (hvalue whole hwhole)) hq.inside
  rw [← part_eq hnames hpart hsize] at hselect
  have hbeside := (tracks_deref (Walk.good_free _)).idle.beside hderef
  have hpast : c.past.past.Beside c₁.past :=
    ⟨hbeside.tokens, congrArg (· + 1) hbeside.cursor, hbeside.depth, hbeside.templates, hbeside.eof⟩
  refine ⟨o', c', ?_, hinner, by omega, htypes'.trans htypes₁,
    hpast.trans ((idle_part a o₁ token).beside hselect)⟩
  rw [member_eq hdot htoken hnames hat.uncalled hderef, hselect]

/-- A span is indexed by a number only where it has such an element. -/
theorem length_gt_of_element {element : Ty} {length : UInt16} {token : Token} {n : Nat} {o' : Operand}
    {c' : Compiler} (hnumber : token.Numbers n) (hty : o.ty = .span element length)
    (h : Access.element o token c = .ok (o', c')) : n < length.toNat := by
  rw [Access.element] at h
  simp only [hty, hnumber.natural?] at h
  by_cases hword : n ≤ 4294967295
  · rw [if_pos hword] at h
    by_cases hle : length.toNat ≤ n
    · simp only [if_pos hle] at h
      obtain ⟨_, _, hfail, -⟩ := bind_eq_ok h
      exact absurd hfail (Fails.fail _ _ _ _ _)
    · exact Nat.not_le.mp hle
  · rw [if_neg hword] at h
    exact absurd h (Fails.failLiteral _ _ _ _)

/-- A number behind a dot is rejected just when the span has no such element. -/
theorem member_rejects_iff {element : Ty} {length : UInt16} {n : Nat}
    (hat : c.DotAt c.cursor (.element n))
    (hty : o.ty = .span element length ∨ o.ty = .pointer (.span element length))
    (hsize : c.types.HasSize (.span element length))
    (hwords : ∀ whole, o = .value whole → c.types.words whole < 256) (hoffset : o.offset < 65536) :
    (∃ e, member g o c = .error e) ↔ length.toNat ≤ n := by
  constructor
  · rintro ⟨e, herror⟩
    by_contra hlt
    have hpart : c.types.component? (.span element length) (.element n) =
        some (n * c.types.words element, element) := if_pos (Nat.not_le.mp hlt)
    have hq : c.types.Part (.span element length) (n * c.types.words element, element) :=
      ⟨(TypeTable.hasSize_span.mp hsize).1, c.types.element_le element (Nat.not_le.mp hlt)⟩
    obtain ⟨o', c', hmember, -⟩ := exists_member (g := g) hat hty hpart hsize hq hwords hoffset
    rw [herror] at hmember
    cases hmember
  · intro hle
    cases hmember : member g o c with
    | error e => exact ⟨e, rfl⟩
    | ok r =>
      obtain ⟨token, htoken, hnumber⟩ := hat.name
      have hlt : c.cursor < c.tokens.size :=
        Nat.lt_of_succ_lt (Array.getElem?_eq_some_iff.mp htoken).1
      have hdot := Array.getElem?_eq_getElem hlt
      obtain ⟨dot, c₀, hadvance, hrest⟩ := bind_eq_ok hmember
      rw [advance_eq hdot] at hadvance
      cases hadvance
      obtain ⟨o₁, c₁, hderef, -⟩ := bind_eq_ok hrest
      rw [member_eq hdot htoken hnumber hat.uncalled hderef] at hmember
      have hty₁ := ty_of_deref hty (fun inner hinner => by cases hinner) hderef
      exact absurd (length_gt_of_element hnumber hty₁ hmember) (Nat.not_lt.mpr hle)

end Access

end WordScript
