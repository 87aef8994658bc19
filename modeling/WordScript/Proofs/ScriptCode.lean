/-
Where the code of a script lies in a finished chunk.

While a script is emitted its jumps are open one after another, and landing one
changes an instruction that was emitted before.  In the finished chunk nothing of
this is seen: every jump has its target, and the parts of a script lie one behind
the other.

* `Chunk.HoldsBut` — a chunk has some code, but for jumps that are still open there;
* `Script.emit?_grows` — a script is emitted behind what is there;
* `Script.Placed` — a chunk has the code of a script from one place to another;
* `Script.finishes`, `Script.placed_of_emit?` — a finished chunk has the code of the
  script in it.
-/
import WordScript.Proofs.ScriptReading

namespace WordScript

namespace Chunk

variable {P c c' c₁ c₂ : Chunk} {a k : Nat} {jumps more : List Nat} {op : Opcode}

/-- A chunk in which jumps have landed at the end, and nothing else has changed. -/
structure Lands (c c' : Chunk) (jumps : List Nat) : Prop where
  size : c'.code.size = c.code.size
  constants : c'.constants = c.constants
  others : ∀ j, j ∉ jumps → c'.code[j]? = c.code[j]?
  landed : ∀ j ∈ jumps, ∀ i, c.code[j]? = some i →
    ∃ i', c'.code[j]? = some i' ∧ i'.opcode? = i.opcode? ∧ i'.target j = c.code.size

theorem lands_nil (c : Chunk) : c.Lands c [] :=
  ⟨rfl, rfl, fun _ _ => rfl, fun _ h => (nomatch h)⟩

theorem Lands.trans (h : c.Lands c₁ jumps) (h' : c₁.Lands c₂ more) :
    c.Lands c₂ (jumps ++ more) := by
  refine ⟨h'.size.trans h.size, h'.constants.trans h.constants, fun j hj => ?_, fun j hj i hi => ?_⟩
  · rw [List.mem_append, not_or] at hj
    rw [h'.others j hj.2, h.others j hj.1]
  · by_cases hmore : j ∈ more
    · -- a jump that has landed before lands at the same place again
      by_cases hjumps : j ∈ jumps
      · obtain ⟨i₁, hi₁, hop₁, -⟩ := h.landed j hjumps i hi
        obtain ⟨i₂, hi₂, hop₂, htarget⟩ := h'.landed j hmore i₁ hi₁
        exact ⟨i₂, hi₂, hop₂.trans hop₁, by rw [htarget, h.size]⟩
      · obtain ⟨i₂, hi₂, hop₂, htarget⟩ := h'.landed j hmore i (by rw [h.others j hjumps, hi])
        exact ⟨i₂, hi₂, hop₂, by rw [htarget, h.size]⟩
    · obtain ⟨i₁, hi₁, hop₁, htarget⟩ :=
        h.landed j ((List.mem_append.mp hj).resolve_right hmore) i hi
      exact ⟨i₁, by rw [h'.others j hmore, hi₁], hop₁, htarget⟩

theorem land?_lands (h : c.land? a = some c') : c.Lands c' [a] := by
  rw [land?] at h
  split at h
  · next hreach =>
    cases h
    refine ⟨Array.size_modify, rfl, fun j hj => ?_, fun j hj i hi => ?_⟩
    · rw [List.mem_singleton] at hj
      show (c.code.modify a _)[j]? = _
      rw [Array.getElem?_modify, if_neg (Ne.symm hj)]
    · obtain rfl : j = a := List.mem_singleton.mp hj
      refine ⟨i.withSigned (distance j c.code.size), ?_, rfl, ?_⟩
      · show (c.code.modify j _)[j]? = _
        rw [Array.getElem?_modify, if_pos rfl, hi]
        rfl
      · rw [Instruction.target, Instruction.signedShort_withSigned i hreach.1 hreach.2, distance]
        omega
  · cases h

theorem landAll?_lands (h : c.landAll? jumps = some c') : c.Lands c' jumps := by
  induction jumps generalizing c with
  | nil =>
    cases h
    exact lands_nil _
  | cons a jumps ih =>
    rw [landAll?, List.foldlM_cons] at h
    obtain ⟨c₁, h₁, h⟩ := Option.bind_eq_some_iff.mp h
    exact (land?_lands h₁).trans (ih h)

/-- Jumps behind some code can land without changing it. -/
theorem Extends.lands (h : c.Extends c₁) (hlands : c₁.Lands c₂ jumps)
    (hjumps : ∀ j ∈ jumps, c.code.size ≤ j) : c.Extends c₂ := by
  refine ⟨?_, by rw [hlands.constants]; exact h.constants⟩
  rw [List.prefix_iff_getElem?]
  intro j hj
  have hlt : j < c.code.size := by simpa using hj
  have hout : j ∉ jumps := fun hin => Nat.not_lt.mpr (hjumps j hin) hlt
  rw [Array.getElem?_toList, hlands.others j hout, h.getElem? hlt, Array.getElem?_eq_getElem hlt,
    Array.getElem_toList]

theorem drop?_extends {words : Nat} (h : c.drop? words = some c') : c.Extends c' := by
  rw [drop?] at h
  split at h
  · split at h
    · cases h
      exact extends_push _ _
    · cases h
  · cases h
    exact .refl c

theorem back?_extends {start : Nat} (h : c.back? start = some c') : c.Extends c' := by
  rw [back?] at h
  split at h
  · cases h
    exact extends_push _ _
  · cases h

/-- There is a jump from one place to another. -/
def Jumps (P : Chunk) (op : Opcode) (at_ target : Nat) : Prop :=
  target ≤ P.code.size ∧
    ∃ i, P.code[at_]? = some i ∧ i.opcode? = some op ∧ i.target at_ = target

/-- Words are removed between two places. -/
def Drops (P : Chunk) (words at_ next : Nat) : Prop :=
  words = 0 ∧ next = at_ ∨
  0 < words ∧ words < 65536 ∧ P.code[at_]? = some (.ofByteShort .pop 0 (UInt16.ofNat words)) ∧
    next = at_ + 1

/-- The chunk `P` has the code that was added to `c` to make it `c'`, but for some jumps. -/
structure HoldsBut (P c c' : Chunk) (jumps : List Nat) : Prop where
  code : ∀ j, c.code.size ≤ j → j < c'.code.size → j ∉ jumps → P.code[j]? = c'.code[j]?
  size : c'.code.size ≤ P.code.size
  constants : c'.constants.toList <+: P.constants.toList

namespace HoldsBut

theorem left (h : P.HoldsBut c c₂ jumps) (h₁ : c₁.Extends c₂) : P.HoldsBut c c₁ jumps := by
  refine ⟨fun j hlo hhi hj => ?_, Nat.le_trans h₁.size_le h.size, h₁.constants.trans h.constants⟩
  rw [h.code j hlo (Nat.lt_of_lt_of_le hhi h₁.size_le) hj, h₁.getElem? hhi]

theorem right (h : P.HoldsBut c c₂ jumps) (h₁ : c.Extends c₁) : P.HoldsBut c₁ c₂ jumps :=
  ⟨fun j hlo => h.code j (Nat.le_trans h₁.size_le hlo), h.size, h.constants⟩

/-- Jumps elsewhere do not matter. -/
theorem weaken (h : P.HoldsBut c c' jumps)
    (hjumps : ∀ j ∈ jumps, c.code.size ≤ j → j < c'.code.size → j ∈ more) :
    P.HoldsBut c c' more :=
  ⟨fun j hlo hhi hj => h.code j hlo hhi fun hin => hj (hjumps j hin hlo hhi), h.size, h.constants⟩

theorem holds (h : P.HoldsBut c c' jumps)
    (hjumps : ∀ j ∈ jumps, c.code.size ≤ j → c'.code.size ≤ j) : P.Holds c c' :=
  ⟨fun j hlo hhi => h.code j hlo hhi fun hin => Nat.not_lt.mpr (hjumps j hin hlo) hhi, h.constants⟩

theorem push {i : Instruction} (h : P.HoldsBut c (c₁.push i) jumps) (h₁ : c.Extends c₁)
    (hjumps : c₁.code.size ∉ jumps) : P.code[c₁.code.size]? = some i := by
  have hsize : (c₁.push i).code.size = c₁.code.size + 1 := Array.size_push _
  rw [h.code _ h₁.size_le (by omega) hjumps]
  exact Array.getElem?_push_size

/-- Before jumps landed, the code was the same but for them. -/
theorem lands (h : P.HoldsBut c c₂ jumps) (hlands : c₁.Lands c₂ more) :
    P.HoldsBut c c₁ (more ++ jumps) := by
  refine ⟨fun j hlo hhi hj => ?_, by rw [← hlands.size]; exact h.size,
    by rw [← hlands.constants]; exact h.constants⟩
  rw [List.mem_append, not_or] at hj
  rw [h.code j hlo (by rw [hlands.size]; exact hhi) hj.2, hlands.others j hj.1]

/-- A jump that has landed. -/
theorem landed (h : P.HoldsBut c c₂ jumps) (hlands : c₁.Lands c₂ more) (ha : a ∈ more)
    (hlo : c.code.size ≤ a) (hopen : c₁.code[a]? = some (.ofSigned op 0)) (hout : a ∉ jumps) :
    P.Jumps op a c₁.code.size := by
  obtain ⟨i, hi, hop, htarget⟩ := hlands.landed a ha _ hopen
  have hhi : a < c₂.code.size := (Array.getElem?_eq_some_iff.mp hi).1
  refine ⟨by rw [← hlands.size]; exact h.size, i, ?_,
    hop.trans (Instruction.opcode?_ofSigned _ _), htarget⟩
  rw [h.code a hlo hhi hout, hi]

theorem drops {words : Nat} (h : P.HoldsBut c c₂ jumps) (hdrop : c₁.drop? words = some c₂)
    (h₁ : c.Extends c₁) (hjumps : c₁.code.size ∉ jumps) :
    P.Drops words c₁.code.size c₂.code.size := by
  rw [drop?] at hdrop
  split at hdrop
  · next hpos =>
    split at hdrop
    · next hwords =>
      cases hdrop
      exact .inr ⟨hpos, hwords, h.push h₁ hjumps, Array.size_push _⟩
    · cases hdrop
  · next hpos =>
    cases hdrop
    exact .inl ⟨Nat.eq_zero_of_not_pos hpos, rfl⟩

theorem back {start : Nat} (h : P.HoldsBut c c₂ jumps) (hback : c₁.back? start = some c₂)
    (h₁ : c.Extends c₁) (hjumps : c₁.code.size ∉ jumps) (hstart : start ≤ c₁.code.size) :
    P.Jumps .jump c₁.code.size start ∧ c₂.code.size = c₁.code.size + 1 := by
  rw [back?] at hback
  split at hback
  · next hreach =>
    cases hback
    refine ⟨⟨?_, _, h.push h₁ hjumps, Instruction.opcode?_ofSigned _ _, ?_⟩, Array.size_push _⟩
    · exact Nat.le_trans hstart (Nat.le_trans (extends_push _ _).size_le h.size)
    · rw [Instruction.target, Instruction.signedShort_ofSigned _ hreach.1 hreach.2, distance]
      omega
  · cases hback

end HoldsBut

end Chunk

namespace Chunk

theorem size_open_ (c : Chunk) (op : Opcode) : (c.open_ op).code.size = c.code.size + 1 :=
  Array.size_push _

theorem extends_open_ (c : Chunk) (op : Opcode) : c.Extends (c.open_ op) :=
  extends_push _ _

/-- A jump that waits stays as it is while code is added. -/
theorem Extends.opened {c c' : Chunk} {op : Opcode} (h : (c.open_ op).Extends c') :
    c'.code[c.code.size]? = some (.ofSigned op 0) := by
  rw [h.getElem? (by rw [size_open_]; omega)]
  exact Array.getElem?_push_size

end Chunk

theorem Tree.test?_eq_some {Γ : Context} {e : Tree} {c c₁ : Chunk} (h : e.test? Γ c = some c₁) :
    e.emit? Γ c = some (.bool, c₁) := by
  obtain ⟨⟨ty, c'⟩, hemit, h⟩ := Option.bind_eq_some_iff.mp h
  split at h
  · next hty =>
    cases h
    rw [hemit, ← hty]
  · cases h

namespace Emitted

variable {c c₁ c' : Chunk} {r r' : Emitted} {jumps : List Nat}

/-- What was emitted after `c` leaves `c` alone, and its open jumps are still open. -/
structure Grows (c : Chunk) (r : Emitted) : Prop where
  code : c.Extends r.code
  breaks : ∀ j ∈ r.breaks, c.code.size ≤ j ∧ r.code.code[j]? = some (.ofSigned .jump 0)

namespace Grows

theorem lt (h : r.Grows c) {j : Nat} (hj : j ∈ r.breaks) : j < r.code.code.size :=
  (Array.getElem?_eq_some_iff.mp (h.breaks j hj).2).1

theorem behind (h : r.Grows c₁) (h₁ : c.Extends c₁) : r.Grows c :=
  ⟨h₁.trans h.code, fun j hj => ⟨Nat.le_trans h₁.size_le (h.breaks j hj).1, (h.breaks j hj).2⟩⟩

/-- More code comes after. -/
theorem extend (h : r.Grows c) (h' : r.code.Extends c') (scopes : Scopes) :
    Grows c ⟨scopes, r.breaks, c'⟩ := by
  refine ⟨h.code.trans h', fun j hj => ⟨(h.breaks j hj).1, ?_⟩⟩
  rw [h'.getElem? (h.lt hj)]
  exact (h.breaks j hj).2

theorem append (h : r.Grows c) (h' : r'.Grows r.code) :
    Grows c ⟨r'.scopes, r'.breaks ++ r.breaks, r'.code⟩ := by
  refine ⟨h.code.trans h'.code, fun j hj => ?_⟩
  rcases List.mem_append.mp hj with hj | hj
  · exact ⟨Nat.le_trans h.code.size_le (h'.breaks j hj).1, (h'.breaks j hj).2⟩
  · exact (h.extend h'.code r'.scopes).breaks j hj

/-- Jumps land that are not among the open ones. -/
theorem lands (h : r.Grows c) (hlands : r.code.Lands c' jumps)
    (hjumps : ∀ j ∈ jumps, c.code.size ≤ j) (hout : ∀ j ∈ jumps, j ∉ r.breaks) (scopes : Scopes) :
    Grows c ⟨scopes, r.breaks, c'⟩ := by
  refine ⟨h.code.lands hlands hjumps, fun j hj => ⟨(h.breaks j hj).1, ?_⟩⟩
  rw [hlands.others j fun hin => hout j hin hj]
  exact (h.breaks j hj).2

theorem land {a : Nat} (h : r.Grows c) (hland : r.code.land? a = some c') (ha : c.code.size ≤ a)
    (hout : a ∉ r.breaks) (scopes : Scopes) : Grows c ⟨scopes, r.breaks, c'⟩ := by
  refine h.lands (Chunk.land?_lands hland) (fun j hj => ?_) (fun j hj => ?_) scopes
  · rwa [List.mem_singleton.mp hj]
  · rwa [List.mem_singleton.mp hj]

end Grows

theorem leave?_eq_some (h : r.leave? = some r') :
    r.code.drop? (r.scopes.headD []).length = some r'.code ∧ r'.breaks = r.breaks ∧
      r'.scopes = r.scopes.tail := by
  obtain ⟨code, hdrop, rfl⟩ := Option.map_eq_some_iff.mp h
  exact ⟨hdrop, rfl, rfl⟩

/-- Behind a jump that waits: the jump is not one of those that leave the loop. -/
theorem Grows.not_mem_breaks {op : Opcode} (h : r.Grows (c.open_ op)) :
    c.code.size ∉ r.breaks := by
  intro hin
  have hlo := (h.breaks _ hin).1
  rw [Chunk.size_open_] at hlo
  omega

theorem Grows.leave (h : r.Grows c) (hleave : r.leave? = some r') : r'.Grows c := by
  obtain ⟨code, hdrop, rfl⟩ := Option.map_eq_some_iff.mp hleave
  exact h.extend (Chunk.drop?_extends hdrop) _

end Emitted

namespace Script

/-- A script is emitted behind what is there. -/
theorem emit?_grows {s : Script} {L : Option Loop} {Γ : Scopes} {c : Chunk} {r : Emitted}
    (h : s.emit? L Γ c = some r) : r.Grows c := by
  -- code is pushed at the end or a jump in it is given its target, and each waiting jump is in the
  -- part that is new
  induction s generalizing L Γ c r with
  | skip =>
    cases h
    exact ⟨.refl c, fun j hj => (nomatch hj)⟩
  | seq s t ihs iht =>
    obtain ⟨r₁, h₁, h⟩ := Option.bind_eq_some_iff.mp h
    obtain ⟨r₂, h₂, rfl⟩ := Option.map_eq_some_iff.mp h
    exact (ihs h₁).append (iht h₂)
  | var x e =>
    obtain ⟨⟨ty, c₁⟩, h₁, h⟩ := Option.bind_eq_some_iff.mp h
    split at h
    · cases h
      exact ⟨Tree.emit?_extends h₁, fun j hj => (nomatch hj)⟩
    · cases h
  | assign x e =>
    obtain ⟨v, -, h⟩ := Option.bind_eq_some_iff.mp h
    obtain ⟨⟨ty, c₁⟩, h₁, h⟩ := Option.bind_eq_some_iff.mp h
    split at h
    · cases h
      exact ⟨(Tree.emit?_extends h₁).trans (Chunk.extends_push _ _), fun j hj => (nomatch hj)⟩
    · cases h
  | when e s ih =>
    obtain ⟨c₁, h₁, h⟩ := Option.bind_eq_some_iff.mp h
    obtain ⟨r₁, hbody, h⟩ := Option.bind_eq_some_iff.mp h
    obtain ⟨c', hland, rfl⟩ := Option.map_eq_some_iff.mp h
    obtain ⟨r₀, h₀, hleave⟩ := Option.bind_eq_some_iff.mp hbody
    have hc₁ := Tree.emit?_extends (Tree.test?_eq_some h₁)
    have hgrows := (ih h₀).leave hleave
    exact (hgrows.behind (hc₁.trans (Chunk.extends_open_ _ _))).land hland hc₁.size_le
      hgrows.not_mem_breaks _
  | cond e s t ihs iht =>
    obtain ⟨c₁, h₁, h⟩ := Option.bind_eq_some_iff.mp h
    obtain ⟨r₁, hs, h⟩ := Option.bind_eq_some_iff.mp h
    obtain ⟨c₂, hland, h⟩ := Option.bind_eq_some_iff.mp h
    obtain ⟨r₂, ht, h⟩ := Option.bind_eq_some_iff.mp h
    obtain ⟨c', hland', rfl⟩ := Option.map_eq_some_iff.mp h
    obtain ⟨r₀, h₀, hleave⟩ := Option.bind_eq_some_iff.mp hs
    obtain ⟨r₀', h₀', hleave'⟩ := Option.bind_eq_some_iff.mp ht
    have hc₁ := Tree.emit?_extends (Tree.test?_eq_some h₁)
    have hfirst := (ihs h₀).leave hleave
    have hsecond := (iht h₀').leave hleave'
    have hsize₂ : c₂.code.size = r₁.code.code.size + 1 := by
      rw [(Chunk.land?_lands hland).size, Chunk.size_open_]
    -- the first branch with the jump behind it, then the second branch
    have hjump := ((hfirst.behind (hc₁.trans (Chunk.extends_open_ _ _))).extend
      (Chunk.extends_push _ _) r₁.scopes).land hland hc₁.size_le hfirst.not_mem_breaks r₁.scopes
    refine (hjump.append hsecond).land hland' ?_ ?_ _
    · exact (hfirst.behind (hc₁.trans (Chunk.extends_open_ _ _))).code.size_le
    · intro hin
      rcases List.mem_append.mp hin with hin | hin
      · have hlo := (hsecond.breaks _ hin).1
        omega
      · exact absurd (hfirst.lt hin) (Nat.lt_irrefl _)
  | while_ e s ih =>
    obtain ⟨c₁, h₁, h⟩ := Option.bind_eq_some_iff.mp h
    obtain ⟨r₁, hbody, h⟩ := Option.bind_eq_some_iff.mp h
    obtain ⟨c₂, hback, h⟩ := Option.bind_eq_some_iff.mp h
    obtain ⟨c₃, hland, h⟩ := Option.bind_eq_some_iff.mp h
    obtain ⟨c', hlands, rfl⟩ := Option.map_eq_some_iff.mp h
    obtain ⟨r₀, h₀, hleave⟩ := Option.bind_eq_some_iff.mp hbody
    have hc₁ := Tree.emit?_extends (Tree.test?_eq_some h₁)
    have hgrows := (ih h₀).leave hleave
    have hopen := hgrows.behind (hc₁.trans (Chunk.extends_open_ _ _))
    have hjump := (hopen.extend (Chunk.back?_extends hback) r₁.scopes).land hland hc₁.size_le
      hgrows.not_mem_breaks r₁.scopes
    refine ⟨hjump.code.lands (Chunk.landAll?_lands hlands) ?_, fun j hj => (nomatch hj)⟩
    exact fun j hj => (hopen.breaks j (List.mem_reverse.mp hj)).1
  | loop s ih =>
    obtain ⟨r₁, hbody, h⟩ := Option.bind_eq_some_iff.mp h
    obtain ⟨c₂, hback, h⟩ := Option.bind_eq_some_iff.mp h
    obtain ⟨c', hlands, rfl⟩ := Option.map_eq_some_iff.mp h
    obtain ⟨r₀, h₀, hleave⟩ := Option.bind_eq_some_iff.mp hbody
    have hgrows := (ih h₀).leave hleave
    refine ⟨(hgrows.code.trans (Chunk.back?_extends hback)).lands (Chunk.landAll?_lands hlands) ?_,
      fun j hj => (nomatch hj)⟩
    exact fun j hj => (hgrows.breaks j (List.mem_reverse.mp hj)).1
  | break_ =>
    obtain ⟨l, -, h⟩ := Option.bind_eq_some_iff.mp h
    obtain ⟨c₁, hdrop, rfl⟩ := Option.map_eq_some_iff.mp h
    have hc₁ := Chunk.drop?_extends hdrop
    refine ⟨hc₁.trans (Chunk.extends_open_ _ _), fun j hj => ?_⟩
    rw [List.mem_singleton.mp hj]
    exact ⟨hc₁.size_le, (Chunk.Extends.refl _).opened⟩
  | continue_ =>
    obtain ⟨l, -, h⟩ := Option.bind_eq_some_iff.mp h
    obtain ⟨c₁, hdrop, h⟩ := Option.bind_eq_some_iff.mp h
    obtain ⟨c', hback, rfl⟩ := Option.map_eq_some_iff.mp h
    exact ⟨(Chunk.drop?_extends hdrop).trans (Chunk.back?_extends hback), fun j hj => (nomatch hj)⟩

end Script

/-- A chunk has the code of an expression from one place to another. -/
def Tree.Placed (P : Chunk) (e : Tree) (Γ : Context) (ty : Scalar) (start next : Nat) : Prop :=
  ∃ c c', e.emit? Γ c = some (ty, c') ∧ P.Holds c c' ∧ c.code.size = start ∧ c'.code.size = next

/-- The loop around a script in a finished chunk, with the place behind it. -/
structure LoopPlace extends Loop where
  exit : Nat

namespace Script

/-- A chunk has the code of a script from one place to another, where the variables are those of
`Γ'` if they were those of `Γ`. -/
def Placed (P : Chunk) : Script → Option LoopPlace → Scopes → Nat → Nat → Scopes → Prop
  | skip, _, Γ, start, next, Γ' => next = start ∧ Γ' = Γ
  | seq s t, L, Γ, start, next, Γ' =>
    ∃ k Γ₁, s.Placed P L Γ start k Γ₁ ∧ t.Placed P L Γ₁ k next Γ'
  | var x e, _, Γ, start, next, Γ' =>
    ∃ ty, e.Placed P Γ.flatten ty start next ∧ Γ' = ((x, ty) :: Γ.headD []) :: Γ.tail
  | assign x e, _, Γ, start, next, Γ' =>
    ∃ ty slot k, slot? x Γ.flatten = some (ty, slot) ∧ slot < 65536 ∧
      e.Placed P Γ.flatten ty start k ∧
      P.code[k]? = some (.ofByteShort .storeGlobal 1 (UInt16.ofNat slot)) ∧ next = k + 1 ∧ Γ' = Γ
  | when e s, L, Γ, start, next, Γ' =>
    ∃ test k g, e.Placed P Γ.flatten .bool start test ∧ P.Jumps .jumpIfFalse test next ∧
      s.Placed P L ([] :: Γ) (test + 1) k (g :: Γ) ∧ P.Drops g.length k next ∧ Γ' = Γ
  | cond e s t, L, Γ, start, next, Γ' =>
    ∃ test k g jump k' g', e.Placed P Γ.flatten .bool start test ∧
      P.Jumps .jumpIfFalse test (jump + 1) ∧
      s.Placed P L ([] :: Γ) (test + 1) k (g :: Γ) ∧ P.Drops g.length k jump ∧
      P.Jumps .jump jump next ∧
      t.Placed P L ([] :: Γ) (jump + 1) k' (g' :: Γ) ∧ P.Drops g'.length k' next ∧ Γ' = Γ
  | while_ e s, _, Γ, start, next, Γ' =>
    ∃ test k g jump, e.Placed P Γ.flatten .bool start test ∧ P.Jumps .jumpIfFalse test next ∧
      s.Placed P (some ⟨⟨start, Γ.flatten.length⟩, next⟩) ([] :: Γ) (test + 1) k (g :: Γ) ∧
      P.Drops g.length k jump ∧ P.Jumps .jump jump start ∧ Γ' = Γ
  | loop s, _, Γ, start, next, Γ' =>
    ∃ k g jump, s.Placed P (some ⟨⟨start, Γ.flatten.length⟩, next⟩) ([] :: Γ) start k (g :: Γ) ∧
      P.Drops g.length k jump ∧ P.Jumps .jump jump start ∧ Γ' = Γ
  | break_, L, Γ, start, next, Γ' =>
    ∃ l k, L = some l ∧ P.Drops (Γ.flatten.length - l.words) start k ∧ P.Jumps .jump k l.exit ∧
      next = k + 1 ∧ Γ' = Γ
  | continue_, L, Γ, start, next, Γ' =>
    ∃ l k, L = some l ∧ P.Drops (Γ.flatten.length - l.words) start k ∧ P.Jumps .jump k l.start ∧
      next = k + 1 ∧ Γ' = Γ

section Finished

variable {P : Chunk} {L : Option Loop} {Γ : Scopes} {c c₁ : Chunk} {r : Emitted} {exit : Nat}

/-- The loop in the finished chunk, once it is known where its end is. -/
def finish (L : Option Loop) (exit : Nat) : Option LoopPlace :=
  L.map fun l => ⟨l, exit⟩

/-- A finished chunk has the code of a script that was emitted, if its jumps out of the loop land. -/
def Finishes (P : Chunk) (s : Script) : Prop :=
  ∀ {L : Option Loop} {Γ : Scopes} {c : Chunk} {r : Emitted} {exit : Nat},
    s.emit? L Γ c = some r → (∀ l ∈ L, l.start ≤ c.code.size) → P.HoldsBut c r.code r.breaks →
    (∀ j ∈ r.breaks, P.Jumps .jump j exit) →
    s.Placed P (finish L exit) Γ c.code.size r.code.code.size r.scopes

/-- The code of a body. -/
theorem Finishes.body {s : Script} (hs : s.Finishes P) (h : s.body? L Γ c = some r)
    (hstart : ∀ l ∈ L, l.start ≤ c.code.size) (hP : P.HoldsBut c r.code r.breaks)
    (hexit : ∀ j ∈ r.breaks, P.Jumps .jump j exit) :
    ∃ k g, s.Placed P (finish L exit) ([] :: Γ) c.code.size k (g :: Γ) ∧
      P.Drops g.length k r.code.code.size := by
  obtain ⟨r₀, h₀, hleave⟩ := Option.bind_eq_some_iff.mp h
  obtain ⟨hdrop, hbreaks, -⟩ := Emitted.leave?_eq_some hleave
  obtain ⟨new, hnew⟩ := emit?_scopes h₀
  have hgrows := emit?_grows h₀
  rw [hbreaks] at hP hexit
  rw [hnew] at hdrop
  refine ⟨r₀.code.code.size, new ++ [], ?_, ?_⟩
  · rw [← hnew]
    exact hs h₀ hstart (hP.left (Chunk.drop?_extends hdrop)) hexit
  · exact hP.drops hdrop hgrows.code fun hin => absurd (hgrows.lt hin) (Nat.lt_irrefl _)

/-- The code of a body behind a condition, with the jump over it.  Jumps are still open there and
behind the body. -/
theorem Finishes.guarded {s : Script} {e : Tree} {jumps : List Nat} (hs : s.Finishes P)
    (h₁ : e.test? Γ.flatten c = some c₁) (hbody : s.body? L Γ (c₁.open_ .jumpIfFalse) = some r)
    (hstart : ∀ l ∈ L, l.start ≤ c.code.size) (hP : P.HoldsBut c r.code jumps)
    (hlo : ∀ j ∈ jumps, c₁.code.size ≤ j)
    (hopen : ∀ j ∈ jumps, c₁.code.size < j → j < r.code.code.size → j ∈ r.breaks)
    (hexit : ∀ j ∈ r.breaks, P.Jumps .jump j exit) :
    e.Placed P Γ.flatten .bool c.code.size c₁.code.size ∧
      ∃ k g, s.Placed P (finish L exit) ([] :: Γ) (c₁.code.size + 1) k (g :: Γ) ∧
        P.Drops g.length k r.code.code.size := by
  obtain ⟨r₀, h₀, hleave⟩ := Option.bind_eq_some_iff.mp hbody
  have hc₁ := Tree.emit?_extends (Tree.test?_eq_some h₁)
  have hjump := Chunk.extends_open_ c₁ .jumpIfFalse
  have hcode := ((emit?_grows h₀).leave hleave).code
  have htest := (hP.left (hjump.trans hcode)).holds fun j hj _ => hlo j hj
  have hP₁ : P.HoldsBut (c₁.open_ .jumpIfFalse) r.code r.breaks := by
    refine (hP.right (hc₁.trans hjump)).weaken fun j hj hbehind hhi => hopen j hj ?_ hhi
    rwa [Chunk.size_open_] at hbehind
  have hplaced := hs.body hbody
    (fun l hl => Nat.le_trans (hstart l hl) (hc₁.trans hjump).size_le) hP₁ hexit
  rw [Chunk.size_open_] at hplaced
  exact ⟨⟨c, c₁, Tree.test?_eq_some h₁, htest, rfl, rfl⟩, hplaced⟩

theorem finishes_skip : skip.Finishes P := by
  intro L Γ c r exit h _ _ _
  cases h
  exact ⟨rfl, rfl⟩

theorem Finishes.seq {s t : Script} (hs : s.Finishes P) (ht : t.Finishes P) :
    (seq s t).Finishes P := by
  intro L Γ c r exit h hstart hP hexit
  obtain ⟨r₁, h₁, h⟩ := Option.bind_eq_some_iff.mp h
  obtain ⟨r₂, h₂, rfl⟩ := Option.map_eq_some_iff.mp h
  have hfirst := emit?_grows h₁
  have hsecond := emit?_grows h₂
  have hP₁ : P.HoldsBut c r₁.code r₁.breaks := by
    refine (hP.left hsecond.code).weaken fun j hj _ hhi => ?_
    refine (List.mem_append.mp hj).resolve_left fun hin => ?_
    exact Nat.not_lt.mpr (hsecond.breaks j hin).1 hhi
  have hP₂ : P.HoldsBut r₁.code r₂.code r₂.breaks := by
    refine (hP.right hfirst.code).weaken fun j hj hlo _ => ?_
    refine (List.mem_append.mp hj).resolve_right fun hin => ?_
    exact Nat.not_lt.mpr hlo (hfirst.lt hin)
  have hplaced₁ := hs h₁ hstart hP₁ fun j hj => hexit j (List.mem_append_right _ hj)
  have hplaced₂ := ht h₂ (fun l hl => Nat.le_trans (hstart l hl) hfirst.code.size_le) hP₂
    fun j hj => hexit j (List.mem_append_left _ hj)
  exact ⟨_, _, hplaced₁, hplaced₂⟩

theorem finishes_var (x : String) (e : Tree) : (var x e).Finishes P := by
  intro L Γ c r exit h _ hP _
  obtain ⟨⟨ty, c₁⟩, h₁, h⟩ := Option.bind_eq_some_iff.mp h
  split at h
  · cases h
    exact ⟨ty, ⟨c, c₁, h₁, hP.holds fun j hj _ => (nomatch hj), rfl, rfl⟩, rfl⟩
  · cases h

theorem finishes_assign (x : String) (e : Tree) : (assign x e).Finishes P := by
  intro L Γ c r exit h _ hP _
  obtain ⟨⟨ty, slot⟩, hslot, h⟩ := Option.bind_eq_some_iff.mp h
  obtain ⟨⟨ty', c₁⟩, h₁, h⟩ := Option.bind_eq_some_iff.mp h
  split at h
  · next hfits =>
    cases h
    obtain ⟨rfl, hlt⟩ : ty = ty' ∧ slot < 65536 := hfits
    have hholds := (hP.left (Chunk.extends_push _ _)).holds fun j hj _ => (nomatch hj)
    exact ⟨ty, slot, c₁.code.size, hslot, hlt, ⟨c, c₁, h₁, hholds, rfl, rfl⟩,
      hP.push (Tree.emit?_extends h₁) List.not_mem_nil, Array.size_push _, rfl⟩
  · cases h

theorem Finishes.when {s : Script} (hs : s.Finishes P) (e : Tree) : (when e s).Finishes P := by
  intro L Γ c r exit h hstart hP hexit
  obtain ⟨c₁, h₁, h⟩ := Option.bind_eq_some_iff.mp h
  obtain ⟨r₁, hbody, h⟩ := Option.bind_eq_some_iff.mp h
  obtain ⟨c', hland, rfl⟩ := Option.map_eq_some_iff.mp h
  obtain ⟨r₀, h₀, hleave⟩ := Option.bind_eq_some_iff.mp hbody
  have hc₁ := Tree.emit?_extends (Tree.test?_eq_some h₁)
  have hgrows := (emit?_grows h₀).leave hleave
  have hlands := Chunk.land?_lands hland
  have hsize : c'.code.size = r₁.code.code.size := hlands.size
  have hlo : ∀ j ∈ r₁.breaks, c₁.code.size + 1 ≤ j := fun j hj => by
    rw [← Chunk.size_open_]
    exact (hgrows.breaks j hj).1
  obtain ⟨htest, k, g, hplaced, hdrops⟩ := hs.guarded h₁ hbody hstart (hP.lands hlands)
    (by grind) (by grind) hexit
  have hjump := hP.landed hlands (List.mem_singleton_self _) hc₁.size_le hgrows.code.opened
    hgrows.not_mem_breaks
  rw [← hsize] at hjump hdrops
  have hscopes : r₁.scopes = Γ := body?_scopes hbody
  exact ⟨c₁.code.size, k, g, htest, hjump, hplaced, hdrops, hscopes⟩

theorem Finishes.cond {s t : Script} (hs : s.Finishes P) (ht : t.Finishes P) (e : Tree) :
    (cond e s t).Finishes P := by
  intro L Γ c r exit h hstart hP hexit
  obtain ⟨c₁, h₁, h⟩ := Option.bind_eq_some_iff.mp h
  obtain ⟨r₁, hbody, h⟩ := Option.bind_eq_some_iff.mp h
  obtain ⟨c₂, hland, h⟩ := Option.bind_eq_some_iff.mp h
  obtain ⟨r₂, hbody', h⟩ := Option.bind_eq_some_iff.mp h
  obtain ⟨c', hland', rfl⟩ := Option.map_eq_some_iff.mp h
  obtain ⟨r₀, h₀, hleave⟩ := Option.bind_eq_some_iff.mp hbody
  obtain ⟨r₀', h₀', hleave'⟩ := Option.bind_eq_some_iff.mp hbody'
  have hscopes : r₁.scopes = Γ := body?_scopes hbody
  have hscopes' : r₂.scopes = r₁.scopes := body?_scopes hbody'
  have hc₁ := Tree.emit?_extends (Tree.test?_eq_some h₁)
  have hfirst := (emit?_grows h₀).leave hleave
  have hsecond := (emit?_grows h₀').leave hleave'
  have hlands := Chunk.land?_lands hland
  have hlands' := Chunk.land?_lands hland'
  have hsize : c'.code.size = r₂.code.code.size := hlands'.size
  have hsize₂ : c₂.code.size = r₁.code.code.size + 1 := by
    rw [hlands.size, Chunk.size_open_]
  have hlo₁ : ∀ j ∈ r₁.breaks, c₁.code.size + 1 ≤ j ∧ j < r₁.code.code.size := fun j hj => by
    rw [← Chunk.size_open_]
    exact ⟨(hfirst.breaks j hj).1, hfirst.lt hj⟩
  have hlo₂ : ∀ j ∈ r₂.breaks, r₁.code.code.size + 1 ≤ j := fun j hj => by
    rw [← hsize₂]
    exact (hsecond.breaks j hj).1
  have hlt : c₁.code.size + 1 ≤ r₁.code.code.size := by
    rw [← Chunk.size_open_]
    exact hfirst.code.size_le
  have hle : c.code.size ≤ c₁.code.size := hc₁.size_le
  have hc₂ : c.Extends c₂ :=
    (((hc₁.trans (Chunk.extends_open_ _ _)).trans hfirst.code).trans
      (Chunk.extends_open_ _ _)).lands hlands (by grind)
  -- the second branch, behind the jump over it
  have hP₂ := hP.lands hlands'
  obtain ⟨k', g', hplaced', hdrops'⟩ := ht.body hbody'
    (fun l hl => Nat.le_trans (hstart l hl) hc₂.size_le)
    ((hP₂.right hc₂).weaken (by grind)) fun j hj => hexit j (List.mem_append_left _ hj)
  have hopened : r₂.code.code[r₁.code.code.size]? = some (.ofSigned .jump 0) := by
    rw [hsecond.code.getElem? (by omega), hlands.others _ (by grind)]
    exact (Chunk.Extends.refl _).opened
  have hjump := hP.landed hlands' (List.mem_singleton_self _) (by omega) hopened (by grind)
  -- the first branch, behind the condition
  have hP₁ := hP₂.left hsecond.code
  obtain ⟨htest, k, g, hplaced, hdrops⟩ := hs.guarded h₁ hbody hstart
    ((hP₁.lands hlands).left (Chunk.extends_open_ _ _)) (by grind) (by grind)
    fun j hj => hexit j (List.mem_append_right _ hj)
  have hskip := hP₁.landed hlands (List.mem_singleton_self _) hle
    (hfirst.code.trans (Chunk.extends_open_ _ _)).opened (by grind)
  rw [Chunk.size_open_] at hskip
  rw [hsize₂, hscopes] at hplaced'
  rw [← hsize] at hjump hdrops'
  exact ⟨c₁.code.size, k, g, r₁.code.code.size, k', g', htest, hskip, hplaced, hdrops, hjump,
    hplaced', hdrops', hscopes'.trans hscopes⟩

/-- The jumps that leave a loop land behind it. -/
theorem jumps_of_lands {c' : Chunk} {breaks : List Nat} (hP : P.HoldsBut c c' [])
    (hlands : c₁.Lands c' breaks.reverse)
    (hopen : ∀ j ∈ breaks, c.code.size ≤ j ∧ c₁.code[j]? = some (.ofSigned .jump 0)) :
    ∀ j ∈ breaks, P.Jumps .jump j c'.code.size := by
  intro j hj
  rw [hlands.size]
  exact hP.landed hlands (List.mem_reverse.mpr hj) (hopen j hj).1 (hopen j hj).2 List.not_mem_nil

theorem Finishes.while_ {s : Script} (hs : s.Finishes P) (e : Tree) : (while_ e s).Finishes P := by
  intro L Γ c r exit h hstart hP hexit
  obtain ⟨c₁, h₁, h⟩ := Option.bind_eq_some_iff.mp h
  obtain ⟨r₁, hbody, h⟩ := Option.bind_eq_some_iff.mp h
  obtain ⟨c₂, hback, h⟩ := Option.bind_eq_some_iff.mp h
  obtain ⟨c₃, hland, h⟩ := Option.bind_eq_some_iff.mp h
  obtain ⟨c', hlandAll, rfl⟩ := Option.map_eq_some_iff.mp h
  obtain ⟨r₀, h₀, hleave⟩ := Option.bind_eq_some_iff.mp hbody
  have hscopes : r₁.scopes = Γ := body?_scopes hbody
  have hc₁ := Tree.emit?_extends (Tree.test?_eq_some h₁)
  have hgrows := (emit?_grows h₀).leave hleave
  have hopen := hgrows.behind (hc₁.trans (Chunk.extends_open_ _ _))
  have hjumped := (hopen.extend (Chunk.back?_extends hback) Γ).land hland hc₁.size_le
    hgrows.not_mem_breaks Γ
  have hland := Chunk.land?_lands hland
  have hlands := Chunk.landAll?_lands hlandAll
  have hsize : c'.code.size = c₂.code.size := hlands.size.trans hland.size
  -- the exits lie inside the body, behind the jump that skips it
  have hlo : ∀ j ∈ r₁.breaks, c₁.code.size + 1 ≤ j ∧ j < r₁.code.code.size := fun j hj => by
    rw [← Chunk.size_open_]
    exact ⟨(hgrows.breaks j hj).1, hgrows.lt hj⟩
  have hlt : c₁.code.size + 1 ≤ r₁.code.code.size := by
    rw [← Chunk.size_open_]
    exact hgrows.code.size_le
  have hexits := jumps_of_lands hP hlands hjumped.breaks
  -- the code is final but for the exits, then but for the jump over the body
  have hP₃ := hP.lands hlands
  have hP₂ := hP₃.lands hland
  obtain ⟨htest, k, g, hplaced, hdrops⟩ := hs.guarded h₁ hbody (by simp)
    (hP₂.left (Chunk.back?_extends hback)) (by grind) (by grind) hexits
  have hskip := hP₃.landed hland (List.mem_singleton_self _) hc₁.size_le
    (hgrows.code.trans (Chunk.back?_extends hback)).opened (by grind)
  have hjump := (hP₂.back hback hopen.code (by grind) hopen.code.size_le).1
  rw [← hsize] at hskip
  exact ⟨c₁.code.size, k, g, r₁.code.code.size, htest, hskip, hplaced, hdrops, hjump, hscopes⟩

theorem Finishes.loop {s : Script} (hs : s.Finishes P) : (loop s).Finishes P := by
  intro L Γ c r exit h hstart hP hexit
  obtain ⟨r₁, hbody, h⟩ := Option.bind_eq_some_iff.mp h
  obtain ⟨c₂, hback, h⟩ := Option.bind_eq_some_iff.mp h
  obtain ⟨c', hlandAll, rfl⟩ := Option.map_eq_some_iff.mp h
  obtain ⟨r₀, h₀, hleave⟩ := Option.bind_eq_some_iff.mp hbody
  have hscopes : r₁.scopes = Γ := body?_scopes hbody
  have hgrows := (emit?_grows h₀).leave hleave
  have hlands := Chunk.landAll?_lands hlandAll
  have hlt : ∀ j ∈ r₁.breaks, j < r₁.code.code.size := fun j hj => hgrows.lt hj
  have hexits := jumps_of_lands hP hlands (hgrows.extend (Chunk.back?_extends hback) Γ).breaks
  have hP₂ := hP.lands hlands
  obtain ⟨k, g, hplaced, hdrops⟩ := hs.body hbody (by simp)
    ((hP₂.left (Chunk.back?_extends hback)).weaken (by grind)) hexits
  have hjump := (hP₂.back hback hgrows.code (by grind) hgrows.code.size_le).1
  exact ⟨k, g, r₁.code.code.size, hplaced, hdrops, hjump, hscopes⟩

theorem finishes_break_ : break_.Finishes P := by
  intro L Γ c r exit h _ hP hexit
  obtain ⟨l, rfl, h⟩ := Option.bind_eq_some_iff.mp h
  obtain ⟨c₁, hdrop, rfl⟩ := Option.map_eq_some_iff.mp h
  have hP₁ : P.HoldsBut c c₁ [] := by
    refine (hP.left (Chunk.extends_open_ _ _)).weaken fun j hj _ hhi => ?_
    exact absurd hhi (by rw [List.mem_singleton.mp hj]; exact Nat.lt_irrefl _)
  exact ⟨⟨l, exit⟩, c₁.code.size, rfl, hP₁.drops hdrop (.refl c) List.not_mem_nil,
    hexit _ (List.mem_singleton_self _), Chunk.size_open_ _ _, rfl⟩

theorem finishes_continue_ : continue_.Finishes P := by
  intro L Γ c r exit h hstart hP _
  obtain ⟨l, rfl, hrest⟩ := Option.bind_eq_some_iff.mp h
  obtain ⟨c₁, hdrop, hrest⟩ := Option.bind_eq_some_iff.mp hrest
  obtain ⟨c', hback, rfl⟩ := Option.map_eq_some_iff.mp hrest
  have hc₁ := Chunk.drop?_extends hdrop
  have hle : l.start ≤ c₁.code.size := Nat.le_trans (hstart l (Option.mem_some_self l)) hc₁.size_le
  have hP : P.HoldsBut c c' [] := hP
  have hP₁ := hP.left (Chunk.back?_extends hback)
  obtain ⟨hjump, hsize⟩ := hP.back hback hc₁ List.not_mem_nil hle
  exact ⟨⟨l, exit⟩, c₁.code.size, rfl, hP₁.drops hdrop (.refl c) List.not_mem_nil, hjump, hsize,
    rfl⟩

/-- A finished chunk has the code of a script in it. -/
theorem finishes (P : Chunk) (s : Script) : s.Finishes P := by
  induction s with
  | skip => exact finishes_skip
  | seq s t ihs iht => exact ihs.seq iht
  | var x e => exact finishes_var x e
  | assign x e => exact finishes_assign x e
  | when e s ih => exact ih.when e
  | cond e s t ihs iht => exact ihs.cond iht e
  | while_ e s ih => exact ih.while_ e
  | loop s ih => exact ih.loop
  | break_ => exact finishes_break_
  | continue_ => exact finishes_continue_

/-- Outside a loop there is nothing to leave. -/
theorem breaks_of_emit? {s : Script} (h : s.emit? none Γ c = some r) : r.breaks = [] := by
  induction s generalizing Γ c r with
  | skip =>
    cases h
    rfl
  | seq s t ihs iht =>
    obtain ⟨r₁, h₁, h⟩ := Option.bind_eq_some_iff.mp h
    obtain ⟨r₂, h₂, rfl⟩ := Option.map_eq_some_iff.mp h
    show r₂.breaks ++ r₁.breaks = []
    rw [iht h₂, ihs h₁, List.append_nil]
  | var x e =>
    obtain ⟨r₁, -, h⟩ := Option.bind_eq_some_iff.mp h
    split at h <;> cases h
    rfl
  | assign x e =>
    obtain ⟨v, -, h⟩ := Option.bind_eq_some_iff.mp h
    obtain ⟨r₁, -, h⟩ := Option.bind_eq_some_iff.mp h
    split at h <;> cases h
    rfl
  | when e s ih =>
    obtain ⟨c₁, -, h⟩ := Option.bind_eq_some_iff.mp h
    obtain ⟨r₁, hbody, h⟩ := Option.bind_eq_some_iff.mp h
    obtain ⟨c', -, rfl⟩ := Option.map_eq_some_iff.mp h
    obtain ⟨r₀, h₀, hleave⟩ := Option.bind_eq_some_iff.mp hbody
    exact (Emitted.leave?_eq_some hleave).2.1.trans (ih h₀)
  | cond e s t ihs iht =>
    obtain ⟨c₁, -, h⟩ := Option.bind_eq_some_iff.mp h
    obtain ⟨r₁, hbody, h⟩ := Option.bind_eq_some_iff.mp h
    obtain ⟨c₂, -, h⟩ := Option.bind_eq_some_iff.mp h
    obtain ⟨r₂, hbody', h⟩ := Option.bind_eq_some_iff.mp h
    obtain ⟨c', -, rfl⟩ := Option.map_eq_some_iff.mp h
    obtain ⟨r₀, h₀, hleave⟩ := Option.bind_eq_some_iff.mp hbody
    obtain ⟨r₀', h₀', hleave'⟩ := Option.bind_eq_some_iff.mp hbody'
    show r₂.breaks ++ r₁.breaks = []
    rw [(Emitted.leave?_eq_some hleave).2.1, (Emitted.leave?_eq_some hleave').2.1, ihs h₀, iht h₀',
      List.append_nil]
  | while_ e s =>
    obtain ⟨c₁, -, h⟩ := Option.bind_eq_some_iff.mp h
    obtain ⟨r₁, -, h⟩ := Option.bind_eq_some_iff.mp h
    obtain ⟨c₂, -, h⟩ := Option.bind_eq_some_iff.mp h
    obtain ⟨c₃, -, h⟩ := Option.bind_eq_some_iff.mp h
    obtain ⟨c', -, rfl⟩ := Option.map_eq_some_iff.mp h
    rfl
  | loop s =>
    obtain ⟨r₁, -, h⟩ := Option.bind_eq_some_iff.mp h
    obtain ⟨c₂, -, h⟩ := Option.bind_eq_some_iff.mp h
    obtain ⟨c', -, rfl⟩ := Option.map_eq_some_iff.mp h
    rfl
  | break_ => cases h
  | continue_ => cases h

/-- A chunk that begins with the code of a script outside any loop has that code in it. -/
theorem placed_of_emit? {s : Script} (h : s.emit? none Γ c = some r) (hP : r.code.Extends P) :
    s.Placed P none Γ c.code.size r.code.code.size r.scopes := by
  have hbreaks := breaks_of_emit? h
  show s.Placed P (finish none 0) Γ c.code.size r.code.code.size r.scopes
  refine finishes P s h (fun l hl => (nomatch hl)) ?_ ?_
  · exact ⟨fun j _ hj _ => hP.getElem? hj, hP.size_le, hP.constants⟩
  · intro j hj
    rw [hbreaks] at hj
    exact nomatch hj

end Finished

end Script

end WordScript
