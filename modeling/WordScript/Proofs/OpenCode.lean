/-
Code under construction.

A chunk that is being compiled has heights like a finished one, except that some
jumps have no target yet and that control may still reach its end, where the next
instruction will stand.

* `Chunk.Open` — open code: the jumps that wait for a target, the places that later
  jumps go to, and the height at the end;
* `Chunk.Open.push`, `Chunk.Open.patch`, `Chunk.Open.label` — what the compiler
  does to it;
* `Chunk.Open.close` — an instruction after which control does not go on makes it
  a chunk with a shape;
* `Chunk.Extends`, `Chunk.Adds` — more code, and more code that control passes
  straight through;
* `Chunk.Holds` — a chunk has the code that was added to another one;
* `Chunk.Adds.gain` — such code changes the height by the same amount in any shape.

Design notes: waiting jumps and labels are lists of a place and its height, and
nothing but membership in them counts.  What is proved about a part of the compiler
is proved for all such lists, so that the jumps and labels of the code around it are
known to be left alone.
-/
import WordScript.Proofs.Operands
import WordScript.Proofs.StackShape

namespace WordScript

variable {L L' : Linkage} {shape : Option ChunkShape}

namespace Instruction

theorem Admits.mono (hL : L.Le L') {constants : Array Word} (ws : Array Word) {height : Nat}
    {i : Instruction} {op : Opcode} (h : i.Admits L shape constants height op) :
    i.Admits L' shape (constants ++ ws) height op := by
  cases op with
  | call =>
    obtain ⟨s, hs, h⟩ := h
    exact ⟨s, hL.chunk hs, h⟩
  | callExternal =>
    obtain ⟨s, hs, h⟩ := h
    exact ⟨s, hL.external hs, h⟩
  | loadConstant =>
    have h : i.short.toNat < constants.size := h
    show i.short.toNat < (constants ++ ws).size
    rw [Array.size_append]
    omega
  | loadHeapConstant =>
    obtain ⟨payload, hpayload, h⟩ := h
    refine ⟨payload, ?_, ?_⟩
    · rw [Array.getElem?_append_left (by omega)]
      exact hpayload
    · rw [Array.size_append]
      omega
  | _ => exact h

theorem pushes_eq_of_le (hL : L.Le L') {constants : Array Word} {height : Nat} {i : Instruction}
    {op : Opcode} (h : i.Admits L shape constants height op) : i.pushes L' op = i.pushes L op := by
  cases op with
  | call =>
    obtain ⟨s, hs, -⟩ := h
    simp only [pushes, hs, hL.chunk hs]
  | callExternal =>
    obtain ⟨s, hs, -⟩ := h
    simp only [pushes, hs, hL.external hs]
  | _ => rfl

/-- An instruction still passes when more is linked, more constants are there and the code goes on
further. -/
theorem Passes.mono {constants : Array Word} {heights heights' : Nat → Nat} {n n' ip : Nat}
    {i : Instruction} {op : Opcode} (h : i.Passes L shape constants heights n ip op) (hL : L.Le L')
    (ws : Array Word) (hheights : ∀ k ≤ n, heights' k = heights k) (hip : ip ≤ n) (hn : n ≤ n') :
    i.Passes L' shape (constants ++ ws) heights' n' ip op := by
  constructor
  · exact h.opcode
  · rw [hheights ip hip]
    exact h.pops_le
  · rw [hheights ip hip]
    exact h.admits.mono hL ws
  · intro hfalls
    obtain ⟨hlt, hnext⟩ := h.next hfalls
    rw [hheights ip hip, hheights (ip + 1) hlt, pushes_eq_of_le hL h.admits]
    exact ⟨by omega, hnext⟩

theorem Lands.mono {heights heights' : Nat → Nat} {n n' : Nat} {at_ : Int} {height : Nat}
    (h : Lands heights n at_ height) (hheights : ∀ k ≤ n, heights' k = heights k) (hn : n ≤ n') :
    Lands heights' n' at_ height := by
  obtain ⟨k, hk, hle, hheight⟩ := h
  exact ⟨k, hk, by omega, by rw [hheights k hle, hheight]⟩

theorem Fits.mono {constants : Array Word} {heights : Nat → Nat} {n ip : Nat} {i : Instruction}
    {op : Opcode} (h : i.Fits L shape constants heights n ip op) (hL : L.Le L') (hip : ip ≤ n) :
    i.Fits L' shape constants heights n ip op := by
  have hpasses := h.toPasses.mono hL #[] (fun _ _ => rfl) hip (Nat.le_refl n)
  rw [Array.append_empty] at hpasses
  exact ⟨hpasses, h.target⟩

end Instruction

/-! ### Code that is added -/

namespace Chunk

/-- A chunk to which code and constants have been added. -/
structure Extends (c c' : Chunk) : Prop where
  code : c.code.toList <+: c'.code.toList
  constants : c.constants.toList <+: c'.constants.toList

/-- The chunk `P` has the code that was added to `c` to make it `c'`, and the constants. -/
structure Holds (P c c' : Chunk) : Prop where
  code : ∀ j, c.code.size ≤ j → j < c'.code.size → P.code[j]? = c'.code[j]?
  constants : c'.constants.toList <+: P.constants.toList

instance (P c c' : Chunk) : Decidable (P.Holds c c') :=
  decidable_of_iff ((∀ j < c'.code.size, c.code.size ≤ j → P.code[j]? = c'.code[j]?) ∧
      c'.constants.toList <+: P.constants.toList)
    ⟨fun h => ⟨fun j hle hlt => h.1 j hlt hle, h.2⟩, fun h => ⟨fun j hlt hle => h.code j hle hlt, h.constants⟩⟩

variable {P c c₁ c₂ : Chunk}

theorem Extends.refl (c : Chunk) : c.Extends c :=
  ⟨List.prefix_refl _, List.prefix_refl _⟩

theorem Extends.trans (h₁ : c.Extends c₁) (h₂ : c₁.Extends c₂) : c.Extends c₂ :=
  ⟨h₁.code.trans h₂.code, h₁.constants.trans h₂.constants⟩

theorem Extends.size_le (h : c.Extends c₁) : c.code.size ≤ c₁.code.size :=
  h.code.length_le

theorem getElem?_of_extends {α : Type} {xs ys : Array α} (h : xs.toList <+: ys.toList) {j : Nat}
    (hj : j < xs.size) : ys[j]? = xs[j]? := by
  have hget := List.prefix_iff_getElem?.mp h j (by simpa using hj)
  rw [← Array.getElem?_toList, hget, Array.getElem?_eq_getElem hj, Array.getElem_toList]

theorem Extends.getElem? (h : c.Extends c₁) {j : Nat} (hj : j < c.code.size) :
    c₁.code[j]? = c.code[j]? :=
  getElem?_of_extends h.code hj

/-- The first part of what was added. -/
theorem Holds.left (h : P.Holds c c₂) (h₂ : c₁.Extends c₂) : P.Holds c c₁ := by
  refine ⟨fun j hlo hhi => ?_, h₂.constants.trans h.constants⟩
  rw [h.code j hlo (Nat.lt_of_lt_of_le hhi h₂.size_le), h₂.getElem? hhi]

/-- The last part of what was added. -/
theorem Holds.right (h : P.Holds c c₂) (h₁ : c.Extends c₁) : P.Holds c₁ c₂ :=
  ⟨fun j hlo hhi => h.code j (Nat.le_trans h₁.size_le hlo) hhi, h.constants⟩

/-- Code stays where it is when more is added. -/
theorem Extends.holds (h : c₁.Extends P) (c : Chunk) : P.Holds c c₁ :=
  ⟨fun _ _ hhi => h.getElem? hhi, h.constants⟩

/-- Code and constants have been added, and control passes through the code from its beginning to its
end. -/
structure Adds (c c' : Chunk) : Prop extends c.Extends c' where
  straight : ∀ (j : Nat) (i : Instruction), c.code.size ≤ j → c'.code[j]? = some i →
    ∃ op, i.opcode? = some op ∧ op.isStraight = true

theorem Adds.refl (c : Chunk) : c.Adds c := by
  refine ⟨.refl c, fun j i hle hi => ?_⟩
  exact absurd (Array.getElem?_eq_some_iff.mp hi).1 (Nat.not_lt.mpr hle)

theorem Adds.trans (h₁ : c.Adds c₁) (h₂ : c₁.Adds c₂) : c.Adds c₂ := by
  refine ⟨h₁.toExtends.trans h₂.toExtends, fun j i hle hi => ?_⟩
  by_cases hj : j < c₁.code.size
  · exact h₁.straight j i hle ((h₂.toExtends.getElem? hj).symm.trans hi)
  · exact h₂.straight j i (Nat.not_lt.mp hj) hi

theorem adds_push (c : Chunk) {i : Instruction} {op : Opcode} (hop : i.opcode? = some op)
    (hstraight : op.isStraight = true) : c.Adds { c with code := c.code.push i } := by
  refine ⟨⟨?_, List.prefix_refl _⟩, fun j i' hle hi' => ⟨op, ?_, hstraight⟩⟩
  · rw [Array.toList_push]
    exact List.prefix_append _ _
  · have hlt : j < (c.code.push i).size := (Array.getElem?_eq_some_iff.mp hi').1
    rw [Array.size_push] at hlt
    obtain rfl : j = c.code.size := by omega
    obtain rfl : i = i' := Option.some_inj.mp (Array.getElem?_push_size.symm.trans hi')
    exact hop

theorem adds_constants (c : Chunk) (ws : Array Word) :
    c.Adds { c with constants := c.constants ++ ws } := by
  refine ⟨⟨List.prefix_refl _, ?_⟩, (Adds.refl c).straight⟩
  rw [Array.toList_append]
  exact List.prefix_append _ _

end Chunk

/-! ### Open code -/

namespace Chunk

theorem Shaped.mono {c : Chunk} {heights : Nat → Nat} (h : c.Shaped L shape heights)
    (hL : L.Le L') : c.Shaped L' shape heights := by
  refine ⟨h.nonempty, h.entry, fun ip i hi => ?_, h.last⟩
  obtain ⟨op, hfits⟩ := h.fits ip i hi
  have hlt : ip < c.code.size := (Array.getElem?_eq_some_iff.mp hi).1
  exact ⟨op, hfits.mono hL (by omega)⟩

/-- Code under construction with the heights of its places.  The jumps in `jumps` wait for a target
of the height that is given; control comes to the places in `labels` with the height that is given. -/
structure OpenAt (L : Linkage) (shape : Option ChunkShape) (jumps labels : List (Nat × Nat))
    (height : Nat) (heights : Nat → Nat) (c : Chunk) : Prop where
  entry : heights 0 = entryHeight shape
  top : heights c.code.size = height
  reached : ∀ l ∈ labels, l.1 ≤ c.code.size ∧ heights l.1 = l.2
  waiting : ∀ j ∈ jumps, ∃ i op, c.code[j.1]? = some i ∧ i.opcode? = some op ∧ op.jumps = true ∧
    heights j.1 - i.pops op = j.2
  passes : ∀ (ip : Nat) (i : Instruction), c.code[ip]? = some i →
    ∃ op, i.Passes L shape c.constants heights c.code.size ip op ∧
      (op.jumps = true →
        Instruction.Lands heights c.code.size (i.target ip) (heights ip - i.pops op) ∨
        (ip, heights ip - i.pops op) ∈ jumps)

/-- Code under construction whose end is reached with a frame of `height` words. -/
def Open (L : Linkage) (shape : Option ChunkShape) (jumps labels : List (Nat × Nat)) (height : Nat)
    (c : Chunk) : Prop :=
  ∃ heights, OpenAt L shape jumps labels height heights c

namespace Open

variable {jumps jumps' labels labels' : List (Nat × Nat)} {height : Nat} {c : Chunk}

/-- The code of a function begins with its parameters on the stack. -/
theorem start (L : Linkage) (shape : Option ChunkShape) (name : String) :
    Open L shape [] [] (entryHeight shape) ⟨name, #[], #[]⟩ := by
  refine ⟨fun _ => entryHeight shape, rfl, rfl, ?_, ?_, ?_⟩
  · exact fun l hl => nomatch hl
  · exact fun j hj => nomatch hj
  · exact fun ip i hi => nomatch hi

theorem link (h : c.Open L shape jumps labels height) (hL : L.Le L') :
    c.Open L' shape jumps labels height := by
  obtain ⟨heights, h⟩ := h
  refine ⟨heights, h.entry, h.top, h.reached, h.waiting, fun ip i hi => ?_⟩
  obtain ⟨op, hpasses, hjumps⟩ := h.passes ip i hi
  have hlt : ip < c.code.size := (Array.getElem?_eq_some_iff.mp hi).1
  have hpasses := hpasses.mono hL #[] (fun _ _ => rfl) (by omega) (Nat.le_refl _)
  rw [Array.append_empty] at hpasses
  exact ⟨op, hpasses, hjumps⟩

/-- Only membership in the lists counts, and labels may be forgotten. -/
theorem congr (h : c.Open L shape jumps labels height) (hjumps : ∀ j, j ∈ jumps ↔ j ∈ jumps')
    (hlabels : ∀ l ∈ labels', l ∈ labels) : c.Open L shape jumps' labels' height := by
  obtain ⟨heights, h⟩ := h
  refine ⟨heights, h.entry, h.top, fun l hl => h.reached l (hlabels l hl),
    fun j hj => h.waiting j ((hjumps j).mpr hj), fun ip i hi => ?_⟩
  obtain ⟨op, hpasses, htarget⟩ := h.passes ip i hi
  exact ⟨op, hpasses, fun hop => (htarget hop).imp_right (hjumps _).mp⟩

/-- The end of the code may become a label. -/
theorem label (h : c.Open L shape jumps labels height) :
    c.Open L shape jumps ((c.code.size, height) :: labels) height := by
  obtain ⟨heights, h⟩ := h
  refine ⟨heights, h.entry, h.top, fun l hl => ?_, h.waiting, h.passes⟩
  cases hl with
  | head => exact ⟨Nat.le_refl _, h.top⟩
  | tail _ hl => exact h.reached l hl

theorem pushConstants (h : c.Open L shape jumps labels height) (ws : Array Word) :
    Open L shape jumps labels height { c with constants := c.constants ++ ws } := by
  obtain ⟨heights, h⟩ := h
  refine ⟨heights, h.entry, h.top, h.reached, h.waiting, fun ip i hi => ?_⟩
  obtain ⟨op, hpasses, hjumps⟩ := h.passes ip i hi
  have hlt : ip < c.code.size := (Array.getElem?_eq_some_iff.mp hi).1
  exact ⟨op, hpasses.mono (.refl L) ws (fun _ _ => rfl) (by omega) (Nat.le_refl _), hjumps⟩

/-- An instruction at the end.  If it jumps, its target is a label or it waits for one; where control
does not go on, the next instruction may have any height. -/
theorem push (h : c.Open L shape jumps labels height) {i : Instruction} {op : Opcode}
    (hop : i.opcode? = some op) (hpops : i.pops op ≤ height)
    (hadmits : i.Admits L shape c.constants height op) {height' : Nat}
    (hnext : op.fallsThrough = true → height' = height - i.pops op + i.pushes L op)
    (hkeep : ∀ j ∈ jumps, j ∈ jumps')
    (hnew : ∀ j ∈ jumps', j ∈ jumps ∨ op.jumps = true ∧ j = (c.code.size, height - i.pops op))
    (htarget : op.jumps = true →
      (∃ k : Nat, i.target c.code.size = k ∧ (k, height - i.pops op) ∈ labels) ∨
      (c.code.size, height - i.pops op) ∈ jumps') :
    Open L shape jumps' labels height' { c with code := c.code.push i } := by
  obtain ⟨heights, h⟩ := h
  have htop := h.top
  -- the heights stay; behind the new instruction there is one more
  let heights' : Nat → Nat := fun k => if k = c.code.size + 1 then height' else heights k
  have hold : ∀ k ≤ c.code.size, heights' k = heights k := fun k hk => if_neg (by omega)
  have hsize : (c.code.push i).size = c.code.size + 1 := Array.size_push _
  have hpushed : (c.code.push i)[c.code.size]? = some i := Array.getElem?_push_size
  have hbefore : ∀ k < c.code.size, (c.code.push i)[k]? = c.code[k]? := fun k hk => by
    rw [Array.getElem?_push, if_neg (by omega)]
  refine ⟨heights', ?_, ?_, ?_, ?_, ?_⟩
  · rw [hold 0 (Nat.zero_le _), h.entry]
  · show heights' (c.code.push i).size = height'
    rw [hsize]
    exact if_pos rfl
  · intro l hl
    obtain ⟨hle, hheight⟩ := h.reached l hl
    show l.1 ≤ (c.code.push i).size ∧ _
    rw [hsize, hold l.1 hle]
    exact ⟨by omega, hheight⟩
  · -- a jump that waits has waited before, or is the new instruction
    intro j hj
    obtain hj | ⟨hjumps, rfl⟩ := hnew j hj
    · obtain ⟨i', op', hi', hrest⟩ := h.waiting j hj
      have hlt : j.1 < c.code.size := (Array.getElem?_eq_some_iff.mp hi').1
      refine ⟨i', op', ?_, ?_⟩
      · show (c.code.push i)[j.1]? = some i'
        rw [hbefore j.1 hlt, hi']
      · rw [hold j.1 (by omega)]
        exact hrest
    · refine ⟨i, op, hpushed, hop, hjumps, ?_⟩
      rw [hold _ (Nat.le_refl _), htop]
  · intro ip i' hi'
    have hi' : (c.code.push i)[ip]? = some i' := hi'
    show ∃ op, Instruction.Passes L shape c.constants heights' (c.code.push i).size ip i' op ∧
      (op.jumps = true → Instruction.Lands heights' (c.code.push i).size _ _ ∨ _)
    rw [hsize]
    by_cases hip : ip = c.code.size
    · subst hip
      obtain rfl : i = i' := Option.some_inj.mp (hpushed.symm.trans hi')
      have hheight : heights' c.code.size = height := by rw [hold _ (Nat.le_refl _), htop]
      refine ⟨op, ⟨hop, ?_, ?_, fun hfalls => ⟨Nat.lt_succ_self _, ?_⟩⟩, fun hjumps => ?_⟩
      · rwa [hheight]
      · rwa [hheight]
      · rw [hheight, ← hnext hfalls]
        exact if_pos rfl
      · rw [hheight]
        obtain ⟨k, hk, hlabel⟩ | hwaits := htarget hjumps
        · obtain ⟨hle, hlabel⟩ := h.reached _ hlabel
          exact .inl ⟨k, hk, by omega, by rw [hold k hle, hlabel]⟩
        · exact .inr hwaits
    · have hlt : ip < c.code.size := by
        have := (Array.getElem?_eq_some_iff.mp hi').1
        omega
      rw [hbefore ip hlt] at hi'
      obtain ⟨op', hpasses, hjumps⟩ := h.passes ip i' hi'
      have hpasses := hpasses.mono (.refl L) #[] hold (by omega) (Nat.le_succ _)
      rw [Array.append_empty] at hpasses
      refine ⟨op', hpasses, fun hop' => ?_⟩
      rw [hold ip (by omega)]
      obtain hlands | hwaits := hjumps hop'
      · exact .inl (hlands.mono hold (Nat.le_succ _))
      · exact .inr (hkeep _ hwaits)

/-- A waiting jump is given the end of the code as its target. -/
theorem patch {at_ : Nat} (h : c.Open L shape ((at_, height) :: jumps) labels height) {d : Int}
    (lo : -32768 ≤ d) (up : d ≤ 32767) (hd : (at_ : Int) + 1 + d = c.code.size) :
    Open L shape jumps labels height
      { c with code := c.code.modify at_ fun i => i.withSigned d } := by
  obtain ⟨heights, h⟩ := h
  obtain ⟨i₀, op₀, hi₀, hop₀, hjumps₀, hheight₀⟩ := h.waiting _ List.mem_cons_self
  have hsize : (c.code.modify at_ fun i => i.withSigned d).size = c.code.size := Array.size_modify
  have hmodified : (c.code.modify at_ fun i => i.withSigned d)[at_]? = some (i₀.withSigned d) := by
    rw [Array.getElem?_modify, if_pos rfl, hi₀]
    rfl
  have hother : ∀ k ≠ at_, (c.code.modify at_ fun i => i.withSigned d)[k]? = c.code[k]? :=
    fun k hk => by rw [Array.getElem?_modify, if_neg (Ne.symm hk)]
  -- a displacement is nothing that the height depends on
  have hpops : (i₀.withSigned d).pops op₀ = i₀.pops op₀ := by
    cases op₀ <;> first | rfl | cases hjumps₀
  have htop := h.top
  refine ⟨heights, h.entry, ?_, ?_, ?_, ?_⟩
  · show heights (Array.size _) = height
    rw [hsize, htop]
  · intro l hl
    show l.1 ≤ Array.size _ ∧ _
    rw [hsize]
    exact h.reached l hl
  · intro j hj
    obtain ⟨i, op, hi, hrest⟩ := h.waiting j (List.mem_cons_of_mem _ hj)
    by_cases hat : j.1 = at_
    · refine ⟨i₀.withSigned d, op₀, ?_, hop₀, hjumps₀, ?_⟩
      · rw [hat]
        exact hmodified
      · rw [hat] at hi hrest ⊢
        obtain rfl : i₀ = i := Option.some_inj.mp (hi₀.symm.trans hi)
        obtain rfl : op₀ = op := Option.some_inj.mp (hop₀.symm.trans hrest.1)
        rw [hpops]
        exact hrest.2.2
    · exact ⟨i, op, (hother j.1 hat).trans hi, hrest⟩
  · intro ip i hi
    have hi : (c.code.modify at_ fun i => i.withSigned d)[ip]? = some i := hi
    show ∃ op, Instruction.Passes L shape c.constants heights (Array.size _) ip i op ∧
      (op.jumps = true → Instruction.Lands heights (Array.size _) _ _ ∨ _)
    rw [hsize]
    by_cases hat : ip = at_
    · subst hat
      obtain rfl : i₀.withSigned d = i := Option.some_inj.mp (hmodified.symm.trans hi)
      obtain ⟨op, hpasses, -⟩ := h.passes ip i₀ hi₀
      obtain rfl : op₀ = op := Option.some_inj.mp (hop₀.symm.trans hpasses.opcode)
      refine ⟨op₀, ⟨hop₀, by rw [hpops]; exact hpasses.pops_le, ?_, fun hfalls => ?_⟩,
        fun _ => .inl ⟨c.code.size, ?_, Nat.le_refl _, ?_⟩⟩
      · cases op₀ <;> trivial
      · rw [hpops]
        have hpushes : (i₀.withSigned d).pushes L op₀ = i₀.pushes L op₀ := by
          cases op₀ <;> first | rfl | cases hjumps₀
        rw [hpushes]
        exact hpasses.next hfalls
      · rw [Instruction.target, Instruction.signedShort_withSigned i₀ lo up]
        exact hd
      · rw [hpops, hheight₀, htop]
    · rw [hother ip hat] at hi
      obtain ⟨op, hpasses, hjumps⟩ := h.passes ip i hi
      refine ⟨op, hpasses, fun hop => (hjumps hop).imp_right fun hmem => ?_⟩
      cases hmem with
      | head => exact absurd rfl hat
      | tail _ hmem => exact hmem

/-- Code ends with an instruction after which control does not go on. -/
theorem close (h : c.Open L shape [] labels height) {i : Instruction} {op : Opcode}
    (hop : i.opcode? = some op) (hpops : i.pops op ≤ height)
    (hadmits : i.Admits L shape c.constants height op) (hfalls : op.fallsThrough = false)
    (hjumps : op.jumps = false) :
    ∃ heights, Shaped L shape { c with code := c.code.push i } heights ∧
      heights c.code.size = height := by
  obtain ⟨heights, h⟩ := h
  have hsize : (c.code.push i).size = c.code.size + 1 := Array.size_push _
  refine ⟨heights, ⟨?_, h.entry, ?_, ?_⟩, h.top⟩
  · show 0 < (c.code.push i).size
    omega
  · intro ip i' hi'
    have hi' : (c.code.push i)[ip]? = some i' := hi'
    show ∃ op, Instruction.Fits L shape c.constants heights ((c.code.push i).size - 1) ip i' op
    rw [hsize, Nat.add_sub_cancel]
    rw [Array.getElem?_push] at hi'
    split at hi'
    · rename_i hip
      cases hi'
      -- the new instruction: nothing stands behind it, and it does not fall through
      refine ⟨op, ⟨hop, ?_, ?_, fun h => ?_⟩, fun h => ?_⟩
      · rwa [hip, h.top]
      · rwa [hip, h.top]
      · rw [hfalls] at h
        cases h
      · rw [hjumps] at h
        cases h
    · obtain ⟨op', hpasses, htarget⟩ := h.passes ip i' hi'
      exact ⟨op', hpasses, fun hop' => (htarget hop').resolve_right fun hmem => nomatch hmem⟩
  · intro i' op' hback hop'
    obtain rfl : i = i' := Option.some_inj.mp (Array.back?_push.symm.trans hback)
    obtain rfl : op = op' := Option.some_inj.mp (hop.symm.trans hop')
    exact hjumps

end Open

/-- Code that control passes straight through changes the height by as much in the finished chunk as
it does where it is added. -/
theorem Adds.gain {P c c' : Chunk} (h : c.Adds c') {shape' : Option ChunkShape}
    {jumps labels : List (Nat × Nat)} {m n : Nat}
    (hopen : c'.Open L shape jumps ((c.code.size, n) :: labels) m) (hL : L.Le L')
    {heights : Nat → Nat} (hP : P.Shaped L' shape' heights) (hcode : P.Holds c c') :
    heights c'.code.size + n = heights c.code.size + m := by
  obtain ⟨open_, hopen⟩ := hopen
  have hstart : open_ c.code.size = n := (hopen.reached _ List.mem_cons_self).2
  -- place by place, the two heights stay as far apart as they are at the beginning
  have hstep : ∀ k, c.code.size + k ≤ c'.code.size →
      heights (c.code.size + k) + n = heights c.code.size + open_ (c.code.size + k) := by
    intro k
    induction k with
    | zero => exact fun _ => by rw [Nat.add_zero, hstart]
    | succ k ih =>
      intro hle
      have hlt : c.code.size + k < c'.code.size := by omega
      have hi : c'.code[c.code.size + k]? = some c'.code[c.code.size + k] :=
        Array.getElem?_eq_getElem hlt
      obtain ⟨op, hop, hstraight⟩ := h.straight _ _ (Nat.le_add_right ..) hi
      have hfalls : op.fallsThrough = true := (Bool.and_eq_true_iff.mp hstraight).1
      obtain ⟨op₁, hpasses, -⟩ := hopen.passes _ _ hi
      obtain ⟨op₂, hfits⟩ := hP.fits _ _ ((hcode.code _ (Nat.le_add_right ..) hlt).trans hi)
      obtain rfl : op = op₁ := Option.some_inj.mp (hop.symm.trans hpasses.opcode)
      obtain rfl : op = op₂ := Option.some_inj.mp (hop.symm.trans hfits.opcode)
      have hopened := (hpasses.next hfalls).2
      have hfinished := (hfits.next hfalls).2
      rw [Instruction.pushes_eq_of_le hL hpasses.admits] at hfinished
      have hbefore := ih (Nat.le_of_lt hlt)
      have hpops := hpasses.pops_le
      have hpops' := hfits.pops_le
      rw [← Nat.add_assoc, hopened, hfinished]
      omega
  obtain ⟨k, hk⟩ := Nat.exists_eq_add_of_le h.toExtends.size_le
  have hall := hstep k (Nat.le_of_eq hk.symm)
  rw [← hk, hopen.top] at hall
  exact hall

end Chunk

end WordScript
