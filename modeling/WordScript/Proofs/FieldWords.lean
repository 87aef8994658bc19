/-
The words of a structure that is filled in place.

A structure is built on top of the stack: zeros first, into which the values of fields
are then written one after the other.  Different fields lie apart, so a field ends up
with the value that was written last, and the order in which different fields are
written does not matter.

* `Words.fill` — words after values have been written into fields;
* `TypeTable.Places` — fields inside the words of a structure and apart from each other;
* `TypeTable.Places.run_fill`, `TypeTable.Places.fill_eq` — what ends up in a field, and
  that the words depend on nothing else;
* `Exec.leads_pushZero`, `Exec.leads_storeTop` — the instructions that do it.
-/
import WordScript.Proofs.HeapWords
import WordScript.Proofs.StructureLayouts

namespace WordScript

/-! ### Writing -/

namespace Words

variable {words : Array Word} {xs ys : List Word} {i j : Nat}

/-- Writing behind the first of two arrays. -/
theorem write_append_right (s t : Array Word) (i : Nat) (ws : List Word) :
    write (s ++ t) (s.size + i) ws = s ++ write t i ws := by
  induction ws generalizing t i with
  | nil => rfl
  | cons w ws ih =>
    rw [write, write, ← ih, Nat.add_assoc, Array.setIfInBounds_append_right (Nat.le_add_right _ _),
      Nat.add_sub_cancel_left]

/-- Writing before the second of two arrays. -/
theorem write_append_left (s t : Array Word) {ws : List Word} (h : i + ws.length ≤ s.size) :
    write (s ++ t) i ws = write s i ws ++ t := by
  induction ws generalizing s i with
  | nil => rfl
  | cons w ws ih =>
    rw [List.length_cons] at h
    rw [write, write, Array.setIfInBounds_append_left (by omega), ih]
    rw [Array.size_setIfInBounds]
    omega

/-- A run apart from the one that is written. -/
theorem run_write_apart {n : Nat} (h : i + xs.length ≤ j ∨ j + n ≤ i) :
    run (write words i xs) j n = run words j n :=
  run_eq_run fun _ hk => getElem?_write_of_outside (by omega)

theorem run_append_left (s t : Array Word) {n : Nat} (h : i + n ≤ s.size) :
    run (s ++ t) i n = run s i n :=
  run_eq_run fun _ hk => Array.getElem?_append_left (by omega)

theorem run_append_right (s t : Array Word) : run (s ++ t) s.size t.size = t := by
  refine Array.ext_getElem? fun k => ?_
  rw [getElem?_run]
  split
  · rw [Array.getElem?_append_right (Nat.le_add_right _ _), Nat.add_sub_cancel_left]
  · rw [Array.getElem?_eq_none (by omega)]

theorem run_replicate {w : Word} {n count : Nat} (h : i + count ≤ n) :
    run (Array.replicate n w) i count = Array.replicate count w := by
  rw [run, Array.extract_replicate, Nat.min_eq_left h, Nat.add_sub_cancel_left]

/-- The words after values have been written into fields, one after the other. -/
def fill (words : Array Word) (l : List (Field × Array Word)) : Array Word :=
  l.foldl (fun ws x => write ws x.1.offset x.2.toList) words

theorem fill_cons (words : Array Word) (x : Field × Array Word) (l : List (Field × Array Word)) :
    fill words (x :: l) = fill (write words x.1.offset x.2.toList) l :=
  rfl

@[simp] theorem size_fill (words : Array Word) (l : List (Field × Array Word)) :
    (fill words l).size = words.size := by
  induction l generalizing words with
  | nil => rfl
  | cons x l ih => rw [fill_cons, ih, size_write]

theorem getElem?_fill_of_outside {l : List (Field × Array Word)} {k : Nat}
    (h : ∀ x ∈ l, k < x.1.offset ∨ x.1.offset + x.2.size ≤ k) : (fill words l)[k]? = words[k]? := by
  induction l generalizing words with
  | nil => rfl
  | cons x l ih =>
    obtain ⟨hx, hl⟩ := List.forall_mem_cons.mp h
    rw [fill_cons, ih hl]
    exact getElem?_write_of_outside (by rwa [Array.length_toList])

end Words

/-- The value that comes last for a field, if there is any. -/
def Field.last? (f : Field) : List (Field × Array Word) → Option (Array Word)
  | [] => none
  | (g, w) :: l => (f.last? l).or (if g = f then some w else none)

theorem Field.last?_filter (f : Field) (l : List (Field × Array Word)) :
    f.last? (l.filter fun x => x.1 = f) = f.last? l := by
  induction l with
  | nil => rfl
  | cons x l ih =>
    obtain ⟨g, w⟩ := x
    rw [List.filter_cons]
    by_cases hg : g = f
    · rw [if_pos (decide_eq_true hg), last?, last?, ih]
    · rw [if_neg (by simpa using hg), last?, ih, if_neg hg, Option.or_none]

/-! ### Fields -/

namespace TypeTable

variable {t : TypeTable} {d : StructureType} {words : Array Word} {f : Field}
  {l l' : List (Field × Array Word)}

/-- One field ends before the other begins. -/
def Apart (t : TypeTable) (f g : Field) : Prop :=
  f.offset + t.words f.ty ≤ g.offset ∨ g.offset + t.words g.ty ≤ f.offset

/-- The fields of a structure lie inside it, and different ones apart from each other. -/
structure Places (t : TypeTable) (d : StructureType) : Prop where
  inside : ∀ f ∈ d.fields, f.offset + t.words f.ty ≤ d.wordLength
  apart : ∀ f ∈ d.fields, ∀ g ∈ d.fields, f = g ∨ t.Apart f g

/-- Fields that have been laid out do. -/
theorem LaidOut.places {id : Nat} (h : t.LaidOut id) : t.Places (t.at_ id) := by
  obtain ⟨-, -, hlined⟩ := layoutFields_lined h.layout
  refine ⟨fun f hf => (hlined.bounds _ (List.mem_map_of_mem hf)).2, fun f hf g hg => ?_⟩
  have hpairwise := List.pairwise_map.mp hlined.pairwise
  exact List.Pairwise.forall_of_forall_of_flip (R := fun f g => f = g ∨ t.Apart f g)
    (fun f _ => .inl rfl) (hpairwise.imp fun hle => .inr (.inl hle))
    (hpairwise.imp fun hle => Or.inr (.inr hle)) hf hg

/-- Values of the sizes of their fields. -/
def Suits (t : TypeTable) (d : StructureType) (l : List (Field × Array Word)) : Prop :=
  ∀ x ∈ l, x.1 ∈ d.fields ∧ x.2.size = t.words x.1.ty

/-- A field has the value that came last, or what it had. -/
theorem Places.run_fill (h : t.Places d) (hf : f ∈ d.fields) (hsize : words.size = d.wordLength)
    (hl : t.Suits d l) :
    Words.run (Words.fill words l) f.offset (t.words f.ty) =
      (f.last? l).getD (Words.run words f.offset (t.words f.ty)) := by
  induction l generalizing words with
  | nil => rfl
  | cons x l ih =>
    obtain ⟨g, w⟩ := x
    obtain ⟨⟨hg, hw⟩, hrest⟩ := List.forall_mem_cons.mp hl
    have hin : g.offset + w.toList.length ≤ words.size := by
      rw [Array.length_toList, hw, hsize]
      exact h.inside g hg
    -- a later initialiser of the same field wins; other fields lie apart
    rw [Words.fill_cons, ih ((Words.size_write _ _ _).trans hsize) hrest, Field.last?]
    cases hlast : f.last? l with
    | some v => rfl
    | none =>
      by_cases hgf : g = f
      · subst hgf
        have hrun := Words.run_write hin
        rw [Array.length_toList, hw, Array.toArray_toList] at hrun
        rw [if_pos rfl]
        exact hrun
      · rw [if_neg hgf]
        refine Words.run_write_apart ?_
        rw [Array.length_toList, hw]
        exact (h.apart g hg f hf).resolve_left hgf

/-- The words only depend on the values that come last. -/
theorem Places.fill_eq (h : t.Places d) (hsize : words.size = d.wordLength) (hl : t.Suits d l)
    (hl' : t.Suits d l') (hlast : ∀ f ∈ d.fields, f.last? l = f.last? l') :
    Words.fill words l = Words.fill words l' := by
  refine Array.ext_getElem? fun k => ?_
  by_cases hin : ∃ f ∈ d.fields, f.offset ≤ k ∧ k < f.offset + t.words f.ty
  · obtain ⟨f, hf, hle, hlt⟩ := hin
    have hrun : Words.run (Words.fill words l) f.offset (t.words f.ty) =
        Words.run (Words.fill words l') f.offset (t.words f.ty) := by
      rw [h.run_fill hf hsize hl, h.run_fill hf hsize hl', hlast f hf]
    have hword := congrArg (·[k - f.offset]?) hrun
    rwa [Words.getElem?_run, Words.getElem?_run, if_pos (by omega), if_pos (by omega),
      Nat.add_sub_cancel' hle] at hword
  · -- no field has the word
    have houtside : ∀ {l : List (Field × Array Word)}, t.Suits d l →
        (Words.fill words l)[k]? = words[k]? := by
      refine fun hl => Words.getElem?_fill_of_outside fun x hx => ?_
      obtain ⟨hfield, hwords⟩ := hl x hx
      have hnot : ¬(x.1.offset ≤ k ∧ k < x.1.offset + t.words x.1.ty) :=
        fun hboth => hin ⟨x.1, hfield, hboth⟩
      rw [hwords]
      omega
    rw [houtside hl, houtside hl']

end TypeTable

/-! ### Instructions -/

namespace Exec

variable {p : Program} {P : Chunk} {time : Float} {m : Machine} {ip base offset : Nat}
  {S V w : Array Word}

/-- A value goes from the top of the stack to a place further down. -/
theorem popInto_append (m : Machine) (ip : Nat) (h : base + w.size ≤ S.size) :
    popInto base w.size (m.at_ ip (S ++ w)) = .ok () (m.at_ ip (Words.write S base w.toList)) := by
  have hroom : base + w.size + w.size ≤ (m.at_ ip (S ++ w)).stack.size := by
    show _ ≤ (S ++ w).size
    rw [Array.size_append]
    omega
  have hbelow : (S ++ w).size - w.size = S.size := by rw [Array.size_append, Nat.add_sub_cancel]
  rw [popInto_eq hroom]
  show EStateM.Result.ok () (m.at_ ip ((Words.write (S ++ w) base
    (Words.run (S ++ w) ((S ++ w).size - w.size) w.size).toList).shrink
      ((S ++ w).size - w.size))) = _
  rw [hbelow, Words.run_append_right, Words.write_append_left S w (by rwa [Array.length_toList])]
  congr 2
  rw [← Words.size_write S base w.toList, Words.shrink_append]

/-- Zeros on top of the stack. -/
theorem leads_pushZero {count : UInt16} (hP : p.chunks[m.chunk]? = some P)
    (hi : P.code[ip]? = some (.ofByteShort .pushZero 0 count)) :
    Leads p time 1 (m.at_ ip S) (m.at_ (ip + 1) (S ++ Array.replicate count.toNat 0)) := by
  refine leads_of_perform hP hi (Instruction.opcode?_ofByteShort _ _ _) rfl ?_
  rw [Instruction.short_ofByteShort]
  rfl

/-- The value on top of the stack is stored into the words below it. -/
theorem leads_storeTop {words : UInt8} {depth : UInt16} (hP : p.chunks[m.chunk]? = some P)
    (hi : P.code[ip]? = some (.ofByteShort .storeTop words depth)) (hw : w.size = words.toNat)
    (hdepth : depth.toNat = V.size - offset) (hin : offset + w.size ≤ V.size) :
    Leads p time 1 (m.at_ ip (S ++ V ++ w))
      (m.at_ (ip + 1) (S ++ Words.write V offset w.toList)) := by
  refine leads_of_perform hP hi (Instruction.opcode?_ofByteShort _ _ _) rfl ?_
  rw [Instruction.short_ofByteShort, Instruction.a_ofByteShort, ← hw, hdepth, storeTop]
  have hsize : (S ++ V).size = S.size + V.size := Array.size_append
  have hbelow : below (S ++ V).size (V.size - offset) (m.at_ (ip + 1) (S ++ V ++ w)) =
      .ok (S.size + offset) (m.at_ (ip + 1) (S ++ V ++ w)) := by
    rw [below, if_pos (by omega), show (S ++ V).size - (V.size - offset) = S.size + offset by omega]
    rfl
  rw [bind_of_ok (top_at m (ip + 1) (S ++ V) w), bind_of_ok hbelow, if_neg (by omega),
    ← Words.write_append_right]
  exact popInto_append m (ip + 1) (by omega)

end Exec

end WordScript
