/-
Running structure literals.

The code of an initialiser is a call of anything: it may print, allocate, and change variables.
What is known of it is where it ends and, from the heights of the stack at both ends, how many
words it has left.  So a store always finds the words of the structure under a value of the
size of its field, and the value goes into the field.

* `Machine.Evaluated`, `Machine.Fills` — initialisers that are evaluated one after the other,
  without touching the words under construction;
* `Machine.Builds` — what running a literal does;
* `Exec.leads_of_fills` — initialisers fill the words of the structure with their values;
* `Stage.Construction`, `Stage.Construction.builds` — the code of a literal between two stages
  of a compilation, and that it does all this in every program that goes on from there.
-/
import WordScript.Proofs.StructureLiterals

namespace WordScript

namespace Machine

/-- From the machine `m` to the machine `m₁` the expression of an initialiser has been evaluated: its
value is on top of the stack, above the `n` words from `base` on, which are as they were.  What lies
below them may have changed. -/
structure Evaluated (p : Program) (time : Float) (base n : Nat) (i : Initialiser) (m : Machine)
    (w : Array Word) (m₁ : Machine) : Prop where
  leads : ∃ k, Exec.Leads p time k m m₁
  ip : m₁.ip = i.after.here
  chunk : m₁.chunk = m.chunk
  fp : m₁.fp = m.fp
  frames : m₁.frames = m.frames
  kept : Words.run m₁.stack base n = Words.run m.stack base n
  value : m₁.stack.extract (base + n) m₁.stack.size = w

/-- From one machine to the other initialisers have been evaluated to values, each of which has been
stored into the `n` words from `base` on. -/
inductive Fills (p : Program) (time : Float) (base n : Nat) :
    Machine → List (Initialiser × Array Word) → Machine → Prop
  | nil (m : Machine) : Fills p time base n m [] m
  | cons {m m₁ m₂ m' : Machine} {i : Initialiser} {w : Array Word}
      {l : List (Initialiser × Array Word)} (hvalue : m.Evaluated p time base n i w m₁)
      (hstore : Exec.Leads p time 1 m₁ m₂) (hrest : Fills p time base n m₂ l m') :
      Fills p time base n m ((i, w) :: l) m'

theorem Fills.leads {p : Program} {time : Float} {base n : Nat} {m m' : Machine}
    {lv : List (Initialiser × Array Word)} (h : m.Fills p time base n lv m') :
    ∃ k, Exec.Leads p time k m m' := by
  induction h with
  | nil m => exact ⟨0, rfl⟩
  | cons hvalue hstore _ ih =>
    obtain ⟨k, hvalue⟩ := hvalue.leads
    obtain ⟨k', hrest⟩ := ih
    exact ⟨k + 1 + k', (hvalue.trans hstore).trans hrest⟩

/-- The fields of initialisers with their values. -/
def values (l : List (Initialiser × Array Word)) : List (Field × Array Word) :=
  l.map fun x => (x.1.field, x.2)

/-- What running the code of a literal does, from a machine `m` in front of it.  The code ends at the
place `last`. -/
structure Builds (p : Program) (time : Float) (t : TypeTable) (d : StructureType)
    (l : List Initialiser) (last : Nat) (m : Machine) : Prop where
  /-- it begins with as many zeros as the structure has words -/
  zeros : Exec.Leads p time 1 m
    (m.at_ (m.ip + 1) (m.stack ++ Array.replicate d.wordLength 0))
  /-- no store faults, whatever has been evaluated: the words of the structure lie under a value of the
  size of the field, and that is where the value goes -/
  stores : ∀ i ∈ l, ∀ {n : Nat} {m₁ : Machine}, Exec.Leads p time n m m₁ →
    m₁.ip = i.after.here → m₁.chunk = m.chunk → m₁.fp = m.fp →
    ∃ S V w : Array Word, m₁.stack = S ++ V ++ w ∧ S.size = m.stack.size ∧
      V.size = d.wordLength ∧ w.size = t.words i.field.ty ∧
      Exec.Leads p time 1 m₁ (m₁.at_ (m₁.ip + 1) (S ++ Words.write V i.field.offset w.toList))
  /-- it ends with as many words more as the structure has -/
  size : ∀ {n : Nat} {m' : Machine}, Exec.Leads p time n m m' → m'.ip = last →
    m'.chunk = m.chunk → m'.fp = m.fp → m'.stack.size = m.stack.size + d.wordLength
  /-- if evaluating leaves the words of the structure alone, these hold in each field the value that was
  stored last, or zeros if there was none -/
  fields : ∀ {lv : List (Initialiser × Array Word)} {m' : Machine}, lv.map Prod.fst = l →
    Fills p time m.stack.size d.wordLength
      (m.at_ (m.ip + 1) (m.stack ++ Array.replicate d.wordLength 0)) lv m' →
    (∃ n, Exec.Leads p time n m m') ∧ m'.ip = last ∧ m'.chunk = m.chunk ∧ m'.fp = m.fp ∧
      m'.frames = m.frames ∧ ∃ S V : Array Word, m'.stack = S ++ V ∧ S.size = m.stack.size ∧
        V.size = d.wordLength ∧ ∀ f ∈ d.fields, Words.run V f.offset (t.words f.ty) =
          (f.last? (values lv)).getD (Array.replicate (t.words f.ty) 0)

end Machine

theorem exists_append_append {A : Array Word} {a b c : Nat} (h : A.size = a + b + c) :
    ∃ S V w : Array Word, A = S ++ V ++ w ∧ S.size = a ∧ V.size = b ∧ w.size = c := by
  refine ⟨A.extract 0 a, A.extract a (a + b), A.extract (a + b) A.size, ?_, ?_, ?_, ?_⟩
  · rw [Array.extract_append_extract, Nat.zero_min, Nat.max_eq_right (Nat.le_add_right a b),
      Array.extract_append_extract, Nat.zero_min, Nat.max_eq_right (by omega), Array.extract_size]
  all_goals
    rw [Array.size_extract]
    omega

namespace Exec

variable {p : Program} {P : Chunk} {time : Float} {m m' m₁ m₂ : Machine} {n k base : Nat}
  {S V : Array Word} {t : TypeTable} {d : StructureType} {l : List Initialiser}
  {lv : List (Initialiser × Array Word)}

theorem Leads.unique (h₁ : Leads p time n m m₁) (h₂ : Leads p time n m m₂) : m₁ = m₂ := by
  have hrest := h₁.sub h₂ (Nat.le_refl _)
  rwa [Nat.sub_self] at hrest

/-- A machine between instructions of well-shaped code stays one. -/
theorem Leads.stable {L : Linkage} {heights : Nat → Nat → Nat} (h : Leads p time n m m')
    (hp : p.Shaped L heights) (hm : m.Stable L heights p) : m'.Stable L heights p := by
  have hexecute := hm.execute hp time n
  rwa [h.execute] at hexecute

/-- Initialisers fill the words that their values are put above, if these are as large as the fields
whenever they have been evaluated. -/
theorem leads_of_fills {m₀ : Machine} {i last : Nat} (hplaces : t.Places d)
    (hsize : ∀ i ∈ lv.map Prod.fst, ∀ {n : Nat} {m₁ : Machine}, Leads p time n m₀ m₁ →
      m₁.ip = i.after.here → m₁.chunk = m₀.chunk → m₁.fp = m₀.fp →
      m₁.stack.size = base + d.wordLength + t.words i.field.ty)
    (hP : p.chunks[m₀.chunk]? = some P) (hstores : P.Stores t d k (lv.map Prod.fst) last)
    (hreach : Leads p time i m₀ m) (hchunk : m.chunk = m₀.chunk) (hfp : m.fp = m₀.fp)
    (hip : m.ip = k) (hm : m.stack = S ++ V) (hS : S.size = base) (hV : V.size = d.wordLength)
    (h : m.Fills p time base d.wordLength lv m') :
    t.Suits d (Machine.values lv) ∧ (∃ n, Leads p time n m₀ m') ∧ m'.ip = last ∧
      m'.chunk = m₀.chunk ∧ m'.fp = m₀.fp ∧ m'.frames = m.frames ∧
      ∃ S' : Array Word, S'.size = base ∧
        m'.stack = S' ++ Words.fill V (Machine.values lv) := by
  induction h generalizing i k S V with
  | nil m =>
    cases hstores
    exact ⟨fun x hx => (nomatch hx), ⟨i, hreach⟩, hip, hchunk, hfp, rfl, S, hS, hm⟩
  | @cons m m₁ m₂ m' j w lv hvalue hstore hrest ih =>
    obtain ⟨hone, hmore⟩ := List.forall_mem_cons.mp hsize
    cases hstores with
    | @cons _ _ _ _ words depth hfield _ _ hi hwords hdepth hlast =>
      obtain ⟨n, hfirst⟩ := hvalue.leads
      have hreach₁ := hreach.trans hfirst
      have hchunk₁ := hvalue.chunk.trans hchunk
      have hfp₁ := hvalue.fp.trans hfp
      -- the words of the structure are under the value, as they were
      obtain ⟨S₁, V₁, w₁, hstack, hS₁, hV₁, hw⟩ :=
        exists_append_append (hone hreach₁ hvalue.ip hchunk₁ hfp₁)
      obtain rfl : V₁ = V := by
        have hkept := hvalue.kept
        rwa [hstack, hm, Words.run_append_left _ _ (by rw [Array.size_append]; omega), ← hV₁, ← hS₁,
          Words.run_append_right, hS₁, hV₁, ← hV, ← hS, Words.run_append_right] at hkept
      obtain rfl : w₁ = w := by
        have htop : base + d.wordLength = (S₁ ++ V₁).size := by rw [Array.size_append, hS₁, hV₁]
        have hend : m₁.stack.size = (S₁ ++ V₁).size + w₁.size := by rw [hstack, Array.size_append]
        have hvalue := hvalue.value
        rw [hend, htop, hstack] at hvalue
        exact (Words.run_append_right (S₁ ++ V₁) w₁).symm.trans hvalue
      have hin := hplaces.inside j.field hfield
      have hstored : Leads p time 1 (m₁.at_ m₁.ip (S₁ ++ V₁ ++ w₁)) _ :=
        leads_storeTop (V := V₁) (hchunk₁ ▸ hP) (by rw [hvalue.ip]; exact hi)
          (hw.trans hwords.symm) (by rw [hdepth, hV]) (by rw [hV, hw]; exact hin)
      rw [← hstack] at hstored
      obtain rfl := hstore.unique hstored
      obtain ⟨hsuits, hleads, hip', hchunk', hfp', hframes, hstack'⟩ :=
        ih hmore hlast (hreach₁.trans hstore) hchunk₁ hfp₁ (congrArg (· + 1) hvalue.ip) rfl
          hS₁ ((Words.size_write ..).trans hV)
      refine ⟨?_, hleads, hip', hchunk', hfp', hframes.trans hvalue.frames, hstack'⟩
      exact List.forall_mem_cons.mpr ⟨⟨hfield, hw⟩, hsuits⟩

end Exec

/-! ### Any literal -/

namespace Stage

variable {G : Outlook} {s s' : Stage} {n id : Nat} {g : Productions} {l : List Initialiser}
  {c' : Compiler}

/-- The code of a literal between two stages, in every program that goes on as the second does. -/
structure Construction (s s' : Stage) (id : Nat) (l : List Initialiser) : Prop where
  sizes : ∀ i ∈ l, s.Sizes s' (s.types.at_ id) i
  total : ∃ total : UInt16, total.toNat = (s.types.at_ id).wordLength ∧
    ∀ P : Chunk, P.Holds s.builder.code s'.builder.code →
      P.code[s.here]? = some (.ofByteShort .pushZero 0 total) ∧
      P.Stores s.types (s.types.at_ id) (s.here + 1) l s'.here
  height : ∀ {L : Linkage} {shape : Option ChunkShape} {heights : Nat → Nat} {P : Chunk},
    s'.linkage.Le L → P.Shaped L shape heights → P.Holds s.builder.code s'.builder.code →
    heights s'.here = heights s.here + (s.types.at_ id).wordLength

theorem Ready.construction (hg : g.Disciplined) (h : s.Ready G n) (hn : s.scopeWords ≤ n)
    (hc : s.toCompiler.Constructs g id l c') :
    ∃ (s' : Stage) (r : Reader), c' = s'.toCompiler.on r ∧ s.Le .value s' ∧
      s'.Ready G (n + (s.types.at_ id).wordLength) ∧ s.Construction s' id l := by
  obtain ⟨r, total, htotal, hchain⟩ := hc
  have hd : FieldsFit (s.types.at_ id) s := fun f hf => by
    obtain ⟨hb, -, hin⟩ := h.sound.types.fields id f hf
    exact ⟨hb, hin⟩
  -- the zeros are pushed at a label, since what a literal does is told from there on
  have hemit : Moves .value s (CompileM.emit (.ofByteShort .pushZero 0 total)) fun _ s' =>
      s'.Ready (G.mark (s.here, n)) (n + (s.types.at_ id).wordLength) := by
    refine h.label.emit .pushZero (by simp) (Nat.zero_le _) trivial rfl ?_
    simp only [Instruction.pops, Instruction.pushes, Instruction.short_ofByteShort, htotal]
    rfl
  obtain ⟨s₁, r₁, hpushed, hle₁, hs₁⟩ := hemit s.toCompiler.reader () _ rfl
  have hpushed : s.toCompiler.mapBuilder (·.push (.ofByteShort .pushZero 0 total)) =
      s₁.toCompiler.on r₁ := hpushed
  obtain ⟨s', r', rfl, hle', hs', hall⟩ :=
    hs₁.sizes hg hchain (by rw [hpushed]; rfl) hle₁ hn hd
  refine ⟨s', r', rfl, hle₁.trans hle', hs'.forget, hall, ⟨total, htotal, fun P hP => ?_⟩,
    fun hL hP hholds => hs'.height (hle₁.trans hle') hL hP hholds⟩
  obtain ⟨hextends, hstores⟩ := hchain.stores fun i hi => ⟨(hall i hi).extends_, (hall i hi).words⟩
  have hpush := Compiler.extends_push s.toCompiler (.ofByteShort .pushZero 0 total)
  have hfirst : P.Holds s.builder.code (s.toCompiler.mapBuilder
      (·.push (.ofByteShort .pushZero 0 total))).builder.code := hP.left hextends
  refine ⟨Compiler.getElem?_of_holds_push hfirst (.refl _), ?_⟩
  have hrest := hstores P (hP.right hpush)
  rwa [show Compiler.here (Compiler.on _ r) = s.here + 1 from Compiler.here_push _ _] at hrest

variable {p : Program} {P : Chunk} {L : Linkage} {heights : Nat → Nat → Nat} {m m₁ m' : Machine}
  {k : Nat} {i : Initialiser} {time : Float}

section

variable (hc : s.Construction s' id l) (hL : s'.linkage.Le L) (hp : p.Shaped L heights)
  (hm : m.Stable L heights p) (hP : p.chunks[m.chunk]? = some P)
  (hholds : P.Holds s.builder.code s'.builder.code) (hip : m.ip = s.here)

include hc hL hp hm hP hholds hip

/-- The words on the stack behind the expression of an initialiser. -/
theorem Construction.size_of_leads (hi : i ∈ l) (h : Exec.Leads p time k m m₁)
    (hip₁ : m₁.ip = i.after.here) (hchunk : m₁.chunk = m.chunk) (hfp : m₁.fp = m.fp) :
    m₁.stack.size =
      m.stack.size + (s.types.at_ id).wordLength + s.types.words i.field.ty := by
  have hsizes := hc.sizes i hi
  obtain ⟨shape, hshape, -⟩ := hm.frames.stands
  obtain ⟨Q, hQ, hshaped⟩ := hp.chunk m.chunk shape hshape
  obtain rfl : P = Q := Option.some_inj.mp (hP.symm.trans hQ)
  have hheight := hsizes.height hL hshaped (hholds.left hsizes.later)
  have hsize := hm.size
  have hsize₁ := (h.stable hp hm).size
  rw [hchunk, hip₁, hfp, hheight] at hsize₁
  rw [hip] at hsize
  omega

/-- The words on the stack behind the literal. -/
theorem Construction.size_of_leads_last (h : Exec.Leads p time k m m') (hip' : m'.ip = s'.here)
    (hchunk : m'.chunk = m.chunk) (hfp : m'.fp = m.fp) :
    m'.stack.size = m.stack.size + (s.types.at_ id).wordLength := by
  obtain ⟨shape, hshape, -⟩ := hm.frames.stands
  obtain ⟨Q, hQ, hshaped⟩ := hp.chunk m.chunk shape hshape
  obtain rfl : P = Q := Option.some_inj.mp (hP.symm.trans hQ)
  have hheight := hc.height hL hshaped hholds
  have hsize := hm.size
  have hsize' := (h.stable hp hm).size
  rw [hchunk, hip', hfp, hheight] at hsize'
  rw [hip] at hsize
  omega

/-- What running a literal does. -/
theorem Construction.builds (hplaces : s.types.Places (s.types.at_ id)) :
    m.Builds p time s.types (s.types.at_ id) l s'.here := by
  obtain ⟨total, htotal, hcode⟩ := hc.total
  obtain ⟨hzero, hstores⟩ := hcode P hholds
  rw [← hip] at hzero hstores
  have hzeros : Exec.Leads p time 1 (m.at_ m.ip m.stack) _ := Exec.leads_pushZero hP hzero
  rw [htotal] at hzeros
  refine ⟨hzeros, fun i hi {k m₁} h hip₁ hchunk hfp => ?_,
    fun h hip' hchunk hfp => hc.size_of_leads_last hL hp hm hP hholds hip h hip' hchunk hfp,
    fun {lv m'} hlv hfills => ?_⟩
  · have hsize := hc.size_of_leads hL hp hm hP hholds hip hi h hip₁ hchunk hfp
    -- below the value lies the structure, and below that what was there before
    obtain ⟨S, V, w, hstack, hS, hV, hw⟩ := exists_append_append hsize
    obtain ⟨hfield, words, depth, hstore, hwords, hdepth⟩ := hstores.of_mem hi
    have hin := hplaces.inside i.field hfield
    refine ⟨S, V, w, hstack, hS, hV, hw, ?_⟩
    have hstored : Exec.Leads p time 1 (m₁.at_ m₁.ip (S ++ V ++ w)) _ :=
      Exec.leads_storeTop (V := V) (hchunk ▸ hP) (by rw [hip₁]; exact hstore)
        (hw.trans hwords.symm) (by rw [hdepth, hV]) (by rw [hV, hw]; exact hin)
    rwa [← hstack] at hstored
  · obtain ⟨hsuits, hleads, hlast, hchunk, hfp, hframes, hstack⟩ := Exec.leads_of_fills hplaces
      (fun i hi _ m₁ h hip₁ hchunk hfp => hc.size_of_leads hL hp hm hP hholds hip (hlv ▸ hi) h hip₁
        hchunk hfp) hP (hlv ▸ hstores) hzeros rfl rfl rfl rfl rfl Array.size_replicate hfills
    obtain ⟨S, hS, hstack⟩ := hstack
    refine ⟨hleads, hlast, hchunk, hfp, hframes, S, _, hstack, hS, ?_, fun f hf => ?_⟩
    · rw [Words.size_fill, Array.size_replicate]
    · rw [hplaces.run_fill hf Array.size_replicate hsuits]
      congr 1
      exact Words.run_replicate (hplaces.inside f hf)

end

end Stage

end WordScript
