/-
Ways to a part of a value.

A part of a value is reached by a chain of accessors from the value itself, from a variable
that holds it, or from a pointer to it, and its elements by number or by index.  The code of
these ways differs: it selects words on top of the stack, adds offsets while the program is
compiled, or computes addresses when it runs.  The words are the same each time, those at the
offset of the part.

* `Access.Applies`, `Access.Chain` — compiled accessors, one and several;
* `Access.Chain.turns` — a chain leads to the part and its words;
* `ComponentAccess`, `ElementAccess` — what holds of the ways to a part, and of the elements
  of a span;
* `access_paths_agree` — all of that for every type that has a size.
-/
import WordScript.Proofs.AcceptedAccess
import WordScript.Proofs.Modules

namespace WordScript

/-! ### Chains of accessors -/

namespace Access

/-- An accessor has been compiled: behind a dot, or an element by an index that has its number as
value. -/
inductive Applies (g : Productions) (p : Program) (time : Float) (m : Machine) (a : Accessor)
    (o : Operand) (c : Compiler) (o' : Operand) (c' : Compiler) : Prop
  | dot (hat : c.DotAt c.cursor a) (h : member g o c = .ok (o', c'))
  | bracket {w : Word} (hat : c.kindAt c.cursor = .symbol .leftBracket) (ha : a = .element w.toNat)
      (hw : IndexIs g p time m o c w) (h : index g o c = .ok (o', c'))

/-- A chain of accessors has been compiled, one after the other. -/
inductive Chain (g : Productions) (p : Program) (time : Float) (m : Machine) :
    List Accessor → Operand → Compiler → Operand → Compiler → Prop
  | nil (o : Operand) (c : Compiler) : Chain g p time m [] o c o c
  | cons {a : Accessor} {path : List Accessor} {o o₁ o₂ : Operand} {c c₁ c₂ : Compiler}
      (ha : Applies g p time m a o c o₁ c₁) (hrest : Chain g p time m path o₁ c₁ o₂ c₂) :
      Chain g p time m (a :: path) o c o₂ c₂

variable {g : Productions} {p : Program} {time : Float} {m : Machine} {a : Accessor}
  {path : List Accessor} {o o' : Operand} {c c' : Compiler}

/-- It is what the accessors of an operand are read as, if no other accessor follows. -/
theorem Chain.accessors (h : Chain g p time m path o c o' c')
    (hdot : c'.kindAt c'.cursor ≠ .symbol .dot) (hbracket : c'.kindAt c'.cursor ≠ .symbol .leftBracket) :
    ∀ {budget : Nat}, path.length < budget → Expression.accessors g budget o c = .ok (o', c') := by
  induction h with
  | nil o c =>
    intro budget hlt
    obtain ⟨budget, rfl⟩ := Nat.exists_eq_succ_of_ne_zero (Nat.ne_of_gt hlt)
    rw [Expression.accessors, CompileM.kind, CompileM.ask_bind]
    cases hkind : c.kindAt c.cursor with
    | symbol symbol => cases symbol <;> first | rfl | exact absurd hkind hdot | exact absurd hkind hbracket
    | _ => rfl
  | cons ha hrest ih =>
    intro budget hlt
    obtain ⟨budget, rfl⟩ := Nat.exists_eq_succ_of_ne_zero (Nat.ne_of_gt (Nat.zero_lt_of_lt hlt))
    have hrest := ih hdot hbracket (Nat.lt_of_succ_lt_succ hlt)
    rw [Expression.accessors, CompileM.kind, CompileM.ask_bind]
    cases ha with
    | dot hat h =>
      simp only [hat.dot]
      rw [CompileM.bind_of_ok h]
      exact hrest
    | bracket hat _ _ h =>
      simp only [hat]
      rw [CompileM.bind_of_ok h]
      exact hrest

variable {t : TypeTable} {making : Nat → Prop} {ty : Ty} {q : Nat × Ty} {k n : Nat} {G : Outlook}
  {s : Stage} {r : Reader} {ws V : Array Word}

/-- One accessor leads to the part and its words. -/
theorem Applies.turns (h : Applies (productions k) p time m a o (s.toCompiler.on r) o' c')
    (hs : s.Holds G n o) (hkeeps : t.Keeps s.types) (hq : t.Part ty q) (hty : t.HasSize ty)
    (hpart : t.component? ty a = some q) (hV : V.size = t.words ty)
    (hstack : m.stack.size < Address.heapRoom) (hdenotes : m.Denotes o ws ty V) :
    o'.ty = q.2 ∧ (∃ ws', m.Shows o' ws' (Words.run V q.1 (t.words q.2)) ∧
      (s.toCompiler.on r).Turns c' p time m ws ws') ∧
    ∃ (s' : Stage) (r' : Reader), c' = s'.toCompiler.on r' ∧ s'.Holds G n o' ∧ t.Keeps s'.types := by
  have hg := productions_disciplined k
  have hpart' := TypeTable.component?_keep hkeeps hty a
  rw [hpart] at hpart'
  have hin := hq.inside
  rw [← hV] at hin
  rw [← hq.sized.words_keep hkeeps] at hin ⊢
  rw [← hty.words_keep hkeeps] at hV
  cases h with
  | dot hat h =>
    obtain ⟨s', r', rfl, hle, hs'⟩ := hs.member hg r _ _ h
    obtain ⟨hinner, hturns⟩ := turns_member p time hat hdenotes hpart' (hty.keep hkeeps).1 hV hin h
    exact ⟨hinner, hturns, s', r', rfl, hs', hkeeps.trans hle.types.keeps⟩
  | bracket hat ha hw h =>
    obtain ⟨s', r', rfl, hle, hs'⟩ := hs.index hg r _ _ h
    subst ha
    obtain ⟨element, length, rfl, hlt, rfl⟩ := TypeTable.component?_element_eq_some hpart'
    obtain ⟨hinner, hturns⟩ := hs.turns_index hg hdenotes hV hstack hlt hw h
    exact ⟨hinner, hturns, s', r', rfl, hs', hkeeps.trans hle.types.keeps⟩

/-- A chain of accessors leads to the part and its words. -/
theorem Chain.turns (h : Chain (productions k) p time m path o c o' c') :
    ∀ {s : Stage} {r : Reader} {ty : Ty} {q : Nat × Ty} {ws V : Array Word}, c = s.toCompiler.on r →
      s.Holds G n o → t.Keeps s.types → t.Sound making → t.HasSize ty →
      t.locate? ty path = some q → V.size = t.words ty → m.stack.size < Address.heapRoom →
      m.Denotes o ws ty V → (path = [] → o.ty = ty) →
      o'.ty = q.2 ∧ ∃ ws', m.Shows o' ws' (Words.run V q.1 (t.words q.2)) ∧
        c.Turns c' p time m ws ws' ∧
        ∃ (s' : Stage) (r' : Reader), c' = s'.toCompiler.on r' ∧ t.Keeps s'.types := by
  induction h with
  | nil o c =>
    intro s r ty q ws V hc hs hkeeps hsound hty hlocate hV hstack hdenotes hself
    cases hlocate
    have hlength : V.size = 0 + t.words ty := by rw [hV, Nat.zero_add]
    have hwhole : Words.run V 0 (t.words ty) = V := by
      rw [← hV, Words.run, Nat.zero_add, Array.extract_size]
    rw [hwhole]
    cases hdenotes with
    | itself hty' hshows => exact ⟨hty', ws, hshows, .refl c, s, r, hc, hkeeps⟩
    -- no type is a pointer to itself
    | pointer hpointer =>
      rw [hself rfl] at hpointer
      have hsize := congrArg sizeOf hpointer
      simp at hsize
  | cons ha hrest ih =>
    intro s r ty q ws V hc hs hkeeps hsound hty hlocate hV hstack hdenotes hself
    subst hc
    obtain ⟨q₁, q₂, hpart, hrest', rfl⟩ := TypeTable.locate?_cons_eq_some hlocate
    have hq₁ := TypeTable.Part.component hsound hty hpart
    have hq₂ := TypeTable.Part.locate hsound hq₁.sized hrest'
    obtain ⟨hinner, ⟨ws₁, hshows, hfirst⟩, s₁, r₁, rfl, hs₁, hkeeps₁⟩ :=
      ha.turns hs hkeeps hq₁ hty hpart hV hstack hdenotes
    have hin := hq₁.inside
    rw [← hV] at hin
    have hV₁ := Words.size_run hin
    obtain ⟨hinner', ws', hshows', hsecond, hstage⟩ := ih rfl hs₁ hkeeps₁ hsound hq₁.sized hrest' hV₁
      hstack (.itself hinner hshows) fun _ => hinner
    rw [Words.run_run V hq₂.inside] at hshows'
    exact ⟨hinner', ws', hshows', hfirst.trans hsecond, hstage⟩

end Access

/-- From the index on, the chain of names and numbers is written. -/
def Compiler.SpelledAt (c : Compiler) : Nat → List Accessor → Prop
  | _, [] => True
  | index, a :: path => c.DotAt index a ∧ c.SpelledAt (index + 2) path

/-- What is written depends on the tokens. -/
theorem Compiler.SpelledAt.congr {c c' : Compiler} (htokens : c'.tokens = c.tokens)
    {path : List Accessor} {index : Nat} (h : c.SpelledAt index path) : c'.SpelledAt index path := by
  induction path generalizing index with
  | nil => trivial
  | cons a path ih =>
    obtain ⟨⟨hdot, hname, huncalled⟩, hrest⟩ := h
    have hkind : ∀ i, c'.kindAt i = c.kindAt i := fun i => by
      rw [kindAt, kindAt, htokens]
    refine ⟨⟨(hkind _).trans hdot, ?_, fun name ha => ?_⟩, ih hrest⟩
    · rw [htokens]
      exact hname
    · rw [hkind]
      exact huncalled name ha

namespace Access

variable {t : TypeTable} {making : Nat → Prop} {g : Productions} {path : List Accessor}

/-- A chain of names and numbers that leads to a part is accepted. -/
theorem exists_chain (p : Program) (time : Float) (m : Machine) (hsound : t.Sound making) :
    ∀ {c : Compiler} {o : Operand} {ty : Ty} {q : Nat × Ty}, c.SpelledAt c.cursor path →
      t.Keeps c.types → t.HasSize ty → t.locate? ty path = some q → t.words ty < 256 →
      o.ty = ty ∨ o.ty = .pointer ty → (path = [] → o.ty = ty) → o.offset + q.1 < 65536 →
      ∃ o' c', Chain g p time m path o c o' c' ∧ o'.ty = q.2 ∧ o'.offset < 65536 ∧
        c'.types = c.types := by
  induction path with
  | nil =>
    intro c o ty q _ _ _ hlocate _ _ hself hoffset
    cases hlocate
    exact ⟨o, c, .nil o c, hself rfl, hoffset, rfl⟩
  | cons a path ih =>
    intro c o ty q hspelled hkeeps hty hlocate hwords hleads hself hoffset
    obtain ⟨hat, hspelled⟩ := hspelled
    obtain ⟨q₁, q₂, hpart, hrest, rfl⟩ := TypeTable.locate?_cons_eq_some hlocate
    have hq₁ := TypeTable.Part.component hsound hty hpart
    have hpart' := (TypeTable.component?_keep hkeeps hty a).trans hpart
    have hq₁' : c.types.Part ty q₁ := by
      refine ⟨(hq₁.sized.keep hkeeps).1, ?_⟩
      rw [hq₁.sized.words_keep hkeeps, hty.words_keep hkeeps]
      exact hq₁.inside
    -- a value that is not at a place is short enough to select from
    have hvalue : ∀ whole, o = .value whole → c.types.words whole < 256 := by
      rintro whole rfl
      rcases hleads with rfl | hpointer
      · rwa [← hty.words_keep hkeeps] at hwords
      · rw [show whole = .pointer ty from hpointer, TypeTable.words]
        decide
    have hinside := hq₁.inside
    have hoffset : o.offset + (q₁.1 + q₂.1) < 65536 := hoffset
    obtain ⟨o₁, c₁, hmember, hinner, hle, htypes, hbeside⟩ :=
      exists_member (g := g) hat hleads hpart' (hty.keep hkeeps).1 hq₁' hvalue (by omega)
    have htokens : c₁.tokens = c.tokens := hbeside.tokens
    have hspelled₁ : c₁.SpelledAt c₁.cursor path := by
      rw [hbeside.cursor]
      exact hspelled.congr htokens
    have hkeeps₁ : t.Keeps c₁.types := by rwa [htypes]
    obtain ⟨o', c', hchain, ho', hoffset', htypes'⟩ := ih hspelled₁ hkeeps₁ hq₁.sized hrest (by omega)
      (.inl hinner) (fun _ => hinner) (by omega)
    exact ⟨o', c', .cons (.dot hat hmember) hchain, ho', hoffset', htypes'.trans htypes⟩

end Access

namespace Expression

open CompileM

/-- A value that is boxed: its code, and then the instruction that moves it to the heap. -/
theorem boxed_eq_ok {g : Productions} {c c' : Compiler} {o : Operand} (h : boxed g c = .ok (o, c')) :
    ∃ (ty : Ty) (c₁ : Compiler) (r : Reader) (words : UInt16),
      g.expression .unary (c.on r) = .ok (ty, c₁) ∧ c₁.types.wordLength ty = .ok words.toNat ∧
      o = .value (.pointer ty) ∧ c' = c₁.mapBuilder (·.push (.ofByteShort .new 0 words)) := by
  obtain ⟨op, c₀, hadvance, h₀⟩ := bind_eq_ok h
  obtain ⟨⟨r, rfl⟩, -⟩ := Reads.advance c.reader op c₀ hadvance
  obtain ⟨ty, c₁, hread, h₁⟩ := bind_eq_ok h₀
  split at h₁
  · obtain ⟨_, _, hfail, -⟩ := bind_eq_ok h₁
    exact absurd hfail (Fails.failMismatch _ _ _ _ _ _)
  · obtain ⟨n, c₂, hsize, h₂⟩ := bind_eq_ok h₁
    obtain ⟨words, c₃, hshort, h₃⟩ := bind_eq_ok h₂
    obtain ⟨_, c₄, hemit, hreturn⟩ := bind_eq_ok h₃
    obtain ⟨rfl, hn⟩ := wordsOf_eq_ok hsize
    obtain ⟨rfl, hwords⟩ := short_eq_ok hshort
    cases hemit
    cases hreturn
    rw [← hwords] at hn
    exact ⟨ty, c₃, r, words, hread, hn, rfl, rfl⟩

end Expression

/-! ### All of them -/

/-- The ways to the part that a chain of accessors leads to, in values of a type with the words `V`. -/
structure ComponentAccess (t : TypeTable) (ty inner : Ty) (path : List Accessor) (offset : Nat)
    (V : Array Word) : Prop where
  /-- any compiled chain, behind a value, a variable or a pointer, with elements by number or by index,
  and the load behind it put the words of the part in the place of what the operand has on the stack -/
  words : ∀ {k n : Nat} {G : Outlook} {s : Stage} {o o' : Operand} {c c' : Compiler} {token : Token}
    {found : Ty} {p : Program} {time : Float} {m : Machine} {ws : Array Word},
    t.Keeps s.types → s.Holds G n o → m.stack.size < Address.heapRoom → m.Denotes o ws ty V →
    (path = [] → o.ty = ty) → Access.Chain (productions k) p time m path o s.toCompiler o' c →
    CompileM.load o' token c = .ok (found, c') → m.Has p s.toCompiler c' →
    found = inner ∧ ∃ j, Exec.Leads p time j (m.at_ s.here (m.stack ++ ws))
      (m.at_ c'.here (m.stack ++ Words.run V offset (t.words inner)))
  /-- a chain of names and numbers is accepted, and so is the load behind it -/
  accepted : ∀ {k : Nat} {c : Compiler} {o : Operand} {p : Program} {time : Float} {m : Machine}
    {token : Token}, t.Keeps c.types → c.SpelledAt c.cursor path → o.ty = ty ∨ o.ty = .pointer ty →
    (path = [] → o.ty = ty) → o.offset + offset < 65536 →
    ∃ o' c₁ c', Access.Chain (productions k) p time m path o c o' c₁ ∧
      CompileM.load o' token c₁ = .ok (inner, c')
  /-- a variable that is declared where the value lies holds it -/
  declared : ∀ {G : Outlook} {n : Nat} {s : Stage} {r : Reader} {name : Token} {v : Variable}
    {c : Compiler} {m : Machine} {S : Array Word}, s.Ready G n → StandsOn G.shape m.fp →
    m.stack = S ++ V → S.size = m.fp + s.scopeWords →
    CompileM.declare name ty (s.toCompiler.on r) = .ok (v, c) →
    m.Denotes (.place (.ofVariable v)) #[] ty V
  /-- a variable that the value is stored in holds it -/
  stored : ∀ {c c' : Compiler} {v : Variable} {token : Token} {p : Program} {time : Float}
    {m : Machine}, t.Keeps c.types → v.ty = ty → m.slot v + V.size ≤ m.stack.size →
    CompileM.store (.ofVariable v) token c = .ok ((), c') → m.Has p c c' →
    ∃ S, Exec.Leads p time 1 (m.at_ c.here (m.stack ++ V)) (m.at_ c'.here S) ∧
      (m.at_ c'.here S).Denotes (.place (.ofVariable v)) #[] ty V
  /-- when a value is boxed, its words lie behind the pointer, whatever is on the stack afterwards -/
  boxed : ∀ {k : Nat} {c c' : Compiler} {o : Operand},
    Expression.boxed (productions k) c = .ok (o, c') → o = .value (.pointer ty) →
    ∃ (c₁ : Compiler) (r : Reader), (productions k).expression .unary (c.on r) = .ok (ty, c₁) ∧
      ∀ {p : Program} {time : Float} {m m' : Machine}, t.Keeps c₁.types → m.Has p c₁ c' →
        Exec.Leads p time 1 (m.at_ c₁.here (m.stack ++ V)) m' → m'.heap.size < Address.heapRoom →
        ∃ a H, m' = { m.at_ c'.here (m.stack.push a) with heap := H } ∧
          ∀ ip stack, (m'.at_ ip stack).Lies a 0 V
  /-- a variable that holds the pointer leads to the value -/
  pointed : ∀ {m : Machine} {v : Variable} {a : Word}, v.ty = .pointer ty → m.Keeps v #[a] →
    m.Lies a 0 V → m.Denotes (.place (.ofVariable v)) #[] ty V

/-- The elements of a span. -/
structure ElementAccess (t : TypeTable) (element : Ty) (length : UInt16) : Prop where
  /-- a number is rejected just when there is no such element -/
  number : ∀ {k n : Nat} {c : Compiler} {o : Operand}, t.Keeps c.types →
    c.DotAt c.cursor (.element n) →
    o.ty = .span element length ∨ o.ty = .pointer (.span element length) →
    (∀ whole, o = .value whole → c.types.words whole < 256) → o.offset < 65536 →
    ((∃ e, Access.member (productions k) o c = .error e) ↔ length.toNat ≤ n)
  /-- the last instruction of an access by index faults just when the index is outside the span, and
  goes on otherwise -/
  index : ∀ {k n : Nat} {G : Outlook} {s : Stage} {o o' : Operand} {c' : Compiler} {p : Program}
    {time : Float} {m : Machine} {ws V : Array Word} {w : Word}, t.Keeps s.types → s.Holds G n o →
    m.stack.size < Address.heapRoom → V.size = t.words (.span element length) →
    m.Denotes o ws (.span element length) V →
    Access.IndexIs (productions k) p time m o s.toCompiler w →
    Access.index (productions k) o s.toCompiler = .ok (o', c') → m.Has p s.toCompiler c' →
    ∃ j m₁, Exec.Leads p time j (m.at_ s.here (m.stack ++ ws)) m₁ ∧ m₁.ip + 1 = c'.here ∧
      ((∃ m₂, Exec.step p time m₁ = .error (.indexOutOfBounds w.toInt length.toNat) m₂) ↔
        w.toInt < 0 ∨ (length.toNat : Int) ≤ w.toInt) ∧
      (0 ≤ w.toInt ∧ w.toInt < length.toNat →
        ∃ a, Exec.step p time m₁ = .ok .next (m.at_ c'.here (m.stack.push a)))

/-- All ways to a part of a value agree.  Whether a chain of accessors is applied to the value itself,
to a variable that holds it or through a pointer to it, and whether elements are given by number or by
index, the words are those at the offset of the part.  A number that no element of a span has is
rejected when the program is compiled, and such an index faults when it runs. -/
theorem access_paths_agree {t : TypeTable} {making : Nat → Prop} {ty inner : Ty}
    {path : List Accessor} {offset : Nat} {V : Array Word} (hsound : t.Sound making)
    (hty : t.HasSize ty) (hlocate : t.locate? ty path = some (offset, inner))
    (hV : V.size = t.words ty) (hlimit : V.size ≤ 255) :
    ComponentAccess t ty inner path offset V ∧
      ∀ element length, t.HasSize (.span element length) → ElementAccess t element length := by
  have hpart := TypeTable.Part.locate hsound hty hlocate
  refine ⟨⟨?_, ?_, ?_, ?_, ?_, ?_⟩, fun element length hspan => ⟨?_, ?_⟩⟩
  · intro k n G s o o' c c' token found p time m ws hkeeps hs hstack hdenotes hself hchain hload hhas
    obtain ⟨hinner, ws', hshows, hfirst, s', r', rfl, hkeeps'⟩ := hchain.turns (r := s.reader) rfl hs
      hkeeps hsound hty hlocate hV hstack hdenotes hself
    have hin := hpart.inside
    rw [← hV] at hin
    have hsize : (Words.run V offset (t.words inner)).size =
        (s'.toCompiler.on r').types.words o'.ty := by
      rw [hinner, Words.size_run hin]
      exact (hpart.sized.words_keep hkeeps').symm
    obtain ⟨rfl, hsecond⟩ := CompileM.turns_load p time hshows hsize hload
    exact ⟨hinner, (hfirst.trans hsecond).leads hhas⟩
  · intro k c o p time m token hkeeps hspelled hleads hself hoffset
    obtain ⟨o', c₁, hchain, hinner, hoffset', htypes⟩ := Access.exists_chain (g := productions k) p time
      m hsound hspelled hkeeps hty hlocate (by omega) hleads hself hoffset
    have hkeeps₁ : t.Keeps c₁.types := by rwa [htypes]
    have hin := hpart.inside
    obtain ⟨c', hload, -⟩ := CompileM.exists_load (c := c₁) (o := o') token
      (by rw [hinner]; exact (hpart.sized.keep hkeeps₁).1)
      (by rw [hinner, hpart.sized.words_keep hkeeps₁]; omega) hoffset'
    rw [hinner] at hload
    exact ⟨o', c₁, c', hchain, hload⟩
  · intro G n s r name v c m S hs hstands hm hS hdeclare
    obtain ⟨hv, hslot⟩ := hs.slot_of_declare hstands hdeclare
    have hbegin : m.slot v = S.size := hslot.trans hS.symm
    refine .itself hv (Machine.Keeps.shows ⟨?_, ?_⟩)
    · rw [hm, hbegin, Array.size_append]
    · rw [hm, hbegin, Words.run_append_right]
  · intro c c' v token p time m hkeeps hv hin hstore hhas
    have hw : V.size = c.types.words v.ty := by rw [hV, hv, hty.words_keep hkeeps]
    obtain ⟨hleads, hkept⟩ := CompileM.keeps_of_store hstore hhas hw hin
    exact ⟨_, hleads, .itself hv hkept.shows⟩
  · intro k c c' o hboxed ho
    obtain ⟨ty', c₁, r, words, hread, hwords, rfl, rfl⟩ := Expression.boxed_eq_ok hboxed
    cases ho
    refine ⟨c₁, r, hread, fun {p time m m'} hkeeps ⟨P, hP, hholds⟩ hleads hheap => ?_⟩
    have hwords : words.toNat = V.size := by
      rw [hV, ← hty.words_keep hkeeps, TypeTable.words_of_wordLength hwords]
    rw [Compiler.here_push]
    exact Exec.lies_of_new hP (Compiler.getElem?_of_holds_push hholds (.refl _)) hwords hleads hheap
  · intro m v a hv hkeeps hlies
    exact .pointer hv hkeeps.shows hlies
  · intro k n c o hkeeps hat hleads hwords hoffset
    exact Access.member_rejects_iff hat hleads (hspan.keep hkeeps).1 hwords hoffset
  · intro k n G s o o' c' p time m ws V w hkeeps hs hstack hV hdenotes hw hindex hhas
    have hV : V.size = s.types.words element * length.toNat := by
      rw [hV, ← hspan.words_keep hkeeps, TypeTable.words]
    exact hs.checks_index (r := s.reader) (productions_disciplined k) hdenotes hV hstack hw hindex hhas

/-! ### An element through a pointer -/

/-- A literal or a variable as an index has the value that it has in the machine. -/
theorem Access.indexIs_of_value {k : Nat} {p : Program} {time : Float} {m : Machine} {o : Operand}
    {c c₁ : Compiler} {span : Place} {token : Token} {w : Word} (hopened : opened o c = .ok (span, c₁))
    (htoken : c₁.tokens[c₁.cursor]? = some token)
    (hvalue : c₁.value? m token.kind token.lexeme = some #[w])
    (hends : c₁.kindAt (c₁.cursor + 1) ∈ Expression.ends) :
    IndexIs (productions (k + 1)) p time m o c w := by
  intro span' c₁' c₂ ty hopened' hread ⟨P, hP, hholds⟩ a
  rw [hopened] at hopened'
  cases hopened'
  obtain ⟨hgives, -⟩ := Expression.gives_of_read htoken hvalue hends hread
  obtain ⟨j, hleads⟩ := hgives.leads time #[a] hP hholds rfl rfl
  exact ⟨j, hleads⟩

/-- A structure with a span, a variable, and a pointer to a structure. -/
def rowModule : String :=
  "structure Row\n    field Int first\n    field Int<2> cells\nvar x = 1\n" ++
    "var q = new Row \x7b first = 7, cells = \x7b8, 9\x7d \x7d\n"

/-- An element of its span by index. -/
def rowUse : String :=
  "var y = q.cells[x]\n"

/-- Behind the name of the pointer. -/
def rowAccess (c : Compiler) (tokens : Array Token) : Compiler :=
  { c.atModule "main" tokens with cursor := 4 }

/-- The pointer. -/
def rowPointer : Operand :=
  .place (.ofVariable ⟨.pointer (.structure_ 0), 1, true⟩)

theorem access_paths_agree_row : ∃ (s : Stage) (o' : Operand) (c c' : Compiler) (p : Program)
    (m : Machine), compileModules [("rows", rowModule), ("main", rowUse)] = .ok p ∧
    s.Holds .whole s.scopeWords rowPointer ∧ s.types.HasSize (.structure_ 0) ∧
    s.types.locate? (.structure_ 0) [.field "cells", .element 1] = some (2, .int) ∧
    Access.Chain (productions 2) p 0 m [.field "cells", .element 1] rowPointer s.toCompiler o' c ∧
    (∃ token, CompileM.load o' token c = .ok (.int, c')) ∧
    m.Denotes rowPointer #[] (.structure_ 0) #[7, 8, 9] ∧ m.ip = s.here ∧
    (∃ j, Exec.Leads p 0 j m (m.at_ c'.here (m.stack ++ #[9]))) ∧
    ElementAccess s.types .int 2 := by
  have hcheck : ((addSource .start "rows" rowModule).toOption.any fun c =>
      (tokenize "main" rowUse).toOption.any fun tokens =>
      decide (c.chunks.size = 1) && decide (c.externals.size = 0) &&
      decide ((rowAccess c tokens).scopes.lookupVariable? (rowAccess c tokens).scope "q" =
        some ⟨.pointer (.structure_ 0), 1, true⟩) &&
      decide ((c.types.at_ 0).complete = true) &&
      decide (c.types.locate? (.structure_ 0) [.field "cells", .element 1] = some (2, .int)) &&
      decide (c.types.words (.structure_ 0) = 3) &&
      decide ((rowAccess c tokens).kindAt 4 = .symbol .dot) &&
      ((rowAccess c tokens).tokens[5]?.any fun t =>
        decide (t.kind = .identifier) && decide (t.lexeme = "cells")) &&
      decide ((rowAccess c tokens).kindAt 6 ≠ .symbol .leftParen) &&
      (addSource c "main" rowUse).toOption.any fun c₂ =>
      ((Machine.new {}).boot c₂.build).toOption.any fun m₁ =>
      (Access.member (productions 2) rowPointer (rowAccess c tokens)).toOption.any fun r =>
      decide (r.2.kindAt r.2.cursor = .symbol .leftBracket) &&
      ((Access.opened r.1 r.2).toOption.any fun q => q.2.tokens[q.2.cursor]?.any fun t =>
        decide (q.2.value? (m₁.run 8 0).2 t.kind t.lexeme = some #[1]) &&
        decide (q.2.kindAt (q.2.cursor + 1) ∈ Expression.ends)) &&
      (Access.index (productions 2) r.1 r.2).toOption.any fun r₂ =>
      (CompileM.load r₂.1 r₂.2.eof r₂.2).toOption.any fun r₃ => c₂.build.chunks[0]?.any fun P =>
        decide (∀ j, j < r₃.2.builder.code.code.size → (rowAccess c tokens).builder.code.code.size ≤ j →
          P.code[j]? = r₃.2.builder.code.code[j]?) &&
        decide (r₃.2.builder.code.constants.toList <+: P.constants.toList) &&
        decide ((m₁.run 8 0).2.chunk = 0) && decide ((m₁.run 8 0).2.ip = (rowAccess c tokens).here) &&
        decide ((m₁.run 8 0).2.stack = #[1, Address.ofHeap 0]) &&
        decide ((m₁.run 8 0).2.heap.words = #[7, 8, 9])) = true := by
    decide +kernel
  obtain ⟨c, hadd, hcheck⟩ := exists_of_any hcheck
  obtain ⟨tokens, -, hcheck⟩ := exists_of_any hcheck
  simp only [Bool.and_eq_true, decide_eq_true_eq] at hcheck
  obtain ⟨⟨⟨⟨⟨⟨⟨⟨⟨hchunks, hexternals⟩, hlookup⟩, hcomplete⟩, hlocate⟩, hwords⟩, hdot⟩, hname⟩, huncalled⟩,
    hcheck⟩ := hcheck
  obtain ⟨c₂, hadd₂, hcheck⟩ := exists_of_any hcheck
  obtain ⟨m₁, -, hcheck⟩ := exists_of_any hcheck
  obtain ⟨⟨o₁, d₁⟩, hmember, hcheck⟩ := exists_of_any hcheck
  simp only [Bool.and_eq_true, decide_eq_true_eq] at hcheck
  obtain ⟨⟨hbracket, hopened⟩, hcheck⟩ := hcheck
  obtain ⟨⟨span, d⟩, hopened, hindexed⟩ := exists_of_any hopened
  obtain ⟨⟨o₂, d₂⟩, hindex, hcheck⟩ := exists_of_any hcheck
  obtain ⟨⟨found, c'⟩, hload, hcheck⟩ := exists_of_any hcheck
  obtain ⟨P, hP, hcheck⟩ := (Option.any_eq_true _ _).mp hcheck
  obtain ⟨field, hfield, hname⟩ := (Option.any_eq_true _ _).mp hname
  obtain ⟨x, hx, hindexed⟩ := (Option.any_eq_true _ _).mp hindexed
  simp only [Bool.and_eq_true, decide_eq_true_eq] at hcheck hname hindexed
  obtain ⟨⟨⟨⟨⟨hcode, hconstants⟩, hchunk⟩, hip⟩, hstack⟩, hheap⟩ := hcheck
  generalize (m₁.run 8 0).2 = m at hindexed hchunk hip hstack hheap
  have hready : Stage.Ready .whole c.scopeWords ⟨rowAccess c tokens, ⟨[none], []⟩⟩ :=
    Stage.ready_of_alone tokens 4 hadd hchunks hexternals
  have hscope : (rowAccess c tokens).scope < (rowAccess c tokens).scopes.scopes.size :=
    Nat.lt_of_succ_le (Nat.le_of_eq hready.at_.scope)
  have hholds : Stage.Holds .whole c.scopeWords ⟨rowAccess c tokens, ⟨[none], []⟩⟩ rowPointer :=
    hready.holds_variable (Nat.le_refl _) (hready.sound.scopes.variable_fits hscope hlookup)
  have hsize : c.types.HasSize (.structure_ 0) := TypeTable.hasSize_of_complete hcomplete
  have hpart := TypeTable.Part.locate hready.sound.types hsize hlocate
  have hmemory : m.stack.size < Address.heapRoom ∧ m.heap.size < Address.heapRoom := by
    rw [Heap.size, hstack, hheap]
    decide
  have hdenotes : m.Denotes rowPointer #[] (.structure_ 0) #[7, 8, 9] := by
    refine .pointer rfl (Machine.Keeps.shows ⟨?_, ?_⟩) (.of_heap (k := 0) hmemory.2 ?_ ?_)
    · rw [hstack]
      exact Nat.le_refl 2
    · rw [hstack]
      rfl
    · rw [Heap.size, hheap]
      decide
    · rw [hheap]
      rfl
  have hchain : Access.Chain (productions 2) c₂.build 0 m [.field "cells", .element 1] rowPointer
      (rowAccess c tokens) o₂ d₂ :=
    .cons (.dot ⟨hdot, ⟨field, hfield, hname⟩, fun _ _ => huncalled⟩ hmember)
      (.cons (.bracket (w := 1) hbracket rfl
        (Access.indexIs_of_value hopened hx hindexed.1 hindexed.2) hindex) (.nil o₂ d₂))
  obtain ⟨hcomponent, helements⟩ := access_paths_agree (V := #[7, 8, 9]) hready.sound.types hsize hlocate
    hwords.symm (by decide)
  have hhas : m.Has c₂.build (rowAccess c tokens) c' :=
    ⟨P, hchunk ▸ hP, fun j hle hlt => hcode j hlt hle, hconstants⟩
  obtain ⟨rfl, hleads⟩ := hcomponent.words (TypeTable.Le.refl _).keeps hholds hmemory.1 hdenotes
    (fun h => by cases h) hchain hload hhas
  have hcompile : compileModules [("rows", rowModule), ("main", rowUse)] = .ok c₂.build := by
    rw [compileModules]
    simp only [addSources, hadd, hadd₂]
    rfl
  have hfront : m.at_ (rowAccess c tokens).here (m.stack ++ #[]) = m := by
    rw [Array.append_empty, ← hip]
    rfl
  refine ⟨⟨rowAccess c tokens, ⟨[none], []⟩⟩, o₂, d₂, c', c₂.build, m, hcompile, hholds, hsize, hlocate,
    hchain, ⟨_, hload⟩, hdenotes, hip, ?_, helements .int 2 ?_⟩
  · rwa [hfront] at hleads
  · rfl

end WordScript
