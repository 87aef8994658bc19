/-
The code of a script does what the script does.

Between statements the stack holds the values of the variables and nothing else.  So
the code of a script, started on the values of a store, comes to the place that the
outcome of the script says with the values of the store that it says: behind the
script, behind the loop around it, or at the beginning of that loop, where the
variables of the scopes that were left are gone.  A script without an outcome keeps
the machine busy for ever, and so a machine that stops tells the outcome.

* `Script.Placed.reached` — the machine follows a script to its outcome;
* `Script.Placed.ends_or_runs` — or runs as long as one likes;
* `halts_iff_runs` — compiled scripts halt and fault exactly when the scripts do.
-/
import WordScript.Proofs.ScriptCode
import WordScript.Proofs.ExpressionValues

namespace WordScript

namespace Store

variable {σ : Store} {Γ : Context} {n k : Nat}

@[simp] theorem length_types (σ : Store) : (types σ).length = σ.length :=
  List.length_map _

theorem keep_length (σ : Store) : keep σ.length σ = σ := by
  rw [keep, Nat.sub_self, List.drop_zero]

theorem keep_keep (hk : k ≤ n) (hn : n ≤ σ.length) : keep k (keep n σ) = keep k σ := by
  rw [keep, keep, keep, List.length_drop, List.drop_drop]
  congr 1
  omega

/-- The oldest variables have the oldest types. -/
theorem types_keep (h : Γ <:+ types σ) : types (keep Γ.length σ) = Γ := by
  obtain ⟨new, hnew⟩ := h
  have hlength : new.length + Γ.length = σ.length := by
    rw [← length_types σ, ← hnew, List.length_append]
  rw [types, keep, List.map_drop, show σ.length - Γ.length = new.length by omega]
  exact (congrArg (List.drop new.length) hnew.symm).trans List.drop_left

/-- The words of the oldest variables lie below those of the others. -/
theorem words_eq_append (h : n ≤ σ.length) :
    ∃ t : Array Word, t.size = σ.length - n ∧ words σ = words (keep n σ) ++ t := by
  refine ⟨words (σ.take (σ.length - n)), ?_, ?_⟩
  · rw [size_words, List.length_take]
    omega
  · have hsplit : σ = σ.take (σ.length - n) ++ keep n σ := (List.take_append_drop _ _).symm
    conv_lhs => rw [hsplit]
    simp only [words, List.map_append, List.reverse_append, List.append_toArray]

theorem types_set {x : String} {v w : Value} (h : slot? x σ = some (w, k))
    (hv : v.scalar = w.scalar) : types (set x v σ) = types σ := by
  induction σ with
  | nil => cases h
  | cons e older ih =>
    obtain ⟨y, u⟩ := e
    rw [slot?] at h
    rw [set]
    split at h
    · next hx =>
      cases h
      rw [if_pos hx, types, List.map_cons, types, List.map_cons, hv]
    · next hx =>
      rw [if_neg hx]
      exact congrArg (_ :: ·) (ih h)

/-- A new value is put where the old one was. -/
theorem words_set {x : String} {v w : Value} (h : slot? x σ = some (w, k)) :
    words (set x v σ) = (words σ).setIfInBounds k v.word := by
  induction σ with
  | nil => cases h
  | cons e older ih =>
    obtain ⟨y, u⟩ := e
    rw [slot?] at h
    rw [set]
    split at h
    · next hx =>
      cases h
      rw [if_pos hx, words_cons, words_cons, ← size_words older]
      refine Array.ext_getElem? fun i => ?_
      rw [Array.getElem?_setIfInBounds, Array.getElem?_push, Array.getElem?_push]
      grind
    · next hx =>
      have hlt := slot?_lt h
      rw [if_neg hx, words_cons, words_cons, ih h]
      exact (Words.setIfInBounds_push_of_lt (by rw [size_words]; exact hlt)).symm

end Store

section Steps

variable {p : Program} {P : Chunk} {time : Float} {m : Machine} {σ : Store} {Γ : Context}
  {start next : Nat}

/-- Variables are dropped. -/
theorem Chunk.Drops.leads {words : Nat} (h : P.Drops words start next)
    (hP : p.chunks[m.chunk]? = some P) (hwords : words ≤ σ.length) (time : Float) :
    ∃ n, Exec.Leads p time n (m.at_ start σ.words)
      (m.at_ next (σ.keep (σ.length - words)).words) := by
  rcases h with ⟨rfl, rfl⟩ | ⟨-, hlt, hpop, rfl⟩
  · rw [Nat.sub_zero, Store.keep_length]
    exact ⟨0, .refl p time _⟩
  · obtain ⟨t, ht, happend⟩ := Store.words_eq_append (σ := σ) (Nat.sub_le σ.length words)
    have hsize : t.size = words := by omega
    rw [happend]
    rw [← hsize] at hpop hlt
    exact ⟨1, Exec.leads_pop hP hpop hlt⟩

theorem Chunk.Jumps.leads (h : P.Jumps .jump start next) (hP : p.chunks[m.chunk]? = some P)
    (s : Array Word) (time : Float) : Exec.Leads p time 1 (m.at_ start s) (m.at_ next s) := by
  obtain ⟨hle, i, hi, hop, htarget⟩ := h
  exact Exec.leads_jump hP hi hop htarget hle

namespace Tree.Placed

variable {e : Tree} {ty : Scalar} {v : Value}

/-- The code of an expression computes its value, or divides by zero if it has none. -/
theorem computes (h : e.Placed P Γ ty start next) (hP : p.chunks[m.chunk]? = some P)
    (hσ : σ.types = Γ) (time : Float) :
    (∃ v n, e.eval σ = .ok v ∧ v.scalar = ty ∧ 0 < n ∧
      Exec.Leads p time n (m.at_ start σ.words) (m.at_ next (σ.words.push v.word))) ∨
    e.eval σ = .error .divisionByZero ∧
      (m.at_ start σ.words).FaultsWith p time .divisionByZero := by
  obtain ⟨c, c', hemit, hholds, rfl, rfl⟩ := h
  subst hσ
  exact Tree.computes_value hP hemit hholds time

theorem leads (h : e.Placed P Γ ty start next) (hP : p.chunks[m.chunk]? = some P)
    (hσ : σ.types = Γ) (hv : e.eval σ = .ok v) (time : Float) :
    v.scalar = ty ∧ ∃ n, 0 < n ∧
      Exec.Leads p time n (m.at_ start σ.words) (m.at_ next (σ.words.push v.word)) := by
  rcases h.computes hP hσ time with ⟨v', n, hv', hscalar, hn, hleads⟩ | ⟨herror, -⟩
  · cases hv.symm.trans hv'
    exact ⟨hscalar, n, hn, hleads⟩
  · cases hv.symm.trans herror

theorem faults (h : e.Placed P Γ ty start next) (hP : p.chunks[m.chunk]? = some P)
    (hσ : σ.types = Γ) (he : e.eval σ = .error .divisionByZero) (time : Float) :
    (m.at_ start σ.words).FaultsWith p time .divisionByZero := by
  rcases h.computes hP hσ time with ⟨v', n, hv', -⟩ | ⟨-, hfaults⟩
  · cases he.symm.trans hv'
  · exact hfaults

/-- A condition decides which way control goes. -/
theorem test {test : Nat} {b : Bool} (h : e.Placed P Γ .bool start test)
    (hjump : P.Jumps .jumpIfFalse test next) (hP : p.chunks[m.chunk]? = some P)
    (hσ : σ.types = Γ) (hb : e.eval σ = .ok (.bool b)) (time : Float) :
    ∃ n, 0 < n ∧ Exec.Leads p time n (m.at_ start σ.words)
      (m.at_ (if b then test + 1 else next) σ.words) := by
  obtain ⟨-, n, hn, hleads⟩ := h.leads hP hσ hb time
  obtain ⟨hle, i, hi, hop, htarget⟩ := hjump
  have hstep : Exec.Leads p time 1 (m.at_ test (σ.words.push (Value.bool b).word))
      (m.at_ (if (Value.bool b).word = 0 then next else test + 1) σ.words) :=
    Exec.leads_jumpIfFalse hP hi hop htarget hle
  refine ⟨n + 1, Nat.succ_pos n, hleads.trans ?_⟩
  cases b <;> exact hstep

/-- A condition has a truth value unless it divides by zero. -/
theorem truth {test : Nat} (h : e.Placed P Γ .bool start test) (hP : p.chunks[m.chunk]? = some P)
    (hσ : σ.types = Γ) :
    (∃ b, e.eval σ = .ok (.bool b)) ∨ e.eval σ = .error .divisionByZero := by
  rcases h.computes hP hσ 0 with ⟨v, n, hv, hscalar, -⟩ | ⟨herror, -⟩
  · cases v with
    | bool b => exact .inl ⟨b, hv⟩
    | int i => cases hscalar
  · exact .inr herror

end Tree.Placed

end Steps

namespace Outcome

/-- From `m₀` on, the machine does what an outcome of a script says: a script that began with the
variables of `Γ` and ends at the place `next` with those of `Γ'`. -/
def Reached (p : Program) (time : Float) (m : Machine) (L : Option LoopPlace) (Γ Γ' : Context)
    (place : Nat) (m₀ : Machine) : Outcome → Prop
  | next σ => σ.types = Γ' ∧ Γ <:+ Γ' ∧ ∃ n, Exec.Leads p time n m₀ (m.at_ place σ.words)
  | break_ σ => Γ <:+ σ.types ∧ ∃ l n, L = some l ∧ 0 < n ∧
      Exec.Leads p time n m₀ (m.at_ l.exit (σ.keep l.words).words)
  | continue_ σ => Γ <:+ σ.types ∧ ∃ l n, L = some l ∧ 0 < n ∧
      Exec.Leads p time n m₀ (m.at_ l.start (σ.keep l.words).words)
  | fault => m₀.FaultsWith p time .divisionByZero

variable {p : Program} {P : Chunk} {time : Float} {m m₀ m₁ : Machine} {L : Option LoopPlace}
  {Γ Γ₁ Γ' g : Context} {place k start behind back : Nat} {o o' : Outcome} {σ : Store}

theorem Reached.of_leads {n : Nat} (hleads : Exec.Leads p time n m₀ m₁)
    (h : o.Reached p time m L Γ Γ' place m₁) : o.Reached p time m L Γ Γ' place m₀ := by
  cases o with
  | next σ =>
    obtain ⟨htypes, hsuffix, k, hk⟩ := h
    exact ⟨htypes, hsuffix, n + k, hleads.trans hk⟩
  | break_ σ =>
    obtain ⟨hsuffix, l, k, hl, hpos, hk⟩ := h
    exact ⟨hsuffix, l, n + k, hl, Nat.add_pos_right n hpos, hleads.trans hk⟩
  | continue_ σ =>
    obtain ⟨hsuffix, l, k, hl, hpos, hk⟩ := h
    exact ⟨hsuffix, l, n + k, hl, Nat.add_pos_right n hpos, hleads.trans hk⟩
  | fault => exact .of_leads hleads h

/-- An outcome after which the script does not go on has nothing to do with its end. -/
theorem Reached.out (h : o.Reached p time m L Γ Γ₁ k m₀) (ho : o.goesOn = false) :
    o.Reached p time m L Γ Γ' place m₀ := by
  cases o with
  | next σ => cases ho
  | _ => exact h

/-- An outcome of a script that began after another one. -/
theorem Reached.after (h : o.Reached p time m L Γ₁ Γ' place m₀) (hΓ : Γ <:+ Γ₁) :
    o.Reached p time m L Γ Γ' place m₀ := by
  cases o with
  | next σ =>
    obtain ⟨htypes, hsuffix, hleads⟩ := h
    exact ⟨htypes, hΓ.trans hsuffix, hleads⟩
  | break_ σ => exact ⟨hΓ.trans h.1, h.2⟩
  | continue_ σ => exact ⟨hΓ.trans h.1, h.2⟩
  | fault => exact h

theorem length_le_of_suffix (h : Γ <:+ σ.types) : Γ.length ≤ σ.length := by
  rw [← Store.length_types σ]
  exact h.length_le

/-- The end of a body: its variables are dropped. -/
theorem Reached.drop (h : (next σ).Reached p time m L Γ (g ++ Γ) k m₀)
    (hdrops : P.Drops g.length k place) (hP : p.chunks[m.chunk]? = some P) :
    (σ.keep Γ.length).types = Γ ∧
      ∃ n, Exec.Leads p time n m₀ (m.at_ place (σ.keep Γ.length).words) := by
  obtain ⟨htypes, hsuffix, n, hn⟩ := h
  have hlength : σ.length = g.length + Γ.length := by
    rw [← Store.length_types σ, htypes, List.length_append]
  obtain ⟨j, hj⟩ := hdrops.leads (σ := σ) hP (by omega) time
  rw [show σ.length - g.length = Γ.length by omega] at hj
  exact ⟨Store.types_keep (htypes ▸ hsuffix), n + j, hn.trans hj⟩

/-- A scope is left: whatever the outcome, its variables are gone. -/
theorem Reached.leave (h : o.Reached p time m L Γ (g ++ Γ) k m₀)
    (hdrops : P.Drops g.length k place) (hP : p.chunks[m.chunk]? = some P)
    (hL : ∀ l ∈ L, l.words ≤ Γ.length) :
    (o.leave Γ.length).Reached p time m L Γ Γ place m₀ := by
  cases o with
  | next σ =>
    obtain ⟨htypes, hleads⟩ := h.drop hdrops hP
    exact ⟨htypes, List.suffix_refl Γ, hleads⟩
  | break_ σ =>
    obtain ⟨hsuffix, l, n, rfl, hpos, hn⟩ := h
    refine ⟨by rewrite [Store.types_keep hsuffix]; exact List.suffix_refl Γ, l, n, rfl, hpos, ?_⟩
    rwa [Store.keep_keep (hL l (Option.mem_some_self l)) (length_le_of_suffix hsuffix)]
  | continue_ σ =>
    obtain ⟨hsuffix, l, n, rfl, hpos, hn⟩ := h
    refine ⟨by rewrite [Store.types_keep hsuffix]; exact List.suffix_refl Γ, l, n, rfl, hpos, ?_⟩
    rwa [Store.keep_keep (hL l (Option.mem_some_self l)) (length_le_of_suffix hsuffix)]
  | fault => exact h

/-- A script ends at a jump. -/
theorem Reached.jump (h : o.Reached p time m L Γ Γ' k m₀) (hjump : P.Jumps .jump k place)
    (hP : p.chunks[m.chunk]? = some P) : o.Reached p time m L Γ Γ' place m₀ := by
  cases o with
  | next σ =>
    obtain ⟨htypes, hsuffix, n, hn⟩ := h
    exact ⟨htypes, hsuffix, n + 1, hn.trans (hjump.leads hP _ time)⟩
  | _ => exact h

/-- The body of a loop has come to an end after which the loop begins anew. -/
theorem Reached.again (h : o.Reached p time m (some ⟨⟨start, Γ.length⟩, behind⟩) Γ (g ++ Γ) k m₀)
    (hdrops : P.Drops g.length k back) (hjump : P.Jumps .jump back start)
    (hP : p.chunks[m.chunk]? = some P) (hagain : (o.leave Γ.length).again? = some σ) :
    σ.types = Γ ∧ ∃ n, 0 < n ∧ Exec.Leads p time n m₀ (m.at_ start σ.words) := by
  cases o with
  | next σ' =>
    cases hagain
    obtain ⟨htypes, n, hn⟩ := h.drop hdrops hP
    exact ⟨htypes, n + 1, Nat.succ_pos n, hn.trans (hjump.leads hP _ time)⟩
  | break_ σ' => cases hagain
  | continue_ σ' =>
    cases hagain
    obtain ⟨hsuffix, l, n, hl, hpos, hn⟩ := h
    cases hl
    exact ⟨Store.types_keep hsuffix, n, hpos, hn⟩
  | fault => cases hagain

/-- The body of a loop has come to an end after which the loop is left. -/
theorem Reached.exit (h : o.Reached p time m (some ⟨⟨start, Γ.length⟩, behind⟩) Γ Γ₁ k m₀)
    (hexit : (o.leave Γ.length).exit? = some o') : o'.Reached p time m L Γ Γ behind m₀ := by
  cases o with
  | next σ => cases hexit
  | break_ σ =>
    cases hexit
    obtain ⟨hsuffix, l, n, hl, -, hn⟩ := h
    cases hl
    exact ⟨Store.types_keep hsuffix, List.suffix_refl Γ, n, hn⟩
  | continue_ σ => cases hexit
  | fault =>
    cases hexit
    exact h

/-- After its body a loop begins anew or is left. -/
theorem again?_or_exit? (o : Outcome) : (∃ σ, o.again? = some σ) ∨ ∃ o', o.exit? = some o' := by
  cases o with
  | next σ => exact .inl ⟨σ, rfl⟩
  | break_ σ => exact .inr ⟨_, rfl⟩
  | continue_ σ => exact .inl ⟨σ, rfl⟩
  | fault => exact .inr ⟨_, rfl⟩

end Outcome

namespace Script

variable {p : Program} {P : Chunk} {m : Machine} {L : Option LoopPlace}
  {Γ Γ' : Scopes} {start next : Nat} {s : Script} {σ : Store} {o : Outcome}

/-- A statement begins with the code of its expression. -/
theorem Placed.first {e : Tree} (h : s.Placed P L Γ start next Γ') (he : s.first? = some e) :
    ∃ ty k, e.Placed P Γ.flatten ty start k := by
  cases s with
  | var x e' =>
    cases he
    obtain ⟨ty, h, -⟩ := h
    exact ⟨ty, next, h⟩
  | assign x e' =>
    cases he
    obtain ⟨ty, slot, k, -, -, h, -⟩ := h
    exact ⟨ty, k, h⟩
  | when e' s =>
    cases he
    obtain ⟨test, k, g, h, -⟩ := h
    exact ⟨.bool, test, h⟩
  | cond e' s t =>
    cases he
    obtain ⟨test, k, g, jump, k', g', h, -⟩ := h
    exact ⟨.bool, test, h⟩
  | while_ e' s =>
    cases he
    obtain ⟨test, k, g, jump, h, -⟩ := h
    exact ⟨.bool, test, h⟩
  | skip => cases he
  | seq s t => cases he
  | loop s => cases he
  | break_ => cases he
  | continue_ => cases he

/-- An assignment puts the value where the variable is. -/
theorem Placed.assign {x : String} {e : Tree} {v : Value}
    (h : (Script.assign x e).Placed P L Γ start next Γ') (hP : p.chunks[m.chunk]? = some P)
    (hσ : σ.types = Γ.flatten) (hv : e.eval σ = .ok v) (time : Float) :
    (∃ w, σ.lookup x = some w) ∧
      (Outcome.next (σ.set x v)).Reached p time m L Γ.flatten Γ'.flatten next
        (m.at_ start σ.words) := by
  obtain ⟨ty, slot, k, hslot, hlt, he, hstore, rfl, rfl⟩ := h
  rw [← hσ, Store.slot?_types] at hslot
  obtain ⟨⟨w, slot'⟩, hw, heq⟩ := Option.map_eq_some_iff.mp hslot
  cases heq
  obtain ⟨hscalar, n, -, hleads⟩ := he.leads hP hσ hv time
  have hstored : Exec.Leads p time 1 (m.at_ k (σ.words.push v.word))
      (m.at_ (k + 1) (σ.words.setIfInBounds slot' v.word)) :=
    Exec.leads_storeGlobal hP hstore hlt (by rw [Store.size_words]; exact slot?_lt hw)
  refine ⟨⟨w, by rw [lookup_eq_slot?, hw]; rfl⟩, ?_, List.suffix_refl _, n + 1, ?_⟩
  · rw [Store.types_set hw hscalar, hσ]
  · rw [Store.words_set hw]
    exact hleads.trans hstored

/-- What a script does before control leaves it by a jump: the variables of the scopes that are left
are dropped. -/
theorem leads_unwind {l : LoopPlace} {k target : Nat} (hP : p.chunks[m.chunk]? = some P)
    (hσ : σ.types = Γ.flatten) (hl : l.words ≤ Γ.flatten.length)
    (hdrops : P.Drops (Γ.flatten.length - l.words) start k) (hjump : P.Jumps .jump k target)
    (time : Float) :
    ∃ n, 0 < n ∧ Exec.Leads p time n (m.at_ start σ.words)
      (m.at_ target (σ.keep l.words).words) := by
  have hlength : σ.length = Γ.flatten.length := by rw [← hσ, Store.length_types]
  obtain ⟨n, hleads⟩ := hdrops.leads (σ := σ) hP (by omega) time
  rw [show σ.length - (Γ.flatten.length - l.words) = l.words by omega] at hleads
  exact ⟨n + 1, Nat.succ_pos n, hleads.trans (hjump.leads hP _ time)⟩

/-- The machine follows a script to its outcome. -/
theorem Placed.reached (hruns : s.Runs σ o) (hP : p.chunks[m.chunk]? = some P)
    (h : s.Placed P L Γ start next Γ') (hσ : σ.types = Γ.flatten)
    (hL : ∀ l ∈ L, l.words ≤ Γ.flatten.length) (time : Float) :
    o.Reached p time m L Γ.flatten Γ'.flatten next (m.at_ start σ.words) := by
  have hlength : σ.length = Γ.flatten.length := by rw [← hσ, Store.length_types]
  -- the induction is on the run of the script, which goes round a loop one time less
  induction hruns generalizing L Γ start next Γ' with
  | skip =>
    obtain ⟨rfl, rfl⟩ := h
    exact ⟨hσ, List.suffix_refl _, 0, .refl p time _⟩
  | @seq s t σ σ₁ o _ _ ihs iht =>
    obtain ⟨k, Γ₁, hs, ht⟩ := h
    obtain ⟨htypes, hsuffix, n, hleads⟩ := ihs hs hσ hL hlength
    have hlength₁ : σ₁.length = Γ₁.flatten.length := by rw [← htypes, Store.length_types]
    have hrest := iht ht htypes (fun l hl => Nat.le_trans (hL l hl) hsuffix.length_le) hlength₁
    exact (hrest.after hsuffix).of_leads hleads
  | seqOut _ hout ih =>
    obtain ⟨k, Γ₁, hs, ht⟩ := h
    exact (ih hs hσ hL hlength).out hout
  | fault hfirst he =>
    obtain ⟨ty, k, hplaced⟩ := h.first hfirst
    exact hplaced.faults hP hσ he time
  | @var x e σ v hv =>
    obtain ⟨ty, he, rfl⟩ := h
    obtain ⟨rfl, n, -, hleads⟩ := he.leads hP hσ hv time
    have hflatten : List.flatten (((x, v.scalar) :: Γ.headD []) :: Γ.tail) =
        (x, v.scalar) :: Γ.flatten := by
      cases Γ <;> rfl
    refine ⟨?_, ?_, n, ?_⟩
    · rw [hflatten, ← hσ]
      rfl
    · rw [hflatten]
      exact List.suffix_cons _ _
    · rw [Store.words_cons]
      exact hleads
  | assign _ hv => exact (h.assign hP hσ hv time).2
  | whenTrue hb _ ih =>
    obtain ⟨test, k, g, he, hjump, hs, hdrops, rfl⟩ := h
    obtain ⟨n, -, hleads⟩ := he.test hjump hP hσ hb time
    rw [hlength]
    exact ((ih hs hσ hL hlength).leave hdrops hP hL).of_leads hleads
  | whenFalse hb =>
    obtain ⟨test, k, g, he, hjump, -, -, rfl⟩ := h
    obtain ⟨n, -, hleads⟩ := he.test hjump hP hσ hb time
    exact ⟨hσ, List.suffix_refl _, n, hleads⟩
  | condTrue hb _ ih =>
    obtain ⟨test, k, g, jump, k', g', he, hskip, hs, hdrops, hjump, -, -, rfl⟩ := h
    obtain ⟨n, -, hleads⟩ := he.test hskip hP hσ hb time
    rw [hlength]
    exact (((ih hs hσ hL hlength).leave hdrops hP hL).jump hjump hP).of_leads hleads
  | condFalse hb _ ih =>
    obtain ⟨test, k, g, jump, k', g', he, hskip, -, -, -, ht, hdrops, rfl⟩ := h
    obtain ⟨n, -, hleads⟩ := he.test hskip hP hσ hb time
    rw [hlength]
    exact ((ih ht hσ hL hlength).leave hdrops hP hL).of_leads hleads
  | whileFalse hb =>
    obtain ⟨test, k, g, jump, he, hjump, -, -, -, rfl⟩ := h
    obtain ⟨n, -, hleads⟩ := he.test hjump hP hσ hb time
    exact ⟨hσ, List.suffix_refl _, n, hleads⟩
  | @whileAgain e s σ σ₁ o o' hb _ hagain _ ihs ihloop =>
    have hloop := h
    obtain ⟨test, k, g, jump, he, hskip, hs, hdrops, hjump, rfl⟩ := h
    obtain ⟨n, -, hleads⟩ := he.test hskip hP hσ hb time
    rw [hlength] at hagain
    obtain ⟨htypes, n₁, -, hbody⟩ := (ihs hs hσ (by simp) hlength).again hdrops hjump hP hagain
    have hlength₁ : σ₁.length = Γ'.flatten.length := by rw [← htypes, Store.length_types]
    exact (ihloop hloop htypes hL hlength₁).of_leads (hleads.trans hbody)
  | whileExit hb _ hexit ih =>
    obtain ⟨test, k, g, jump, he, hskip, hs, hdrops, hjump, rfl⟩ := h
    obtain ⟨n, -, hleads⟩ := he.test hskip hP hσ hb time
    rw [hlength] at hexit
    exact ((ih hs hσ (by simp) hlength).exit hexit).of_leads hleads
  | @loopAgain s σ σ₁ o o' _ hagain _ ihs ihloop =>
    have hloop := h
    obtain ⟨k, g, jump, hs, hdrops, hjump, rfl⟩ := h
    rw [hlength] at hagain
    obtain ⟨htypes, n₁, -, hbody⟩ := (ihs hs hσ (by simp) hlength).again hdrops hjump hP hagain
    have hlength₁ : σ₁.length = Γ'.flatten.length := by rw [← htypes, Store.length_types]
    exact (ihloop hloop htypes hL hlength₁).of_leads hbody
  | loopExit _ hexit ih =>
    obtain ⟨k, g, jump, hs, hdrops, hjump, rfl⟩ := h
    rw [hlength] at hexit
    exact (ih hs hσ (by simp) hlength).exit hexit
  | break_ =>
    obtain ⟨l, k, rfl, hdrops, hjump, -, rfl⟩ := h
    obtain ⟨n, hpos, hleads⟩ := leads_unwind hP hσ (hL l (Option.mem_some_self l)) hdrops hjump time
    exact ⟨by rewrite [hσ]; exact List.suffix_refl _, l, n, rfl, hpos, hleads⟩
  | continue_ =>
    obtain ⟨l, k, rfl, hdrops, hjump, -, rfl⟩ := h
    obtain ⟨n, hpos, hleads⟩ := leads_unwind hP hσ (hL l (Option.mem_some_self l)) hdrops hjump time
    exact ⟨by rewrite [hσ]; exact List.suffix_refl _, l, n, rfl, hpos, hleads⟩

/-- A script either has an outcome or keeps the machine busy, for as many instructions as one likes. -/
theorem Placed.ends_or_runs (hP : p.chunks[m.chunk]? = some P) (h : s.Placed P L Γ start next Γ')
    (hσ : σ.types = Γ.flatten) (hL : ∀ l ∈ L, l.words ≤ Γ.flatten.length) (time : Float) (n : Nat) :
    (∃ o, s.Runs σ o) ∨ (m.at_ start σ.words).RunsFor p time n := by
  -- the induction is on the script; a loop needs one on the number of instructions within
  induction s generalizing L Γ start next Γ' σ n with
  | skip => exact .inl ⟨_, .skip⟩
  | seq s t ihs iht =>
    obtain ⟨k, Γ₁, hs, ht⟩ := h
    rcases ihs hs hσ hL n with ⟨o, ho⟩ | hruns
    · cases o with
      | next σ₁ =>
        obtain ⟨htypes, hsuffix, j, hleads⟩ := hs.reached ho hP hσ hL time
        have hL₁ : ∀ l ∈ L, l.words ≤ Γ₁.flatten.length := fun l hl =>
          Nat.le_trans (hL l hl) hsuffix.length_le
        exact (iht ht htypes hL₁ n).imp (fun ⟨o, ho'⟩ => ⟨o, .seq ho ho'⟩) (·.behind hleads)
      | _ => exact .inl ⟨_, .seqOut ho rfl⟩
    · exact .inr hruns
  | var x e =>
    obtain ⟨ty, he, -⟩ := h
    rcases he.computes hP hσ time with ⟨v, k, hv, -⟩ | ⟨herror, -⟩
    · exact .inl ⟨_, .var hv⟩
    · exact .inl ⟨_, .fault rfl herror⟩
  | assign x e =>
    obtain ⟨ty, k, he⟩ := h.first rfl
    rcases he.computes hP hσ time with ⟨v, k, hv, -⟩ | ⟨herror, -⟩
    · obtain ⟨⟨w, hw⟩, -⟩ := h.assign hP hσ hv time
      exact .inl ⟨_, .assign hw hv⟩
    · exact .inl ⟨_, .fault rfl herror⟩
  | when e s ih =>
    obtain ⟨test, k, g, he, hskip, hs, -, -⟩ := h
    rcases he.truth hP hσ with ⟨b, hb⟩ | herror
    · obtain ⟨j, -, hleads⟩ := he.test hskip hP hσ hb time
      cases b with
      | false => exact .inl ⟨_, .whenFalse hb⟩
      | true =>
        exact (ih hs hσ hL n).imp (fun ⟨o, ho⟩ => ⟨_, .whenTrue hb ho⟩) (·.behind hleads)
    · exact .inl ⟨_, .fault rfl herror⟩
  | cond e s t ihs iht =>
    obtain ⟨test, k, g, jump, k', g', he, hskip, hs, -, -, ht, -, -⟩ := h
    rcases he.truth hP hσ with ⟨b, hb⟩ | herror
    · obtain ⟨j, -, hleads⟩ := he.test hskip hP hσ hb time
      cases b with
      | false =>
        exact (iht ht hσ hL n).imp (fun ⟨o, ho⟩ => ⟨_, .condFalse hb ho⟩) (·.behind hleads)
      | true =>
        exact (ihs hs hσ hL n).imp (fun ⟨o, ho⟩ => ⟨_, .condTrue hb ho⟩) (·.behind hleads)
    · exact .inl ⟨_, .fault rfl herror⟩
  | while_ e s ih =>
    obtain ⟨test, k, g, jump, he, hskip, hs, hdrops, hjump, -⟩ := h
    induction n generalizing σ with
    | zero => exact .inr ⟨0, _, Nat.le_refl 0, .refl p time _⟩
    | succ n ihn =>
      have hlength : σ.length = Γ.flatten.length := by rw [← hσ, Store.length_types]
      rcases he.truth hP hσ with ⟨b, hb⟩ | herror
      · obtain ⟨j, -, hleads⟩ := he.test hskip hP hσ hb time
        cases b with
        | false => exact .inl ⟨_, .whileFalse hb⟩
        | true =>
          rcases ih hs hσ (by simp) (n + 1) with ⟨o, ho⟩ | hruns
          · rcases (o.leave σ.length).again?_or_exit? with ⟨σ₁, hagain⟩ | ⟨o', hexit⟩
            · obtain ⟨htypes, i, hpos, hbody⟩ := (hs.reached ho hP hσ (by simp) time).again hdrops
                hjump hP (hlength ▸ hagain)
              rcases ihn htypes with ⟨o', ho'⟩ | hruns
              · exact .inl ⟨o', .whileAgain hb ho hagain ho'⟩
              · exact .inr ((hruns.of_leads (hleads.trans hbody)).mono (by omega))
            · exact .inl ⟨o', .whileExit hb ho hexit⟩
          · exact .inr (hruns.behind hleads)
      · exact .inl ⟨_, .fault rfl herror⟩
  | loop s ih =>
    -- each time round the machine executes the jump back at least
    obtain ⟨k, g, jump, hs, hdrops, hjump, -⟩ := h
    induction n generalizing σ with
    | zero => exact .inr ⟨0, _, Nat.le_refl 0, .refl p time _⟩
    | succ n ihn =>
      have hlength : σ.length = Γ.flatten.length := by rw [← hσ, Store.length_types]
      rcases ih hs hσ (by simp) (n + 1) with ⟨o, ho⟩ | hruns
      · rcases (o.leave σ.length).again?_or_exit? with ⟨σ₁, hagain⟩ | ⟨o', hexit⟩
        · obtain ⟨htypes, i, hpos, hbody⟩ := (hs.reached ho hP hσ (by simp) time).again hdrops
            hjump hP (hlength ▸ hagain)
          rcases ihn htypes with ⟨o', ho'⟩ | hruns
          · exact .inl ⟨o', .loopAgain ho hagain ho'⟩
          · exact .inr ((hruns.of_leads hbody).mono (by omega))
        · exact .inl ⟨o', .loopExit ho hexit⟩
      · exact .inr hruns
  | break_ => exact .inl ⟨_, .break_⟩
  | continue_ => exact .inl ⟨_, .continue_⟩

/-- Outside a loop a script whose code does not run for ever comes to its end or to a division by
zero. -/
theorem Placed.outcome (hP : p.chunks[m.chunk]? = some P) (h : s.Placed P none Γ start next Γ')
    (hσ : σ.types = Γ.flatten) {time : Float}
    (hstops : ∃ n, ¬(m.at_ start σ.words).RunsFor p time n) :
    (∃ σ', s.Runs σ (.next σ')) ∨ s.Runs σ .fault := by
  have hnone : ∀ l ∈ (none : Option LoopPlace), l.words ≤ Γ.flatten.length :=
    fun l hl => (nomatch hl)
  obtain ⟨n, hn⟩ := hstops
  obtain ⟨o, ho⟩ := (h.ends_or_runs hP hσ hnone time n).resolve_right hn
  have hreached := h.reached ho hP hσ hnone time
  cases o with
  | next σ' => exact .inl ⟨σ', ho⟩
  | break_ σ' =>
    obtain ⟨-, l, -, hl, -⟩ := hreached
    cases hl
  | continue_ σ' =>
    obtain ⟨-, l, -, hl, -⟩ := hreached
    cases hl
  | fault => exact .inr ho

/-- A machine that is started at the code of a script with a halt behind it tells the outcome. -/
theorem Placed.run_iff (hprogram : m.program = some p) (hstate : m.state = .running)
    (hat : m.at_ 0 #[] = m) (hP : p.chunks[m.chunk]? = some P)
    (h : s.Placed P none [[]] 0 next Γ') (hhalt : P.code[next]? = some (.ofOpcode .halt))
    (time : Float) :
    (∀ stack, (∃ fuel m₁, m.run fuel time = (.ok .halted, m₁) ∧ m₁.stack = stack) ↔
      ∃ σ, s.Runs [] (.next σ) ∧ stack = σ.words) ∧
    ((∃ fuel error m₁, m.run fuel time = (.error error, m₁) ∧ error.fault = .divisionByZero) ↔
      s.Runs [] .fault) := by
  have hreached : ∀ o, s.Runs [] o → o.Reached p time m none [] Γ'.flatten next (m.at_ 0 #[]) :=
    fun o ho => h.reached ho hP rfl (fun l hl => (nomatch hl)) time
  rw [hat] at hreached
  have hhalts : ∀ σ, s.Runs [] (.next σ) →
      m.Halts p time { m.at_ (next + 1) σ.words with state := .halt } := fun σ hσ => by
    obtain ⟨-, -, n, hleads⟩ := hreached _ hσ
    exact .of_leads hleads (Exec.halts_at hP hhalt σ.words)
  -- a machine that stops has followed the script to an outcome
  have houtcome : (∃ n, ¬m.RunsFor p time n) → (∃ σ, s.Runs [] (.next σ)) ∨ s.Runs [] .fault := by
    intro hstops
    rw [← hat] at hstops
    exact h.outcome hP rfl hstops
  refine ⟨fun stack => ⟨?_, ?_⟩, ?_⟩
  · rintro ⟨fuel, m₁, hrun, rfl⟩
    obtain ⟨-, hstop⟩ := (Machine.run_eq_halted_iff hprogram hstate).mp ⟨fuel, hrun⟩
    rcases houtcome hstop.exists_not_runsFor with ⟨σ, hσ⟩ | hfault
    · refine ⟨σ, hσ, ?_⟩
      rw [hstop.unique (hhalts σ hσ)]
      rfl
    · exact absurd (hreached _ hfault) hstop.not_faultsWith
  · rintro ⟨σ, hσ, rfl⟩
    exact ((hhalts σ hσ).run_iff rfl hprogram hstate _).mpr rfl
  · rw [Machine.run_eq_error_iff hprogram hstate (by decide)]
    constructor
    · intro hfault
      rcases houtcome hfault.exists_not_runsFor with ⟨σ, hσ⟩ | hruns
      · exact absurd hfault (hhalts σ hσ).not_faultsWith
      · exact hruns
    · exact hreached _

open CompileM in
/-- A module that is accepted has been compiled to the code of its script. -/
theorem Module.emitted {tokens : Array Token} {name : String} {c : Compiler} (h : s.Module tokens)
    (hadd : Compiler.start.addModule name tokens = .ok c) :
    ∃ r k, s.emit? none [[]] Draft.start.code = some r ∧
      c = (Source.ofTokens name tokens).compiler (r.draft [] k) := by
  obtain ⟨ts, eof, hwritten, heof, hlist⟩ := h
  obtain ⟨-, hread⟩ := Compiler.addModule_eq_ok_iff.mp hadd
  have hsize : tokens.size = ts.length + 1 := by
    rw [← Array.length_toList, hlist, List.length_append, List.length_singleton]
  have hahead : (Source.ofTokens name tokens).ahead 0 = ts ++ [eof] := hlist
  have hcount := hwritten.lineCount_le
  obtain ⟨k, hk⟩ : ∃ k, tokens.size + 1 = s.lineCount + (k + 1) :=
    ⟨tokens.size - s.lineCount, by omega⟩
  have hbefore : Ending.open_.Before 0 [eof] := by
    refine ⟨by simp [indents, heof], ?_⟩
    rintro ⟨-, helse⟩
    rw [List.drop_zero, headKind, heof] at helse
    cases helse
  have hreads : Reads (.ofTokens name tokens) (.lines 0) s ts := hwritten.reads
  rw [hk, hreads (34 * (tokens.size + 2)) (k + 1) .start [eof] (List.cons_ne_nil _ _) hahead hbefore
    (by rw [List.length_singleton]; omega)] at hread
  obtain ⟨r, hr, hread⟩ := Option.bind_eq_some_iff.mp hread
  have hrest : (Source.ofTokens name tokens).ahead (0 + ts.length) = [eof] := Source.ahead_add hahead
  rw [Block.result_statements_end (.inr (by
    show headKind ((Source.ofTokens name tokens).ahead (0 + ts.length)) = _
    rw [hrest]
    exact heof))] at hread
  cases hread
  exact ⟨r, _, hr, rfl⟩


end Script

/-- A compiled script halts exactly when the script comes to its end, with the values of its variables
on the stack, and faults with a division by zero exactly when the script divides by zero. -/
theorem halts_iff_runs {s : Script} {tokens : Array Token} {name : String} {c : Compiler}
    (hmodule : s.Module tokens) (hadd : Compiler.start.addModule name tokens = .ok c) (m : Machine)
    (time : Float) :
    ∃ m₁, m.boot c.build = .ok m₁ ∧
      (∀ stack, (∃ fuel m₂, m₁.run fuel time = (.ok .halted, m₂) ∧ m₂.stack = stack) ↔
        ∃ σ, s.Runs [] (.next σ) ∧ stack = σ.words) ∧
      ((∃ fuel error m₂, m₁.run fuel time = (.error error, m₂) ∧
          error.fault = .divisionByZero) ↔
        s.Runs [] .fault) := by
  obtain ⟨L, hkept⟩ := Compiler.start_kept.addModule hadd
  obtain ⟨m₁, hboot, hprogram, hstate, hchunk, hat⟩ := Machine.boot_eq hkept.verify m
  obtain ⟨r, k, hemit, rfl⟩ := hmodule.emitted hadd
  have hP : ((Source.ofTokens name tokens).compiler (r.draft [] k)).build.chunks[m₁.chunk]? =
      some (r.code.push (.ofOpcode .halt)) := by
    rw [hchunk]
    rfl
  have hplaced := Script.placed_of_emit? hemit (Chunk.extends_push r.code (.ofOpcode .halt))
  exact ⟨m₁, hboot, hplaced.run_iff hprogram hstate hat hP Array.getElem?_push_size time⟩

/-- The body of the loop. -/
def countdownBody : Script :=
  .seq (.var "d" (.name "n"))
    (.seq (.assign "n" (.binary .subtract (.name "n") (.number 1)))
      (.cond (.binary .equal (.name "d") (.number 1)) .break_ .continue_))

/-- A loop with a variable of its own that is begun anew once and then left:

    var n = 2
    while n > 0x0
        var d = n
        n = n - 1
        if d == 1 then break else continue
-/
def countdown : Script :=
  .seq (.var "n" (.number 2)) (.while_ (.binary .greater (.name "n") (.number 0)) countdownBody)

/-- The tokens of the script. -/
def countdownTokens : List Token :=
  [.bare (.keyword .var) "var", .bare .identifier "n", .bare (.symbol .equal) "=",
    .bare .integer "2", .bare .statementTerminator "\n",
    .bare (.keyword .while_) "while", .bare .identifier "n", .bare (.symbol .greater) ">",
    .bare .integer "0x0", .bare .statementTerminator "\n",
    .bare .indent "\t", .bare (.keyword .var) "var", .bare .identifier "d",
    .bare (.symbol .equal) "=", .bare .identifier "n", .bare .statementTerminator "\n",
    .bare .indent "\t", .bare .identifier "n", .bare (.symbol .equal) "=", .bare .identifier "n",
    .bare (.symbol .minus) "-", .bare .integer "1", .bare .statementTerminator "\n",
    .bare .indent "\t", .bare (.keyword .if_) "if", .bare .identifier "d",
    .bare (.symbol .equalEqual) "==", .bare .integer "1", .bare (.keyword .then_) "then",
    .bare (.keyword .break_) "break", .bare (.keyword .else_) "else",
    .bare (.keyword .continue_) "continue", .bare .statementTerminator "\n"]

theorem countdown_written : countdown.Written (.lines 0) countdownTokens := by
  have hone : Tree.Atom (.number 1) (.bare .integer "1") :=
    .number ⟨rfl, by decide, List.all_eq_true.mp rfl, by decide⟩
  have htwo : Tree.Atom (.number 2) (.bare .integer "2") :=
    .number ⟨rfl, by decide, List.all_eq_true.mp rfl, by decide⟩
  have hzero : Tree.Atom (.number 0) (.bare .integer "0x0") :=
    .hexadecimal ⟨rfl, ['0'], rfl, by decide, List.all_eq_true.mp rfl, rfl⟩
  have hn : Tree.Atom (.name "n") (.bare .identifier "n") :=
    .name (t := .bare .identifier "n") rfl
  have hd : Tree.Atom (.name "d") (.bare .identifier "d") :=
    .name (t := .bare .identifier "d") rfl
  have hend : Ending.line.Closes [Token.bare .statementTerminator "\n"] := ⟨_, rfl, rfl⟩
  have hindent : IndentsOf 1 [Token.bare .indent "\t"] := by
    refine ⟨rfl, fun t ht => ?_⟩
    rw [List.mem_singleton.mp ht]
    rfl
  have hkind : ∀ kind lexeme, (Token.bare kind lexeme).kind = kind := fun _ _ => rfl
  have hvar := hkind (.keyword .var) "var"
  have hequal := hkind (.symbol .equal) "="
  have htest : Tree.Plain (.binary .equal (.name "d") (.number 1)) _ :=
    .binary hd (hkind (.symbol .equalEqual) "==") hone
  have hdifference : Tree.Plain (.binary .subtract (.name "n") (.number 1)) _ :=
    .binary hn (hkind (.symbol .minus) "-") hone
  have hpositive : Tree.Plain (.binary .greater (.name "n") (.number 0)) _ :=
    .binary hn (hkind (.symbol .greater) ">") hzero
  have hleave : Ending.else_.Closes [] := rfl
  have hgap : Ending.else_.Gap 1 [] := rfl
  have hlast := Script.Written.cond (hkind (.keyword .if_) "if") htest
    (hkind (.keyword .then_) "then") (.inline (.break_ (hkind (.keyword .break_) "break") hleave))
    hgap (hkind (.keyword .else_) "else")
    (.inline (.continue_ (hkind (.keyword .continue_) "continue") hend))
  have hbody := Script.Written.seq
    (.line hindent (.var hvar (hkind .identifier "d") hequal (.atom hn) hend) (by decide))
    (.seq (.line hindent (.assign (hkind .identifier "n") hequal hdifference hend) (by decide))
      (.line hindent hlast (by decide)))
  have hloop := Script.Written.while_ (hkind (.keyword .while_) "while") hpositive
    (.block (hkind .statementTerminator "\n") hbody (by simp))
  have hall := Script.Written.seq
    (.line indentsOf_nil (.var hvar (hkind .identifier "n") hequal (.atom htwo) hend) (by decide))
    (.line indentsOf_nil hloop (by decide))
  exact hall

/-- The body is run twice, and the variable `d` is gone after each time. -/
theorem countdown_runs : countdown.Runs [] (.next [("n", .int 0)]) := by
  have hagain : countdownBody.Runs [("n", .int 2)] (.continue_ [("d", .int 2), ("n", .int 1)]) := by
    refine .seq (.var rfl) (.seq (.assign rfl rfl) ?_)
    exact Script.Runs.condFalse rfl .continue_
  have hexit : countdownBody.Runs [("n", .int 1)] (.break_ [("d", .int 1), ("n", .int 0)]) := by
    refine .seq (.var rfl) (.seq (.assign rfl rfl) ?_)
    exact Script.Runs.condTrue rfl .break_
  exact .seq (.var rfl) (.whileAgain rfl hagain rfl (.whileExit rfl hexit rfl))

theorem halts_of_countdown :
    ∃ (c : Compiler) (m₁ : Machine),
      Compiler.start.addModule "m" (countdownTokens ++ [Token.bare .endOfFile ""]).toArray = .ok c ∧
      (Machine.new {}).boot c.build = .ok m₁ ∧
      ∃ fuel m₂, m₁.run fuel 0 = (.ok .halted, m₂) ∧ m₂.stack = #[0] := by
  have hmodule : countdown.Module (countdownTokens ++ [Token.bare .endOfFile ""]).toArray :=
    ⟨_, _, countdown_written, rfl, rfl⟩
  have hcheck : (Compiler.start.addModule "m"
      (countdownTokens ++ [Token.bare .endOfFile ""]).toArray).isOk = true := by decide +kernel
  cases hadd : Compiler.start.addModule "m" (countdownTokens ++ [Token.bare .endOfFile ""]).toArray with
  | error e =>
    rw [hadd] at hcheck
    cases hcheck
  | ok c =>
    obtain ⟨m₁, hboot, hhalts, -⟩ := halts_iff_runs hmodule hadd (Machine.new {}) 0
    exact ⟨c, m₁, rfl, hboot, (hhalts _).mpr ⟨_, countdown_runs, rfl⟩⟩

end WordScript
