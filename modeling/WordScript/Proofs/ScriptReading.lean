/-
Scripts are read as what they are written for.

The lines of a script are read one after the other and emit its code.  Where a body
or a conditional ends is seen from the tokens behind it: the depth of the next line,
and whether an `else` stands there.

* `Script.Written.opens`, `Script.Written.ends` — the first and last tokens;
* `Script.Written.reads` — reading what a script is written with.
-/
import WordScript.Proofs.ScriptStatements

namespace WordScript

/-- A token that a statement begins with. -/
def Token.Begins (t : Token) : Prop :=
  t.kind = .identifier ∨ ∃ k, t.kind = .keyword k ∧ k ≠ .and ∧ k ≠ .or ∧ k ≠ .else_

namespace Token.Begins

variable {t : Token}

theorem ne {k : TokenKind} (h : t.Begins) (hk : k = .indent ∨ k = .endOfFile ∨
    k = .statementTerminator ∨ k = .keyword .else_) : t.kind ≠ k := by
  obtain h | ⟨k', h, -, -, helse⟩ := h
  · rw [h]
    obtain rfl | rfl | rfl | rfl := hk <;> simp
  · rw [h]
    obtain rfl | rfl | rfl | rfl := hk
    · simp
    · simp
    · simp
    · simpa using helse

theorem stops (h : t.Begins) (rest : List Token) : Expression.Stops (t :: rest) := by
  obtain h | ⟨k, h, hand, hor, -⟩ := h
  · exact .of_kind (.inr (.inl h))
  · exact .of_kind (.inr (.inr ⟨k, h, hand, hor⟩))

end Token.Begins

/-- The last of some tokens has a property. -/
def EndsWith (p : Token → Prop) (ts : List Token) : Prop :=
  ∃ us t, ts = us ++ [t] ∧ p t

theorem EndsWith.append {p : Token → Prop} {ts : List Token} (h : EndsWith p ts)
    (us : List Token) : EndsWith p (us ++ ts) := by
  obtain ⟨vs, t, rfl, ht⟩ := h
  exact ⟨us ++ vs, t, by rw [List.append_assoc], ht⟩

theorem EndsWith.cons {p : Token → Prop} {ts : List Token} (h : EndsWith p ts) (t : Token) :
    EndsWith p (t :: ts) :=
  h.append [t]

/-- A token ends a line unless an `else` follows it. -/
def Ending.Last (ending : Ending) (t : Token) : Prop :=
  t.kind = .statementTerminator ↔ ending ≠ .else_

theorem Tree.Plain.endsWith {e : Tree} {es : List Token} (h : e.Plain es) :
    EndsWith (fun t => t.kind ≠ .statementTerminator) es := by
  have hatom : ∀ {e : Tree} {t : Token}, e.Atom t → t.kind ≠ .statementTerminator := by
    intro e t h
    cases h with
    | number ht | hexadecimal ht => rw [ht.kind]; simp
    | true ht => rw [ht]; simp
    | false ht => rw [ht]; simp
    | name ht => rw [ht]; simp
  cases h with
  | atom h => exact ⟨[], _, rfl, hatom h⟩
  | binary _ _ h => exact ⟨[_, _], _, rfl, hatom h⟩

theorem Tree.Plain.length_pos {e : Tree} {es : List Token} (h : e.Plain es) : 0 < es.length := by
  cases h <;> exact Nat.succ_pos _

namespace Script

/-- What the tokens of a form begin with. -/
def Form.Opens : Form → List Token → Prop
  | .statement _ _, ts => ∃ t us, ts = t :: us ∧ t.Begins
  | .body _ _, ts => ∃ t us, ts = t :: us ∧ (t.kind = .statementTerminator ∨ t.Begins)
  | .lines depth, ts => ts = [] ∨ ∃ is t us, IndentsOf depth is ∧ t.Begins ∧ ts = is ++ t :: us

/-- What the tokens of a form end with. -/
def Form.Ends : Form → List Token → Prop
  | .statement _ ending, ts | .body _ ending, ts => EndsWith (Ending.Last ending) ts
  | .lines _, ts => ts = [] ∨ EndsWith (fun t => t.kind = .statementTerminator) ts

theorem Written.opens {f : Form} {s : Script} {ts : List Token} (h : Written f s ts) :
    f.Opens ts := by
  induction h with
  | skip => exact .inl rfl
  | seq _ _ ihs iht =>
    obtain rfl | ⟨is, t, us, his, ht, rfl⟩ := ihs
    · exact iht
    · exact .inr ⟨is, t, _, his, ht, by rw [List.append_assoc]; rfl⟩
  | line his _ _ ih =>
    obtain ⟨t, us, rfl, ht⟩ := ih
    exact .inr ⟨_, t, us, his, ht, rfl⟩
  | block ht _ _ _ => exact ⟨_, _, rfl, .inl ht⟩
  | inline _ ih =>
    obtain ⟨t, us, rfl, ht⟩ := ih
    exact ⟨t, us, rfl, .inr ht⟩
  | var hv _ _ _ _ => exact ⟨_, _, rfl, .inr ⟨_, hv, by decide⟩⟩
  | assign hname _ _ _ => exact ⟨_, _, rfl, .inl hname⟩
  | when hi _ _ _ _ _ => exact ⟨_, _, rfl, .inr ⟨_, hi, by decide⟩⟩
  | cond hi _ _ _ _ _ _ _ _ => exact ⟨_, _, rfl, .inr ⟨_, hi, by decide⟩⟩
  | while_ hw _ _ _ => exact ⟨_, _, rfl, .inr ⟨_, hw, by decide⟩⟩
  | loop hl _ _ => exact ⟨_, _, rfl, .inr ⟨_, hl, by decide⟩⟩
  | break_ hb _ => exact ⟨_, _, rfl, .inr ⟨_, hb, by decide⟩⟩
  | continue_ hc _ => exact ⟨_, _, rfl, .inr ⟨_, hc, by decide⟩⟩

/-- The end of a statement without a body. -/
theorem endsWith_of_closes {ending : Ending} {ends ts : List Token} (hcloses : ending.Closes ends)
    (hts : EndsWith (fun t => t.kind ≠ .statementTerminator) ts) :
    EndsWith (Ending.Last ending) (ts ++ ends) := by
  cases ending with
  | line =>
    obtain ⟨t, ht, rfl⟩ := hcloses
    exact ⟨ts, t, rfl, iff_of_true ht (by simp)⟩
  | else_ =>
    obtain rfl : ends = [] := hcloses
    obtain ⟨us, t, rfl, ht⟩ := hts
    exact ⟨us, t, by rw [List.append_nil], iff_of_false ht (by simp)⟩
  | open_ => exact hcloses.elim

theorem Written.ends {f : Form} {s : Script} {ts : List Token} (h : Written f s ts) :
    f.Ends ts := by
  induction h with
  | skip => exact .inl rfl
  | seq _ _ ihs iht =>
    obtain rfl | hus := iht
    · rw [List.append_nil]
      exact ihs
    · exact .inr (hus.append _)
  | line _ _ hending ih =>
    obtain ⟨us, t, rfl, ht⟩ := ih
    exact .inr (EndsWith.append ⟨us, t, rfl, ht.mpr hending⟩ _)
  | block _ _ hne ih =>
    obtain rfl | ⟨us, t, rfl, ht⟩ := ih
    · exact absurd rfl hne
    · exact EndsWith.cons ⟨us, t, rfl, iff_of_true ht (by simp)⟩ _
  | inline _ ih => exact ih
  | var _ _ _ he hcloses =>
    exact (((endsWith_of_closes hcloses he.endsWith).cons _).cons _).cons _
  | assign _ _ he hcloses => exact ((endsWith_of_closes hcloses he.endsWith).cons _).cons _
  -- the last token decides whether an `else` may follow, so a body without one is left open
  | when _ _ _ _ hending ih =>
    obtain ⟨us, t, rfl, ht⟩ := ih
    have hlast : EndsWith (Ending.Last .open_) (us ++ [t]) :=
      ⟨us, t, rfl, iff_of_true (ht.mpr hending) (by simp)⟩
    exact ((hlast.cons _).append _).cons _
  | cond _ _ _ _ _ _ _ _ iht => exact (((((iht.cons _).append _).append _).cons _).append _).cons _
  | while_ _ _ _ ih => exact (ih.append _).cons _
  | loop _ _ ih => exact ih.cons _
  | break_ hb hcloses => exact endsWith_of_closes hcloses ⟨[], _, rfl, by simp [hb]⟩
  | continue_ hc hcloses => exact endsWith_of_closes hcloses ⟨[], _, rfl, by simp [hc]⟩

/-- What ends a statement ends the expression in it. -/
theorem stops_of_closes {ending : Ending} {depth : Nat} {ends rest : List Token}
    (hcloses : ending.Closes ends) (hbefore : ending.Before depth rest) :
    Expression.Stops (ends ++ rest) := by
  cases ending with
  | line =>
    obtain ⟨t, ht, rfl⟩ := hcloses
    exact .of_kind (.inl ht)
  | else_ =>
    obtain rfl : ends = [] := hcloses
    have hkind : headKind rest = .keyword .else_ := hbefore
    cases rest with
    | nil => cases hkind
    | cons t rest => exact .of_kind (.inr (.inr ⟨_, hkind, by decide⟩))
  | open_ => exact hcloses.elim

/-- A body may end before the `else` that it is written with. -/
theorem before_of_gap {first : Ending} {depth : Nat} {gap rest : List Token} {el : Token}
    (hgap : first.Gap depth gap) (hel : el.kind = .keyword .else_) :
    first.Before depth (gap ++ el :: rest) := by
  cases first with
  | line => exact Nat.le_of_eq (IndentsOf.indents hgap (by simp [hel]) _)
  | else_ =>
    obtain rfl : gap = [] := hgap
    exact hel
  | open_ => exact hgap.elim

/-- The number of lines at the depth of the script. -/
def lineCount : Script → Nat
  | skip => 0
  | seq s t => s.lineCount + t.lineCount
  | _ => 1

theorem Written.lineCount_le {depth : Nat} {s : Script} {ts : List Token}
    (h : Written (.lines depth) s ts) : s.lineCount ≤ ts.length := by
  generalize hf : Form.lines depth = f at h
  induction h with
  | skip => exact Nat.zero_le _
  | seq _ _ ihs iht =>
    rw [lineCount, List.length_append]
    exact Nat.add_le_add (ihs hf) (iht hf)
  | line _ h _ _ =>
    obtain ⟨t, us, rfl, -⟩ := h.opens
    rw [List.length_append, List.length_cons]
    cases h <;> simp only [lineCount] <;> omega
  | _ => cases hf

/-- Lines are not followed by an `else` of theirs. -/
theorem Written.before {depth : Nat} {s : Script} {ts rest : List Token}
    (h : Written (.lines depth) s ts) (hrest : Ending.open_.Before depth rest) :
    Ending.open_.Before depth (ts ++ rest) := by
  obtain rfl | ⟨is, t, us, his, ht, rfl⟩ := h.opens
  · exact hrest
  · rw [List.append_assoc, List.cons_append]
    refine ⟨Nat.le_of_eq (his.indents (ht.ne (.inl rfl)) _), ?_⟩
    rintro ⟨-, helse⟩
    rw [← his.1, List.drop_left] at helse
    exact ht.ne (.inr (.inr (.inr rfl))) helse

open CompileM

/-- Reading tokens as a script. -/
def Reads (src : Source) : Form → Script → List Token → Prop
  | .statement depth ending, s, ts => ∀ (n : Nat) (d : Draft) (rest : List Token),
    d.scopes ≠ [] → src.ahead d.cursor = ts ++ rest → ending.Before depth rest →
      ts.length + rest.length ≤ n →
      result (Statement.read (productions n) depth) (src.compiler d) =
        (s.emit? (innermost d.loops) d.scopes d.code).map fun r =>
          ((), src.compiler (r.draft d.loops (d.cursor + ts.length)))
  | .body depth ending, s, ts => ∀ (n k : Nat) (Γ : Scopes) (rest : List Token),
    Γ ≠ [] → src.ahead k = ts ++ rest → ending.Before depth rest → ts.length + rest.length < n →
      Statement.ReadsBodyAt src (productions n) depth k Γ s ts.length
  | .lines depth, s, ts => ∀ (n k : Nat) (d : Draft) (rest : List Token),
    d.scopes ≠ [] → src.ahead d.cursor = ts ++ rest → Ending.open_.Before depth rest →
      ts.length + rest.length < n →
      result (Block.statements (productions n) depth (s.lineCount + k)) (src.compiler d) =
        (s.emit? (innermost d.loops) d.scopes d.code).bind fun r =>
          result (Block.statements (productions n) depth k)
            (src.compiler (r.draft d.loops (d.cursor + ts.length)))

variable {src : Source} {s t : Script} {ts us rest : List Token} {depth : Nat} {ending : Ending}

theorem reads_skip : Reads src (.lines depth) skip [] := by
  intro n k d rest _ _ _ _
  rw [lineCount, Nat.zero_add, emit?, Option.bind_some]
  simp only [Emitted.draft, withBreaks_nil, List.length_nil, Nat.add_zero]

theorem Reads.seq (hs : Reads src (.lines depth) s ts) (ht : Reads src (.lines depth) t us)
    (hwritten : Written (.lines depth) t us) :
    Reads src (.lines depth) (seq s t) (ts ++ us) := by
  intro n k d rest hscopes hahead hbefore hn
  rw [List.append_assoc] at hahead
  rw [List.length_append] at hn ⊢
  rw [lineCount, Nat.add_assoc, hs n _ d (us ++ rest) hscopes hahead (hwritten.before hbefore)
    (by rw [List.length_append]; omega), emit?]
  cases hr : s.emit? (innermost d.loops) d.scopes d.code with
  | none => rfl
  | some r =>
    have hscopes' : r.scopes ≠ [] := by
      obtain ⟨Γ, outer, hΓ⟩ := List.exists_cons_of_ne_nil hscopes
      rw [hΓ] at hr
      obtain ⟨new, hnew⟩ := emit?_scopes hr
      rw [hnew]
      exact List.cons_ne_nil _ _
    simp only [Option.bind_some]
    rw [ht n k (r.draft d.loops (d.cursor + ts.length)) rest hscopes' (Source.ahead_add hahead)
      hbefore (by omega)]
    simp only [Emitted.draft, innermost_withBreaks]
    cases t.emit? (innermost d.loops) r.scopes r.code with
    | none => rfl
    | some r' =>
      simp only [Option.bind_some, Option.map_some, withBreaks_append, Nat.add_assoc]

theorem Reads.line {is : List Token} (his : IndentsOf depth is)
    (h : Reads src (.statement depth ending) s ts) (hwritten : Written (.statement depth ending) s ts)
    (hending : ending ≠ .else_) : Reads src (.lines depth) s (is ++ ts) := by
  intro n k d rest hscopes hahead hbefore hn
  obtain ⟨t, us, rfl, ht⟩ := hwritten.opens
  have hcount : s.lineCount = 1 := by cases hwritten <;> rfl
  have hbefore' : ending.Before depth rest := by
    cases ending with
    | line => exact hbefore.1
    | open_ => exact hbefore
    | else_ => exact absurd rfl hending
  obtain ⟨m, rfl⟩ := Nat.exists_eq_succ_of_ne_zero (Nat.ne_of_gt (Nat.zero_lt_of_lt hn))
  rw [List.append_assoc] at hahead
  rw [List.length_append] at hn ⊢
  rw [hcount, Nat.add_comm 1 k, Block.result_statements_line his hahead (ht.ne (.inl rfl))
    (ht.ne (.inr (.inl rfl)))]
  have hread := h m { d with cursor := d.cursor + depth } rest hscopes
    (his.1 ▸ Source.ahead_add hahead) hbefore' (by omega)
  show (result (Statement.read (productions m) depth) _).bind _ = _
  rw [hread]
  cases s.emit? (innermost d.loops) d.scopes d.code with
  | none => rfl
  | some r => simp only [Option.map_some, Option.bind_some, his.1, Nat.add_assoc]

/-- A body is read in a scope of its own. -/
theorem readsBodyAt_of_tail {g : Productions} {k len : Nat} {Γ : Scopes} (hΓ : Γ ≠ [])
    (htail : ∀ code loops, result (Block.tail g depth) (src.compiler ⟨[] :: Γ, code, loops, k⟩) =
      (s.emit? (innermost loops) ([] :: Γ) code).map fun r =>
        ((), src.compiler (r.draft loops (k + len)))) :
    Statement.ReadsBodyAt src g depth k Γ s len := by
  intro code loops
  rw [Statement.ReadsBody, Block.body, result_bind,
    Draft.result_enterBlock (d := ⟨Γ, code, loops, k⟩) hΓ, Option.bind_some, result_bind, htail,
    body?]
  cases hr : s.emit? (innermost loops) ([] :: Γ) code with
  | none => rfl
  | some r =>
    obtain ⟨new, hnew⟩ := emit?_scopes hr
    obtain ⟨g', outer, rfl⟩ := List.exists_cons_of_ne_nil hΓ
    simp only [Option.map_some, Option.bind_some]
    rw [Draft.result_exitBlock (d := r.draft loops (k + len)) hnew, Emitted.leave?, hnew]
    show Option.map _ (r.code.drop? (new ++ []).length) =
      Option.map _ (Option.map _ (r.code.drop? (new ++ []).length))
    cases r.code.drop? (new ++ []).length <;> rfl

theorem Reads.inline (h : Reads src (.statement depth ending) s ts)
    (hwritten : Written (.statement depth ending) s ts) : Reads src (.body depth ending) s ts := by
  intro n k Γ rest hΓ hahead hbefore hn
  obtain ⟨m, rfl⟩ := Nat.exists_eq_succ_of_ne_zero (Nat.ne_of_gt (Nat.zero_lt_of_lt hn))
  refine readsBodyAt_of_tail hΓ fun code loops => ?_
  obtain ⟨t, us, rfl, ht⟩ := hwritten.opens
  rw [Block.tail, result_bind, Draft.result_matchKind (d := ⟨[] :: Γ, code, loops, k⟩) hahead,
    if_neg (ht.ne (.inr (.inr (.inl rfl))))]
  exact h m ⟨[] :: Γ, code, loops, k⟩ rest (List.cons_ne_nil _ _) hahead hbefore (by omega)

theorem Reads.block {t : Token} (ht : t.kind = .statementTerminator)
    (h : Reads src (.lines (depth + 1)) s ts) (hwritten : Written (.lines (depth + 1)) s ts)
    (hts : ts ≠ []) : Reads src (.body depth .line) s (t :: ts) := by
  intro n k Γ rest hΓ hahead hbefore hn
  refine readsBodyAt_of_tail hΓ fun code loops => ?_
  have hlines : src.ahead (k + 1) = ts ++ rest := Source.ahead_succ hahead
  rw [List.length_cons] at hn ⊢
  rw [Block.tail, result_bind, Draft.result_matchKind (d := ⟨[] :: Γ, code, loops, k⟩) hahead,
    if_pos ht, Option.bind_some]
  show result (Block.block (productions n) (depth + 1)) _ = _
  -- the first line is as deep as it has to be
  have hrequire : result (Block.requireLine (depth + 1))
      (src.compiler ⟨[] :: Γ, code, loops, k + 1⟩) =
      some ((), src.compiler ⟨[] :: Γ, code, loops, k + 1⟩) := by
    obtain rfl | ⟨is, u, us, his, hu, rfl⟩ := hwritten.opens
    · exact absurd rfl hts
    · rw [List.append_assoc, List.cons_append] at hlines
      have hlevel : indents (src.ahead (k + 1)) = depth + 1 := by
        rw [hlines, his.indents (hu.ne (.inl rfl))]
      have hfirst : src.ahead (k + 1 + (depth + 1)) = u :: (us ++ rest) := by
        rw [← his.1]
        exact Source.ahead_add hlines
      have hend : (src.compiler ⟨[] :: Γ, code, loops, k + 1⟩).atEnd = false := by
        rw [Source.atEnd_compiler]
        simp only [hlevel, hfirst]
        exact beq_eq_false_iff_ne.mpr (hu.ne (.inr (.inl rfl)))
      simp only [Block.requireLine, result_bind, result_ask, Option.bind_some,
        Source.indentation_compiler, hlevel, hend]
      rw [if_neg (by simp)]
      rfl
  rw [Block.block, result_bind, hrequire, Option.bind_some, result_bind, Draft.result_budget,
    Option.bind_some]
  have hbudget : (src.ahead (k + 1)).length + 1 =
      s.lineCount + (ts.length + rest.length - s.lineCount + 1) := by
    have hcount := hwritten.lineCount_le
    rw [hlines, List.length_append]
    omega
  have hshallow : indents rest ≤ depth := hbefore
  have hopen : Ending.open_.Before (depth + 1) rest :=
    ⟨Nat.le_succ_of_le hshallow, fun hdeep => by omega⟩
  rw [hbudget, h n _ ⟨[] :: Γ, code, loops, k + 1⟩ rest (List.cons_ne_nil _ _) hlines hopen
    (by omega)]
  cases s.emit? (innermost loops) ([] :: Γ) code with
  | none => rfl
  | some r =>
    have hrest : src.ahead (k + 1 + ts.length) = rest := Source.ahead_add hlines
    simp only [Option.bind_some, Option.map_some]
    rw [Block.result_statements_end (d := r.draft loops (k + 1 + ts.length))
      (.inl (by show indents (src.ahead (k + 1 + ts.length)) < _; rw [hrest]; omega)),
      Nat.add_right_comm k 1, Nat.add_assoc]

section Statements

variable {e : Tree} {es ends : List Token}

/-- The tokens between a body and its `else`, and the `else`. -/
theorem result_elseFollows_of_gap {d : Draft} {first : Ending} {el : Token} {k : Nat}
    {gap : List Token} (hts : EndsWith (Ending.Last first) ts) (hgap : first.Gap depth gap)
    (hel : el.kind = .keyword .else_) (hahead : src.ahead k = ts ++ (gap ++ el :: rest))
    (hcursor : d.cursor = k + ts.length) :
    result (Statement.elseFollows depth) (src.compiler d) =
      some (true, src.compiler { d with cursor := d.cursor + (gap.length + 1) }) := by
  obtain ⟨us, last, rfl, hlast⟩ := hts
  rw [List.append_assoc] at hahead
  rw [List.length_append] at hcursor
  rw [Statement.result_elseFollows hahead hcursor]
  cases first with
  | else_ =>
    obtain rfl : gap = [] := hgap
    rw [if_pos ⟨fun hterminator => hlast.mp hterminator rfl, hel⟩]
    rfl
  | line =>
    have hterminator : last.kind = .statementTerminator := hlast.mpr (by simp)
    have hindent : el.kind ≠ .indent := by simp [hel]
    -- the gap is the indentation of the line that the `else` begins
    have hlevel : indents (gap ++ el :: rest) = depth := IndentsOf.indents hgap hindent _
    have hdrop : (gap ++ el :: rest).drop depth = el :: rest := by
      rw [← hgap.1, List.drop_left]
    have helse : headKind ((gap ++ el :: rest).drop depth) = .keyword .else_ := by
      rw [hdrop]
      exact hel
    rw [if_neg fun hhere => hhere.1 hterminator, if_pos ⟨hlevel, helse⟩, hgap.1]
  | open_ => exact hgap.elim

theorem reads_var {v name eq : Token} (hv : v.kind = .keyword .var)
    (hname : name.kind = .identifier) (heq : eq.kind = .symbol .equal) (he : e.Plain es)
    (hcloses : ending.Closes ends) :
    Reads src (.statement depth ending) (var name.lexeme e) (v :: name :: eq :: (es ++ ends)) := by
  intro n d rest hscopes hahead hbefore hn
  simp only [List.cons_append, List.append_assoc] at hahead
  simp only [List.length_cons, List.length_append] at hn ⊢
  have hes : src.ahead (d.cursor + 3) = es ++ (ends ++ rest) :=
    Source.ahead_succ (Source.ahead_succ (Source.ahead_succ hahead))
  have hread := he.readsWhole (d := { d with cursor := d.cursor + 3 }) (n := n) (by omega) hscopes
    hes (stops_of_closes hcloses hbefore)
  have hend := Statement.endsAt_of_closes hcloses hbefore (Source.ahead_add hes)
  obtain ⟨scopes, code, loops, cursor⟩ := d
  obtain ⟨Γ, outer, rfl⟩ := List.exists_cons_of_ne_nil hscopes
  rw [Statement.result_read_var (by rw [hahead]; exact hv),
    Statement.result_variable_ rfl hahead hname heq hread hend, emit?]
  cases e.emit? (Γ :: outer).flatten code with
  | none => rfl
  | some r =>
    rw [Option.bind_some, Option.bind_some]
    by_cases hnew : Γ.lookup name.lexeme = none
    · have hnew' : ((Γ :: outer).headD []).lookup name.lexeme = none := hnew
      rw [if_pos hnew, if_pos hnew', Option.map_some, Emitted.draft, withBreaks_nil,
        show cursor + (es.length + ends.length + 1 + 1 + 1) =
          cursor + 3 + es.length + ends.length by omega]
      rfl
    · have hnew' : ¬((Γ :: outer).headD []).lookup name.lexeme = none := hnew
      rw [if_neg hnew, if_neg hnew']
      rfl

theorem reads_assign {name eq : Token} (hname : name.kind = .identifier)
    (heq : eq.kind = .symbol .equal) (he : e.Plain es) (hcloses : ending.Closes ends) :
    Reads src (.statement depth ending) (assign name.lexeme e) (name :: eq :: (es ++ ends)) := by
  intro n d rest hscopes hahead hbefore hn
  simp only [List.cons_append, List.append_assoc] at hahead
  simp only [List.length_cons, List.length_append] at hn ⊢
  have hes : src.ahead (d.cursor + 1 + 1) = es ++ (ends ++ rest) :=
    Source.ahead_succ (Source.ahead_succ hahead)
  have hread := he.readsWhole (d := { d with cursor := d.cursor + 1 + 1 }) (n := n) (by omega)
    hscopes hes (stops_of_closes hcloses hbefore)
  have hend := Statement.endsAt_of_closes hcloses hbefore (Source.ahead_add hes)
  rw [Statement.read, result_bind, Draft.result_kind, hahead, headKind, hname, Option.bind_some]
  show result (Statement.expression (productions n)) (src.compiler d) = _
  rw [Statement.result_expression_assign hscopes hahead hname heq hread hend,
    show d.cursor + (es.length + ends.length + 1 + 1) =
      d.cursor + 1 + 1 + es.length + ends.length by omega]

theorem Reads.when {i th : Token} (hi : i.kind = .keyword .if_) (he : e.Plain es)
    (hth : th.kind = .keyword .then_) (h : Reads src (.body depth ending) s ts)
    (hwritten : Written (.body depth ending) s ts) (hending : ending ≠ .else_) :
    Reads src (.statement depth .open_) (when e s) (i :: (es ++ th :: ts)) := by
  intro n d rest hscopes hahead hbefore hn
  simp only [List.cons_append, List.append_assoc] at hahead
  simp only [List.length_cons, List.length_append] at hn ⊢
  have hes : src.ahead (d.cursor + 1) = es ++ th :: (ts ++ rest) := Source.ahead_succ hahead
  have hbody : src.ahead (d.cursor + 1 + es.length + 1) = ts ++ rest :=
    Source.ahead_succ (Source.ahead_add hes)
  have hread := he.readsWhole (d := { d with cursor := d.cursor + 1 }) (n := n) (by omega) hscopes
    hes (.of_kind (.inr (.inr ⟨_, hth, by decide⟩)))
  have hbefore' : ending.Before depth rest := by
    cases ending with
    | line => exact hbefore.1
    | open_ => exact hbefore
    | else_ => exact absurd rfl hending
  have hbodyAt := h n (d.cursor + 1 + es.length + 1) d.scopes rest hscopes hbody hbefore' (by omega)
  -- the body ends with a line, and no `else` stands at this depth behind it
  have helse : ∀ d' : Draft, d'.cursor = d.cursor + 1 + es.length + 1 + ts.length →
      result (Statement.elseFollows depth) (src.compiler d') = some (false, src.compiler d') := by
    intro d' hcursor
    obtain ⟨us, last, rfl, hlast⟩ := hwritten.ends
    rw [List.append_assoc] at hbody
    rw [List.length_append] at hcursor
    rw [Statement.result_elseFollows hbody hcursor,
      if_neg fun hhere => hhere.1 (hlast.mpr hending)]
    exact if_neg hbefore.2
  rw [Statement.read, result_bind, Draft.result_kind, hahead, headKind, hi, Option.bind_some]
  show result (Statement.conditional (productions n) depth) (src.compiler d) = _
  rw [Statement.result_conditional_when hahead hth hread hbodyAt helse,
    show d.cursor + (es.length + (ts.length + 1) + 1) =
      d.cursor + 1 + es.length + 1 + ts.length by omega]

theorem Reads.cond {first : Ending} {i th el : Token} {gap : List Token}
    (hi : i.kind = .keyword .if_) (he : e.Plain es) (hth : th.kind = .keyword .then_)
    (hs : Reads src (.body depth first) s ts) (hwritten : Written (.body depth first) s ts)
    (hgap : first.Gap depth gap) (hel : el.kind = .keyword .else_)
    (ht : Reads src (.body depth ending) t us) :
    Reads src (.statement depth ending) (cond e s t)
      (i :: (es ++ th :: (ts ++ (gap ++ el :: us)))) := by
  intro n d rest hscopes hahead hbefore hn
  simp only [List.cons_append, List.append_assoc] at hahead
  simp only [List.length_cons, List.length_append] at hn ⊢
  have hes : src.ahead (d.cursor + 1) = es ++ th :: (ts ++ (gap ++ el :: (us ++ rest))) :=
    Source.ahead_succ hahead
  have hbody : src.ahead (d.cursor + 1 + es.length + 1) = ts ++ (gap ++ el :: (us ++ rest)) :=
    Source.ahead_succ (Source.ahead_add hes)
  have hbody' : src.ahead (d.cursor + 1 + es.length + 1 + ts.length + (gap.length + 1)) =
      us ++ rest := Source.ahead_succ (Source.ahead_add (Source.ahead_add hbody))
  have hread := he.readsWhole (d := { d with cursor := d.cursor + 1 }) (n := n) (by omega) hscopes
    hes (.of_kind (.inr (.inr ⟨_, hth, by decide⟩)))
  -- the first body ends before the gap, and the second one behind the `else`
  have hbodyAt := hs n (d.cursor + 1 + es.length + 1) d.scopes (gap ++ el :: (us ++ rest)) hscopes
    hbody (before_of_gap hgap hel) (by simp only [List.length_append, List.length_cons]; omega)
  have hbodyAt' := ht n (d.cursor + 1 + es.length + 1 + ts.length + (gap.length + 1)) d.scopes rest
    hscopes hbody' hbefore (by omega)
  rw [Statement.read, result_bind, Draft.result_kind, hahead, headKind, hi, Option.bind_some]
  show result (Statement.conditional (productions n) depth) (src.compiler d) = _
  rw [Statement.result_conditional_cond hahead hth hread hbodyAt
      (fun d' => result_elseFollows_of_gap hwritten.ends hgap hel hbody) hbodyAt',
    show d.cursor + (es.length + (ts.length + (gap.length + (us.length + 1)) + 1) + 1) =
      d.cursor + 1 + es.length + 1 + ts.length + (gap.length + 1) + us.length by omega]

theorem Reads.while_ {w : Token} (hw : w.kind = .keyword .while_) (he : e.Plain es)
    (h : Reads src (.body depth ending) s ts) (hwritten : Written (.body depth ending) s ts) :
    Reads src (.statement depth ending) (while_ e s) (w :: (es ++ ts)) := by
  intro n d rest hscopes hahead hbefore hn
  simp only [List.cons_append, List.append_assoc] at hahead
  simp only [List.length_cons, List.length_append] at hn ⊢
  have hes : src.ahead (d.cursor + 1) = es ++ (ts ++ rest) := Source.ahead_succ hahead
  have hstops : Expression.Stops (ts ++ rest) := by
    obtain ⟨t, us, rfl, ht | ht⟩ := hwritten.opens
    · exact .of_kind (.inl ht)
    · exact ht.stops _
  have hread := he.readsWhole (d := { d with cursor := d.cursor + 1 }) (n := n)
    (by have := he.length_pos; omega) hscopes hes hstops
  have hbodyAt := h n (d.cursor + 1 + es.length) d.scopes rest hscopes (Source.ahead_add hes)
    hbefore (by omega)
  rw [Statement.read, result_bind, Draft.result_kind, hahead, headKind, hw, Option.bind_some]
  show result (Statement.whileLoop (productions n) depth) (src.compiler d) = _
  rw [Statement.result_whileLoop hscopes hahead hread hbodyAt,
    show d.cursor + (es.length + ts.length + 1) = d.cursor + 1 + es.length + ts.length by omega]

theorem Reads.loop {l : Token} (hl : l.kind = .keyword .loop)
    (h : Reads src (.body depth ending) s ts) :
    Reads src (.statement depth ending) (loop s) (l :: ts) := by
  intro n d rest hscopes hahead hbefore hn
  rw [List.length_cons] at hn ⊢
  have hbodyAt := h n (d.cursor + 1) d.scopes rest hscopes (Source.ahead_succ hahead) hbefore
    (by omega)
  rw [Statement.read, result_bind, Draft.result_kind, hahead, List.cons_append, headKind, hl,
    Option.bind_some]
  show result (Statement.loop (productions n) depth) (src.compiler d) = _
  rw [Statement.result_loop hscopes hahead hbodyAt, Nat.add_right_comm, Nat.add_assoc]

theorem reads_break_ {b : Token} (hb : b.kind = .keyword .break_) (hcloses : ending.Closes ends) :
    Reads src (.statement depth ending) break_ (b :: ends) := by
  intro n d rest hscopes hahead hbefore hn
  have hend := Statement.endsAt_of_closes hcloses hbefore (Source.ahead_succ hahead)
  rw [Statement.read, result_bind, Draft.result_kind, hahead, List.cons_append, headKind, hb,
    Option.bind_some]
  show result Statement.break_ (src.compiler d) = _
  rw [Statement.result_break_ hscopes hahead hend, List.length_cons, Nat.add_right_comm,
    Nat.add_assoc]

theorem reads_continue_ {c : Token} (hc : c.kind = .keyword .continue_)
    (hcloses : ending.Closes ends) :
    Reads src (.statement depth ending) continue_ (c :: ends) := by
  intro n d rest hscopes hahead hbefore hn
  have hend := Statement.endsAt_of_closes hcloses hbefore (Source.ahead_succ hahead)
  rw [Statement.read, result_bind, Draft.result_kind, hahead, List.cons_append, headKind, hc,
    Option.bind_some]
  show result Statement.continue_ (src.compiler d) = _
  rw [Statement.result_continue_ hscopes hahead hend, List.length_cons, Nat.add_right_comm,
    Nat.add_assoc]

end Statements

/-- Reading what a script is written with emits its code. -/
theorem Written.reads {f : Form} (h : Written f s ts) : Reads src f s ts := by
  induction h with
  | skip => exact reads_skip
  | seq _ ht ihs iht => exact ihs.seq iht ht
  | line his h hending ih => exact ih.line his h hending
  | block ht h hts ih => exact ih.block ht h hts
  | inline h ih => exact ih.inline h
  | var hv hname heq he hcloses => exact reads_var hv hname heq he hcloses
  | assign hname heq he hcloses => exact reads_assign hname heq he hcloses
  | when hi he hth h hending ih => exact ih.when hi he hth h hending
  | cond hi he hth hs hgap hel _ ihs iht => exact ihs.cond hi he hth hs hgap hel iht
  | while_ hw he h ih => exact ih.while_ hw he h
  | loop hl _ ih => exact ih.loop hl
  | break_ hb hcloses => exact reads_break_ hb hcloses
  | continue_ hc hcloses => exact reads_continue_ hc hcloses

end Script

end WordScript
