/-
Texts that are indented as a whole.

If four spaces are put at the beginning of every line of a text, its scan is the
same but for one more indent at the beginning of every raw line and for the
columns, which grow by four; this also holds of errors.  As all lines grow deeper
by the same, the cleaned tokens differ in their columns only.

* `indented` — the text with four spaces more on every line;
* `Scanner.indented`, `Scanner.finish_indented` — the scan of the indented text
  goes along with that of the text, step by step;
* `layout_indented` — the layout takes the additional indents away;
* `tokenize_indented` — the cleaned tokens of the indented text.

Design notes: a line begins at the beginning of the text and behind every line
break, so an empty line at the end of a text is indented as well.
-/
import Mathlib.Data.List.Forall2
import WordScript.Proofs.TokenLines

namespace WordScript

/-! ### Texts -/

/-- The spaces that each line is indented by. -/
def margin : List Char :=
  List.replicate Scanner.indentWidth ' '

/-- Indents every line behind the one that the characters begin in. -/
def indentLines : List Char → List Char
  | [] => []
  | c :: cs => if c = '\n' then c :: (margin ++ indentLines cs) else c :: indentLines cs

/-- Four spaces at the beginning of every line. -/
def indented (source : String) : String :=
  String.ofList (margin ++ indentLines source.toList)

section Texts

variable {cs ds : List Char} {c : Char} {p : Char → Bool}

@[simp] theorem indentLines_nil : indentLines [] = [] := rfl

theorem indentLines_lineBreak (cs : List Char) :
    indentLines ('\n' :: cs) = '\n' :: (margin ++ indentLines cs) := rfl

theorem indentLines_cons (h : c ≠ '\n') (cs : List Char) :
    indentLines (c :: cs) = c :: indentLines cs := if_neg h

theorem exists_of_indentLines (h : indentLines cs = c :: ds) (hc : c ≠ '\n') :
    ∃ rest, cs = c :: rest ∧ ds = indentLines rest := by
  cases cs with
  | nil => cases h
  | cons d rest =>
    by_cases hd : d = '\n'
    · rw [hd, indentLines_lineBreak] at h
      exact absurd (List.cons.inj h).1.symm hc
    · rw [indentLines_cons hd] at h
      obtain ⟨rfl, rfl⟩ := List.cons.inj h
      exact ⟨rest, rfl, rfl⟩

/-- Within a line nothing changes. -/
theorem indentLines_append (h : '\n' ∉ cs) (ds : List Char) :
    indentLines (cs ++ ds) = cs ++ indentLines ds := by
  induction cs with
  | nil => rfl
  | cons c cs ih =>
    rw [List.mem_cons, not_or] at h
    rw [List.cons_append, indentLines_cons (Ne.symm h.1), ih h.2, List.cons_append]

/-- The first character is the same. -/
theorem head?_indentLines (cs : List Char) : (indentLines cs).head? = cs.head? := by
  cases cs with
  | nil => rfl
  | cons c cs => rw [indentLines]; split <;> rfl

theorem takeWhile_indentLines (hp : p '\n' = false) (cs : List Char) :
    (indentLines cs).takeWhile p = cs.takeWhile p := by
  induction cs with
  | nil => rfl
  | cons c cs ih =>
    by_cases hc : c = '\n'
    · rw [hc, indentLines_lineBreak, List.takeWhile_cons_of_neg (by simp [hp]),
        List.takeWhile_cons_of_neg (by simp [hp])]
    · rw [indentLines_cons hc, List.takeWhile_cons, List.takeWhile_cons, ih]

theorem dropWhile_indentLines (hp : p '\n' = false) (cs : List Char) :
    (indentLines cs).dropWhile p = indentLines (cs.dropWhile p) := by
  induction cs with
  | nil => rfl
  | cons c cs ih =>
    by_cases hc : c = '\n'
    · rw [hc, List.dropWhile_cons_of_neg (by simp [hp]), indentLines_lineBreak,
        List.dropWhile_cons_of_neg (by simp [hp])]
    · rw [indentLines_cons hc, List.dropWhile_cons, List.dropWhile_cons, ih]
      split
      · rfl
      · rw [indentLines_cons hc]

theorem isPrefixOf_indentLines (h : '\n' ∉ cs) (ds : List Char) :
    cs.isPrefixOf (indentLines ds) = cs.isPrefixOf ds := by
  induction cs generalizing ds with
  | nil => rfl
  | cons c cs ih =>
    rw [List.mem_cons, not_or] at h
    cases ds with
    | nil => rfl
    | cons d ds =>
      by_cases hd : d = '\n'
      · rw [hd, indentLines_lineBreak, List.isPrefixOf_cons_cons, List.isPrefixOf_cons_cons,
          beq_false_of_ne (Ne.symm h.1), Bool.false_and, Bool.false_and]
      · rw [indentLines_cons hd, List.isPrefixOf_cons_cons, List.isPrefixOf_cons_cons, ih h.2]

end Texts

/-! ### Lexemes -/

/-- The position four columns further to the right. -/
def Position.indented (p : Position) : Position :=
  p.right Scanner.indentWidth

/-- The token four columns further to the right. -/
def Token.indented (t : Token) : Token :=
  { t with position := t.position.indented }

/-- The error four columns further to the right. -/
def ScanError.indented (e : ScanError) : ScanError :=
  { e with position := e.position.indented }

/-- The lexeme with the rest of its text indented. -/
def Lexeme.indented (l : Lexeme) : Lexeme :=
  { l with rest := indentLines l.rest }

theorem Position.indented_right (p : Position) (n : Nat) :
    p.indented.right n = (p.right n).indented := by
  rw [indented, indented, right_right, right_right, Nat.add_comm]

section Lexemes

variable {c : Char}

/-- What is made of the indented text, if this is what is made of the text. -/
def Indented {α : Type} (f : α → α) (r r' : Except ScanError α) : Prop :=
  r' = (r.map f).mapError ScanError.indented

theorem readString_indented (start : Position) (width : Nat) (done cs : List Char) :
    Indented Lexeme.indented (Lexeme.readString start width done cs)
      (Lexeme.readString start.indented width done (indentLines cs)) := by
  unfold Indented
  fun_induction Lexeme.readString start width done cs with
  | case1 | case2 | case3 => rfl
  | case4 width =>
    exact congrArg (fun p => Except.error (ScanError.mk .endInEscape p)) (start.indented_right _)
  | case5 width done c cs e he ih =>
    have hc : c ≠ '\n' := by
      rintro rfl
      cases he
    rw [indentLines_cons (by decide), indentLines_cons hc, Lexeme.readString, he]
    exact ih
  | case6 width done c cs he =>
    obtain ⟨rest, hrest⟩ : ∃ rest, indentLines (c :: cs) = c :: rest := by
      rw [indentLines]
      split <;> exact ⟨_, rfl⟩
    rw [indentLines_cons (by decide), hrest, Lexeme.readString, he]
    exact congrArg (fun p => Except.error (ScanError.mk (.unknownEscape c) p)) (start.indented_right _)
  | case7 width done c cs hquote hbreak hlast hescape ih =>
    have hc : c ≠ '\\' := by
      rintro rfl
      cases cs with
      | nil => exact hlast rfl rfl
      | cons d ds => exact hescape d ds rfl rfl
    rw [indentLines_cons hbreak, Lexeme.readString, ih]
    · exact hquote
    · exact hbreak
    · exact fun h _ => hc h
    · exact fun _ _ h _ => hc h

/-- A decimal number of which the first digits have been read. -/
def decimalFrom (fraction : Bool) (ds rest : List Char) : Lexeme :=
  match rest with
  | '.' :: d :: after =>
    if fraction && Text.isDigit d then
      ⟨.float, String.ofList (ds ++ '.' :: (d :: after).takeWhile Text.isDigit),
        ds.length + 1 + ((d :: after).takeWhile Text.isDigit).length,
        (d :: after).dropWhile Text.isDigit⟩
    else ⟨.integer, String.ofList ds, ds.length, rest⟩
  | _ => ⟨.integer, String.ofList ds, ds.length, rest⟩

theorem decimalFrom_cons (hc : c ≠ '.') (fraction : Bool) (ds rest : List Char) :
    decimalFrom fraction ds (c :: rest) = ⟨.integer, String.ofList ds, ds.length, c :: rest⟩ := by
  unfold decimalFrom
  split
  · next heq => exact absurd (List.cons.inj heq).1 hc
  · rfl

theorem decimalFrom_indented (fraction : Bool) (ds rest : List Char) :
    decimalFrom fraction ds (indentLines rest) = (decimalFrom fraction ds rest).indented := by
  have hdigit : Text.isDigit '\n' = false := by decide
  cases rest with
  | nil => rfl
  | cons c rest =>
    by_cases hc : c = '.'
    · subst hc
      rw [indentLines_cons (by decide)]
      cases rest with
      | nil => rfl
      | cons d after =>
        by_cases hd : d = '\n'
        · simp [hd, indentLines_lineBreak, indentLines_cons, decimalFrom, hdigit, Lexeme.indented]
        · rw [indentLines_cons hd, decimalFrom, decimalFrom, ← indentLines_cons hd]
          split
          · rw [takeWhile_indentLines hdigit, dropWhile_indentLines hdigit]
            rfl
          · rw [Lexeme.indented, ← indentLines_cons (by decide)]
    · obtain ⟨d, after, hne, hcons⟩ : ∃ d after, d ≠ '.' ∧ indentLines (c :: rest) = d :: after := by
        rw [indentLines]
        split <;> exact ⟨_, _, hc, rfl⟩
      rw [decimalFrom_cons hc, hcons, decimalFrom_cons hne, Lexeme.indented, hcons]

theorem readNumber_indented (fraction : Bool) (cs : List Char) :
    Lexeme.readNumber fraction (indentLines cs) = (Lexeme.readNumber fraction cs).indented := by
  have hhex : Text.isHexDigit '\n' = false := by decide
  have hdigit : Text.isDigit '\n' = false := by decide
  have hread : ∀ x : Char, x ≠ '\n' → ∀ ds, indentLines ('0' :: x :: ds) = '0' :: x :: indentLines ds :=
    fun x hx ds => by rw [indentLines_cons (by decide), indentLines_cons hx]
  rw [Lexeme.readNumber.eq_def fraction cs]
  split
  · rw [hread _ (by decide), Lexeme.readNumber, takeWhile_indentLines hhex, dropWhile_indentLines hhex]
    rfl
  · rw [hread _ (by decide), Lexeme.readNumber, takeWhile_indentLines hhex, dropWhile_indentLines hhex]
    rfl
  · next hx hX =>
    have hback : ∀ x, x ≠ '\n' → ∀ ds, indentLines cs = '0' :: x :: ds → ∃ rest, cs = '0' :: x :: rest := by
      intro x hne ds hds
      obtain ⟨rest, rfl, hrest⟩ := exists_of_indentLines hds (by decide)
      obtain ⟨rest, rfl, -⟩ := exists_of_indentLines hrest.symm hne
      exact ⟨rest, rfl⟩
    have hdecimal := decimalFrom_indented fraction (cs.takeWhile Text.isDigit) (cs.dropWhile Text.isDigit)
    rw [Lexeme.readNumber, takeWhile_indentLines hdigit, dropWhile_indentLines hdigit]
    · exact hdecimal
    · exact fun ds hds => (hback _ (by decide) ds hds).elim hx
    · exact fun ds hds => (hback _ (by decide) ds hds).elim hX

theorem readName_indented (cs : List Char) :
    Lexeme.readName (indentLines cs) = (Lexeme.readName cs).indented := by
  have hp : Text.continuesName '\n' = false := by decide +kernel
  simp only [Lexeme.readName, Lexeme.indented, takeWhile_indentLines hp, dropWhile_indentLines hp]

theorem read_indented (hc : c ≠ '\n') (start : Position) (fraction : Bool) (cs : List Char) :
    Indented Lexeme.indented (Lexeme.read start fraction c cs)
      (Lexeme.read start.indented fraction c (indentLines cs)) := by
  unfold Lexeme.read
  rw [← indentLines_cons hc]
  split
  · exact readString_indented ..
  · split
    · exact congrArg Except.ok (readNumber_indented ..)
    · split
      · exact congrArg Except.ok (readName_indented ..)
      · have hfront : Symbol.atFront? (indentLines (c :: cs)) = Symbol.atFront? (c :: cs) := by
          unfold Symbol.atFront?
          exact congrArg (Symbol.all.find? ·)
            (funext fun s => isPrefixOf_indentLines s.lineBreak_notMem _)
        rw [hfront]
        split
        · next s hs =>
          obtain ⟨rest, hrest⟩ :=
            List.isPrefixOf_iff_prefix.mp (List.find?_eq_some_iff_append.mp hs).1
          have hdrop : (indentLines (c :: cs)).drop s.chars.length =
              indentLines ((c :: cs).drop s.chars.length) := by
            rw [← hrest, indentLines_append s.lineBreak_notMem, List.drop_left, List.drop_left]
          exact congrArg (fun rest => Except.ok (Lexeme.mk (.symbol s) s.text s.chars.length rest)) hdrop
        · rfl

/-- A line break is not a lexeme. -/
theorem kind_ne_of_read {start : Position} {fraction : Bool} {cs : List Char} {l : Lexeme}
    (h : Lexeme.read start fraction c cs = .ok l) : l.kind ≠ .newLine := by
  obtain ⟨chars, -, hcovers⟩ := covers_of_read h
  have hspelled := hcovers.spelled
  generalize l.text = text at hspelled
  intro hkind
  rw [hkind] at hspelled
  cases hspelled
  exact hcovers.oneLine List.mem_cons_self

end Lexemes

/-! ### Scans -/

/-- The indent at the beginning of a line. -/
def lead (moduleName : String) (line : Nat) : Token :=
  ⟨.indent, "    ", ⟨line, 1⟩, moduleName⟩

/-- A raw token in the indented text, with the indent of the line that it opens. -/
def Token.widened (t : Token) : List Token :=
  t.indented :: if t.kind = .newLine then [lead t.moduleName (t.position.line + 1)] else []

/-- The raw tokens of the indented text. -/
def widen (moduleName : String) (tokens : Array Token) : Array Token :=
  (lead moduleName 1 :: tokens.toList.flatMap Token.widened).toArray

theorem widen_push (moduleName : String) (tokens : Array Token) (t : Token) :
    widen moduleName (tokens.push t) = widen moduleName tokens ++ t.widened.toArray := by
  apply Array.toList_inj.mp
  simp [widen]

namespace Scanner

/-- The scanner on the indented text. -/
def indented (s : Scanner) : Scanner :=
  { s with
    tokens := widen s.moduleName s.tokens
    position := s.position.indented
    rest := indentLines s.rest }

variable {kind : TokenKind}

theorem push_indented (s : Scanner) (hkind : kind ≠ .newLine) (text : String) (at_ : Position) :
    (s.push kind text at_).indented = s.indented.push kind text at_.indented := by
  simp only [push, indented, widen_push, Token.widened, if_neg hkind]
  rfl

theorem pushLayout_indented (s : Scanner) (hkind : kind ≠ .newLine) (text : String) (at_ : Position) :
    (s.pushLayout kind text at_).indented = s.indented.pushLayout kind text at_.indented := by
  unfold pushLayout
  split
  · next h => rw [if_pos (show s.indented.nesting = 0 from h), push_indented s hkind]
  · next h => rw [if_neg (show ¬s.indented.nesting = 0 from h)]

/-- A step to the right leads to the same place. -/
theorem indented_right (s : Scanner) (n : Nat) :
    indented { s with position := s.position.right n } =
      { s.indented with position := s.indented.position.right n } := by
  simp only [indented, Position.indented_right]

theorem skipBlanks_indented (s : Scanner) (run : Nat) (runStart : Position) (cs : List Char) :
    s.indented.skipBlanks run runStart.indented (indentLines cs) =
      (s.skipBlanks run runStart cs).indented := by
  have hfirst : ∀ (s : Scanner) (run : Nat) (runStart : Position),
      (if run = 0 then s.indented.position else runStart.indented) =
        (if run = 0 then s.position else runStart).indented := by
    intro s run runStart
    split <;> rfl
  fun_induction skipBlanks s run runStart cs with
  | case1 s run runStart cs first next =>
    rename_i hfull ih
    rw [← ih, pushLayout_indented _ (by decide), indented_right, indentLines_cons (by decide), skipBlanks,
      if_pos hfull, hfirst]
  | case2 s run runStart cs first next =>
    rename_i hmore ih
    rw [← ih, indented_right, indentLines_cons (by decide), skipBlanks, if_neg hmore, hfirst]
  | case3 s run runStart cs here =>
    rename_i ih
    rw [← ih, pushLayout_indented _ (by decide), indented_right, indentLines_cons (by decide), skipBlanks]
    rfl
  | case4 s run runStart cs ih =>
    rw [← ih, indented_right, indentLines_cons (by decide), skipBlanks]
  | case5 s run runStart cs hspace htab hreturn =>
    -- indenting does not change what stands at the front, a line break apart
    have hback : ∀ c, c ≠ '\n' → (∀ ds, cs = c :: ds → False) → ∀ ds, indentLines cs = c :: ds → False := by
      intro c hc h ds hds
      obtain ⟨rest, hrest, -⟩ := exists_of_indentLines hds hc
      exact h rest hrest
    rw [skipBlanks]
    · rfl
    · exact hback _ (by decide) hspace
    · exact hback _ (by decide) htab
    · exact hback _ (by decide) hreturn

/-- Where no spaces have been seen yet, it does not matter where they might have begun. -/
theorem skipBlanks_zero (s : Scanner) (p q : Position) (cs : List Char) :
    s.skipBlanks 0 p cs = s.skipBlanks 0 q cs := by
  induction cs generalizing s with
  | nil => rfl
  | cons c cs ih =>
    by_cases hspace : c = ' '
    · rw [hspace, skipBlanks, skipBlanks, if_pos rfl, if_pos rfl]
    · by_cases htab : c = '\t'
      · rw [htab, skipBlanks, skipBlanks]
        exact ih _
      · by_cases hreturn : c = '\r'
        · rw [hreturn, skipBlanks, skipBlanks]
          exact ih _
        · unfold skipBlanks
          split
          · next heq => exact absurd (List.cons.inj heq).1 hspace
          · next heq => exact absurd (List.cons.inj heq).1 htab
          · next heq => exact absurd (List.cons.inj heq).1 hreturn
          · rfl

theorem pushLayout_rest (s : Scanner) (rest : List Char) (kind : TokenKind) (text : String)
    (at_ : Position) :
    pushLayout { s with rest } kind text at_ = { s.pushLayout kind text at_ with rest } := by
  unfold pushLayout push
  split <;> rfl

/-- The blanks are given apart from the rest of the text. -/
theorem skipBlanks_rest (s : Scanner) (rest : List Char) (run : Nat) (runStart : Position)
    (cs : List Char) :
    skipBlanks { s with rest } run runStart cs = s.skipBlanks run runStart cs := by
  fun_induction skipBlanks s run runStart cs generalizing rest with
  | case1 s run runStart cs first next =>
    rename_i hfull ih
    rw [← ih rest, ← pushLayout_rest, skipBlanks, if_pos hfull]
  | case2 s run runStart cs first next =>
    rename_i hmore ih
    rw [← ih rest, skipBlanks, if_neg hmore]
  | case3 s run runStart cs here =>
    rename_i ih
    rw [← ih rest, ← pushLayout_rest, skipBlanks]
  | case4 s run runStart cs ih => rw [← ih rest, skipBlanks]
  | case5 s run runStart cs hspace htab hreturn =>
    rw [skipBlanks]
    · exact hspace
    · exact htab
    · exact hreturn

/-- What the scan does where no blanks stand. -/
def proceed (s : Scanner) : Except ScanError (Array Token) :=
  match s.rest with
  | [] => .ok (s.push .endOfFile "" s.position).tokens
  | c :: cs =>
    if c = '\n' then
      finish (pushLayout { s with position := s.position.next c, rest := cs } .newLine "\n" s.position)
    else if c = '/' ∧ cs.head? = some '/' then s.skipComment.finish
    else
      match Lexeme.read s.position s.allowsFraction c cs with
      | .error e => .error e
      | .ok l => (s.take l).finish

theorem finish_eq_proceed (s : Scanner) :
    s.finish = (s.skipBlanks 0 s.position s.rest).proceed := by
  unfold proceed
  fun_cases finish s with
  | case1 blankless =>
    rename_i hr
    rw [show (s.skipBlanks 0 s.position s.rest).rest = [] from hr]
  | case2 blankless cs =>
    rename_i hr _ _
    rw [show (s.skipBlanks 0 s.position s.rest).rest = '\n' :: cs from hr]
    exact (if_pos rfl).symm
  | case3 blankless c cs hr _ hbreak hslash =>
    rw [show (s.skipBlanks 0 s.position s.rest).rest = c :: cs from hr]
    dsimp only
    rw [if_neg hbreak, if_pos hslash]
  | case4 blankless c cs hr _ hbreak hslash e he =>
    rw [show (s.skipBlanks 0 s.position s.rest).rest = c :: cs from hr]
    dsimp only
    rw [if_neg hbreak, if_neg hslash, he]
  | case5 blankless c cs hr _ hbreak hslash l hl =>
    rw [show (s.skipBlanks 0 s.position s.rest).rest = c :: cs from hr]
    dsimp only
    rw [if_neg hbreak, if_neg hslash, hl]

/-- Four spaces are passed over at once. -/
theorem finish_margin (s : Scanner) (cs : List Char) (hrest : s.rest = margin ++ cs) :
    s.finish = finish (pushLayout { s with position := s.position.indented, rest := cs }
      .indent "    " s.position) := by
  let next : Scanner := { s with position := s.position.indented }
  have hblank : s.skipBlanks 0 s.position (margin ++ cs) =
      (next.pushLayout .indent "    " s.position).skipBlanks 0 s.position cs := rfl
  have hlayout : pushLayout { s with position := s.position.indented, rest := cs } .indent "    "
      s.position = { next.pushLayout .indent "    " s.position with rest := cs } :=
    pushLayout_rest next ..
  rw [finish_eq_proceed, finish_eq_proceed, hrest, hblank, hlayout]
  exact congrArg proceed ((skipBlanks_rest ..).trans (skipBlanks_zero ..)).symm

/-- Behind a line break, and the margin behind it, the scans are together again. -/
theorem lineBreak_indented (s : Scanner) (cs : List Char) :
    finish (pushLayout
      { s.indented with position := s.indented.position.next '\n', rest := margin ++ indentLines cs }
      .newLine "\n" s.indented.position) =
    finish (indented (pushLayout { s with position := s.position.next '\n', rest := cs }
      .newLine "\n" s.position)) := by
  rw [finish_margin _ (indentLines cs) (rest_pushLayout ..)]
  refine congrArg finish ?_
  by_cases h : s.nesting = 0
  · simp only [pushLayout, push, indented, h, if_pos, widen_push]
    rfl
  · simp only [pushLayout, indented, h, if_false]
    rfl

theorem skipComment_indented (s : Scanner) : s.indented.skipComment = s.skipComment.indented := by
  simp only [skipComment, indented, takeWhile_indentLines (p := fun c => decide (c ≠ '\n')) (by decide),
    dropWhile_indentLines (p := fun c => decide (c ≠ '\n')) (by decide), Position.indented_right]

theorem allowsFraction_indented (s : Scanner) : s.indented.allowsFraction = s.allowsFraction := by
  unfold allowsFraction
  rw [show s.indented.tokens = widen s.moduleName s.tokens from rfl]
  cases hback : s.tokens.back? with
  | none =>
    rw [Array.back?_eq_none_iff.mp hback]
    rfl
  | some t =>
    obtain ⟨ts, htokens⟩ := Array.back?_eq_some_iff.mp hback
    rw [htokens, widen_push]
    by_cases hkind : t.kind = .newLine
    · simp [Token.widened, hkind, lead]
      decide
    · simp [Token.widened, hkind, Token.indented]

theorem take_indented (s : Scanner) {l : Lexeme} (hkind : l.kind ≠ .newLine) :
    (s.take l).indented = s.indented.take l.indented := by
  simp only [take, indented, widen_push, Token.widened, if_neg hkind, Position.indented_right]
  rfl

theorem finish_indented_eq (s : Scanner) :
    s.indented.finish = (s.skipBlanks 0 s.position s.rest).indented.proceed := by
  rw [finish_eq_proceed, ← skipBlanks_indented]
  rfl

/-- What stands at the front is read as before, at a place further right. -/
theorem read_front_indented (s : Scanner) (hc : c ≠ '\n') (cs : List Char) :
    Indented Lexeme.indented (Lexeme.read s.position s.allowsFraction c cs)
      (Lexeme.read s.indented.position s.indented.allowsFraction c (indentLines cs)) := by
  rw [allowsFraction_indented]
  exact read_indented hc ..

theorem finish_indented (s : Scanner) :
    s.indented.finish =
      (s.finish.map (widen s.moduleName)).mapError ScanError.indented := by
  have hname : ∀ s : Scanner, (s.skipBlanks 0 s.position s.rest).moduleName = s.moduleName :=
    fun s => moduleName_skipBlanks ..
  -- both scans pass the blanks and then look at the same character
  fun_induction finish s with
  | case1 s blankless =>
    rename_i hr
    have hrest : blankless.indented.rest = [] := congrArg indentLines hr
    rw [show s.indented.finish = blankless.indented.proceed from finish_indented_eq s, proceed, hrest]
    have hpush := congrArg tokens
      (push_indented blankless (show TokenKind.endOfFile ≠ .newLine by decide) "" blankless.position)
    rw [← hname s]
    exact congrArg Except.ok hpush.symm
  | case2 s blankless cs =>
    rename_i hr _ _ ih
    have hrest : blankless.indented.rest = '\n' :: (margin ++ indentLines cs) :=
      (congrArg indentLines hr).trans (indentLines_lineBreak cs)
    rw [show s.indented.finish = blankless.indented.proceed from finish_indented_eq s, proceed, hrest]
    dsimp only
    rw [if_pos rfl, lineBreak_indented, ih, moduleName_pushLayout]
    rw [← hname s]
  | case3 s blankless c cs hr _ hbreak hslash _ ih =>
    have hrest : blankless.indented.rest = c :: indentLines cs :=
      (congrArg indentLines hr).trans (indentLines_cons hbreak cs)
    rw [show s.indented.finish = blankless.indented.proceed from finish_indented_eq s, proceed, hrest]
    dsimp only
    rw [if_neg hbreak, head?_indentLines, if_pos hslash, skipComment_indented]
    exact ih.trans (by rw [show blankless.skipComment.moduleName = s.moduleName from hname s])
  | case4 s blankless c cs hr _ hbreak hslash e he =>
    have hrest : blankless.indented.rest = c :: indentLines cs :=
      (congrArg indentLines hr).trans (indentLines_cons hbreak cs)
    have hread := blankless.read_front_indented hbreak cs
    rw [he] at hread
    rw [show s.indented.finish = blankless.indented.proceed from finish_indented_eq s, proceed, hrest]
    dsimp only
    rw [if_neg hbreak, head?_indentLines, if_neg hslash, hread]
    rfl
  | case5 s blankless c cs hr _ hbreak hslash l hl _ ih =>
    have hrest : blankless.indented.rest = c :: indentLines cs :=
      (congrArg indentLines hr).trans (indentLines_cons hbreak cs)
    have hread := blankless.read_front_indented hbreak cs
    rw [hl] at hread
    rw [show s.indented.finish = blankless.indented.proceed from finish_indented_eq s, proceed, hrest]
    dsimp only
    rw [if_neg hbreak, head?_indentLines, if_neg hslash, hread]
    show ((blankless.indented.take l.indented).finish) = _
    rw [← take_indented _ (kind_ne_of_read hl)]
    exact ih.trans (by rw [show (blankless.take l).moduleName = s.moduleName from hname s])

end Scanner

theorem scan_indented (moduleName source : String) :
    scan moduleName (indented source) =
      ((scan moduleName source).map (widen moduleName)).mapError ScanError.indented := by
  have hrest : (Scanner.start moduleName (indented source)).rest = margin ++ indentLines source.toList :=
    String.toList_ofList
  rw [scan, Scanner.finish_margin _ _ hrest]
  exact (Scanner.start moduleName source).finish_indented

/-! ### Layout -/

namespace RawLine

open Layout (ends isIndent)

/-- The line in the indented text, behind one more indent. -/
def Widened (l l' : RawLine) : Prop :=
  ∃ t : Token, isIndent t = true ∧ l'.body = t :: l.body.map Token.indented ∧ l'.ender = l.ender.indented

variable {l l' : RawLine} {line ts : List Token} {t eof : Token} {base : Nat}

/-- The lines of the indented text, by induction on the tokens behind those of the current line. -/
theorem widened_splitFrom (ht : isIndent t = true) (hts : ∀ t ∈ ts, t.kind ≠ .endOfFile)
    (heof : eof.kind = .endOfFile) :
    List.Forall₂ Widened (splitFrom [] line (ts ++ [eof]))
      (splitFrom [] (line.map Token.indented ++ [t]) ((ts ++ [eof]).flatMap Token.widened)) := by
  have hends : ∀ u : Token, ends u.indented = ends u := fun u => rfl
  have hbody : ∀ (line : List Token) (t : Token), (line.map Token.indented ++ [t]).reverse =
      t :: line.reverse.map Token.indented := fun line t => by simp
  induction ts generalizing line t with
  | nil =>
    have hend : ends eof = true := by simp [ends, heof]
    have hwidened : eof.widened = [eof.indented] := by simp [Token.widened, heof]
    simp only [List.nil_append, List.flatMap_cons, List.flatMap_nil, List.append_nil, hwidened, splitFrom,
      hends, hend, if_true, hbody]
    exact .cons ⟨t, ht, rfl, rfl⟩ .nil
  | cons u ts ih =>
    obtain ⟨hu, hts⟩ := List.forall_mem_cons.mp hts
    -- a line break ends the line, and the next one begins with the indent that follows it
    by_cases hend : ends u = true
    · have hkind : u.kind = .newLine := by simpa [ends, hu] using hend
      have hlead : ends (lead u.moduleName (u.position.line + 1)) = false := rfl
      have hwidened : u.widened = [u.indented, lead u.moduleName (u.position.line + 1)] := by
        simp [Token.widened, hkind]
      simp only [List.cons_append, List.flatMap_cons, hwidened, List.nil_append, splitFrom, hends, hend,
        if_true, hlead, hbody, Bool.false_eq_true, if_false]
      rw [splitFrom_eq_append, splitFrom_eq_append [_] [lead _ _]]
      exact .cons ⟨t, ht, rfl, rfl⟩ (ih rfl hts)
    · have hkind : u.kind ≠ .newLine := by
        intro hkind
        exact hend (by simp [ends, hkind])
      have hwidened : u.widened = [u.indented] := by simp [Token.widened, hkind]
      simp only [List.cons_append, List.flatMap_cons, hwidened, List.nil_append, splitFrom, hends, hend,
        Bool.false_eq_true, if_false]
      exact @ih (u :: line) t ht hts

theorem Widened.hasContent (h : Widened l l') : l'.hasContent = l.hasContent := by
  obtain ⟨t, ht, hbody, -⟩ := h
  have hformatting : t.isFormatting = true := by
    rw [Token.isFormatting, beq_iff_eq.mp ht]
    rfl
  rw [RawLine.hasContent, hbody, List.any_cons, hformatting, List.any_map]
  rfl

theorem Widened.takeWhile (h : Widened l l') : ∃ t : Token,
    l'.body.takeWhile isIndent = t :: (l.body.takeWhile isIndent).map Token.indented := by
  obtain ⟨t, ht, hbody, -⟩ := h
  exact ⟨t, by rw [hbody, List.takeWhile_cons_of_pos ht, List.takeWhile_map]; rfl⟩

theorem Widened.depth (h : Widened l l') : l'.depth = l.depth + 1 := by
  obtain ⟨t, htake⟩ := h.takeWhile
  rw [RawLine.depth, htake, List.length_cons, List.length_map, RawLine.depth]

theorem Widened.terminator (h : Widened l l') : l'.terminator = l.terminator.indented := by
  obtain ⟨t, -, -, hender⟩ := h
  unfold RawLine.terminator
  rw [hender]
  show (if l.ender.kind = .newLine then _ else _) = _
  split <;> rfl

theorem Widened.tidy (h : Widened l l') (base : Nat) :
    l'.tidy (base + 1) = (l.tidy base).map Token.indented := by
  obtain ⟨t, htake⟩ := h.takeWhile
  have hdrop : l'.body.dropWhile isIndent = (l.body.dropWhile isIndent).map Token.indented := by
    obtain ⟨t, ht, hbody, -⟩ := h
    rw [hbody, List.dropWhile_cons_of_pos ht, List.dropWhile_map]
    rfl
  rw [RawLine.tidy, htake, hdrop, h.terminator, List.drop_succ_cons, List.filter_map, RawLine.tidy,
    List.map_append, List.map_append, List.map_drop]
  rfl

end RawLine

section Layout

variable {lines lines' : List RawLine}

theorem filter_widened (h : List.Forall₂ RawLine.Widened lines lines') :
    List.Forall₂ RawLine.Widened (lines.filter RawLine.hasContent) (lines'.filter RawLine.hasContent) := by
  induction h with
  | nil => exact .nil
  | cons hl _ ih =>
    rw [List.filter_cons, List.filter_cons, hl.hasContent]
    split
    · exact .cons hl ih
    · exact ih

theorem map_depth_widened (h : List.Forall₂ RawLine.Widened lines lines') :
    lines'.map RawLine.depth = (lines.map RawLine.depth).map (· + 1) := by
  induction h with
  | nil => rfl
  | cons hl _ ih => rw [List.map_cons, List.map_cons, List.map_cons, hl.depth, ih]

theorem flatMap_tidy_widened (h : List.Forall₂ RawLine.Widened lines lines') (base : Nat) :
    lines'.flatMap (RawLine.tidy (base + 1)) = (lines.flatMap (RawLine.tidy base)).map Token.indented := by
  induction h with
  | nil => rfl
  | cons hl _ ih => rw [List.flatMap_cons, List.flatMap_cons, List.map_append, hl.tidy, ih]

/-- With one indent more on every line, the lines share one level more. -/
theorem baseDepth_widened (h : List.Forall₂ RawLine.Widened lines lines') (hne : lines ≠ []) :
    baseDepth lines' = baseDepth lines + 1 := by
  obtain ⟨⟨l, hl, hdepth⟩, hle⟩ := baseDepth_spec hne
  have hmin : ((lines.map RawLine.depth).map (· + 1)).min? = some (baseDepth lines + 1) := by
    refine List.min?_eq_some_iff.mpr ⟨?_, fun d hd => ?_⟩
    · rw [← hdepth]
      exact List.mem_map_of_mem (List.mem_map_of_mem hl)
    · obtain ⟨_, hmem, rfl⟩ := List.mem_map.mp hd
      obtain ⟨l, hl, rfl⟩ := List.mem_map.mp hmem
      exact Nat.succ_le_succ (hle l hl)
  rw [baseDepth, map_depth_widened h, hmin]
  rfl

/-- The cleaned lines differ in their columns only. -/
theorem flatMap_tidy_base (h : List.Forall₂ RawLine.Widened lines lines') :
    lines'.flatMap (RawLine.tidy (baseDepth lines')) =
      (lines.flatMap (RawLine.tidy (baseDepth lines))).map Token.indented := by
  by_cases hne : lines = []
  · subst hne
    cases h
    rfl
  · rw [baseDepth_widened h hne, flatMap_tidy_widened h]

/-- The layout takes the additional indents away. -/
theorem layout_widen (moduleName : String) {raw : Array Token} {ts : List Token} {eof : Token}
    (hraw : raw.toList = ts ++ [eof]) (hts : ∀ t ∈ ts, t.kind ≠ .endOfFile)
    (heof : eof.kind = .endOfFile) :
    layout (widen moduleName raw) = (layout raw).map Token.indented := by
  have hlines : List.Forall₂ RawLine.Widened (RawLine.split raw.toList)
      (RawLine.split (widen moduleName raw).toList) := by
    rw [widen, hraw]
    exact @RawLine.widened_splitFrom [] ts (lead moduleName 1) eof rfl hts heof
  have hend := filter_endOfFile hraw heof hts
  have hlead : ∀ moduleName line, ¬((lead moduleName line).kind == .endOfFile) = true :=
    fun _ _ => Bool.false_ne_true
  have hwidened : ∀ t ∈ ts.flatMap Token.widened, ¬(t.kind == .endOfFile) = true := by
    intro u hu
    obtain ⟨t, ht, hu⟩ := List.mem_flatMap.mp hu
    obtain rfl | hu := List.mem_cons.mp hu
    · simpa [Token.indented] using hts t ht
    · split at hu
      · rw [List.mem_singleton.mp hu]
        exact hlead _ _
      · cases hu
  have hend' : ((widen moduleName raw).filter fun t => t.kind == .endOfFile).toList = [eof.indented] := by
    rw [Array.toList_filter, widen, hraw, List.flatMap_append, List.filter_cons_of_neg (p := fun t : Token => t.kind == .endOfFile) (hlead _ _),
      List.filter_append, List.filter_eq_nil_iff.mpr hwidened]
    simp [Token.widened, heof, Token.indented]
  apply Array.toList_inj.mp
  rw [layout, layout, Array.toList_append, hend', Array.toList_map, Array.toList_append, hend,
    List.map_append]
  exact congrArg (· ++ [eof.indented]) (flatMap_tidy_base (filter_widened hlines))

end Layout

/-- The cleaned tokens of the indented text. -/
theorem tokenize_indented (moduleName source : String) :
    tokenize moduleName (indented source) =
      ((tokenize moduleName source).map fun ts => ts.map Token.indented).mapError ScanError.indented := by
  rw [tokenize_eq_layout, tokenize_eq_layout, scan_indented]
  cases h : scan moduleName source with
  | error e => rfl
  | ok raw =>
    obtain ⟨ts, eof, hraw, heof, hkind, -⟩ := exists_eof_of_scan h
    exact congrArg Except.ok (layout_widen moduleName hraw (fun t ht => (hkind t ht).1) heof)

end WordScript
