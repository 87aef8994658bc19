/-
How the tokens of a text account for it.

A text that is scanned falls into pieces that lie end to end.  A piece is either
read as a token, and then the token's position is that of its first character and
the token's text is what the characters spell, or it is passed over, and then it
is a run of blanks, a comment, or a line break inside brackets.

* `Position.behind` — the place in a text that some characters lead up to;
* `Spelled` — what the characters of a token have to do with its kind and text;
* `Gap` — what is passed over;
* `Scanner.Accounts` — the pieces that a scanner has read so far, kept by every
  step of the scan;
* `pieces_of_scan` — the pieces of a whole text.

Design notes: a run of blanks is cut into its indents while it is read, so the
blanks seen since the last indent are not a piece yet.  They are the `pending`
characters of the lemmas on `skipBlanks`.
-/
import Mathlib.Data.List.Basic
import Mathlib.Data.List.TakeWhile
import WordScript.Token.Scan

namespace WordScript

/-! ### Positions -/

namespace Position

variable {before cs : List Char} {p q r : Position}

/-- The position behind some characters of a text: the lines are counted by the line breaks, the
columns by the characters since the last of them. -/
def behind (before : List Char) : Position :=
  ⟨before.count '\n' + 1, (before.reverse.takeWhile (· ≠ '\n')).length + 1⟩

theorem behind_concat (before : List Char) (c : Char) :
    behind (before ++ [c]) = (behind before).next c := by
  unfold behind next
  by_cases h : c = '\n'
  · subst h
    simp
  · simp [h]

/-- Without a line break in them, characters only lead to the right. -/
theorem behind_append (h : '\n' ∉ cs) : behind (before ++ cs) = (behind before).right cs.length := by
  induction cs generalizing before with
  | nil => rw [List.append_nil]; rfl
  | cons c cs ih =>
    rw [List.mem_cons, not_or] at h
    rw [List.append_cons, ih h.2, behind_concat, next, if_neg (Ne.symm h.1), right, right,
      List.length_cons, Nat.add_assoc, Nat.add_comm 1]

theorem right_right (p : Position) (m n : Nat) : (p.right m).right n = p.right (m + n) := by
  rw [right, right, right, Nat.add_assoc]

theorem before_trans (hpq : p.before q) (hqr : q.before r) : p.before r := by
  unfold before at *
  omega

theorem before_next (p : Position) (c : Char) : p.before (p.next c) := by
  unfold before next
  split
  · exact .inl (Nat.lt_succ_self _)
  · exact .inr ⟨rfl, Nat.lt_succ_self _⟩

/-- Reading on leads to a later position. -/
theorem behind_before (h : cs ≠ []) : (behind before).before (behind (before ++ cs)) := by
  induction cs generalizing before with
  | nil => exact absurd rfl h
  | cons c cs ih =>
    have hnext : (behind before).before (behind (before ++ [c])) := by
      rw [behind_concat]
      exact before_next _ c
    rw [List.append_cons]
    by_cases hcs : cs = []
    · rw [hcs, List.append_nil]
      exact hnext
    · exact before_trans hnext (ih hcs)

end Position

/-! ### Lexemes -/

/-- The characters that may stand behind a backslash, with what the two stand for. -/
def escapes : List (Char × Char) :=
  [('n', '\n'), ('t', '\t'), ('r', '\r'), ('\\', '\\'), ('"', '"')]

/-- What the inside of a string literal stands for, if it may stand between quotes. -/
def unescapeAll : List Char → Option (List Char)
  | [] => some []
  | '\\' :: [] => none
  | '\\' :: c :: cs => do
    let e ← escapes.lookup c
    let es ← unescapeAll cs
    return e :: es
  | c :: cs => if c = '"' ∨ c = '\n' then none else (unescapeAll cs).map (c :: ·)

/-- The scanner knows these escapes and no others. -/
theorem unescape_eq_lookup (c : Char) : Lexeme.unescape c = escapes.lookup c := by
  unfold Lexeme.unescape
  split
  any_goals rfl
  next => exact (List.lookup_eq_none_iff.mpr (by simp_all [escapes])).symm

/-- The characters of a token spell its text as its kind demands.  What comes after them tells how
far a symbol could have gone on. -/
inductive Spelled (after : List Char) : List Char → TokenKind → String → Prop
  /-- a name -/
  | name {c : Char} {cs : List Char} : Text.startsName c = true →
      (∀ d ∈ cs, Text.continuesName d = true) → Keyword.ofText? (String.ofList (c :: cs)) = none →
      Spelled after (c :: cs) .identifier (String.ofList (c :: cs))
  /-- a reserved word -/
  | keyword {k : Keyword} {c : Char} {cs : List Char} : Text.startsName c = true →
      (∀ d ∈ cs, Text.continuesName d = true) → Keyword.ofText? (String.ofList (c :: cs)) = some k →
      Spelled after (c :: cs) (.keyword k) (String.ofList (c :: cs))
  /-- an integer -/
  | decimal {ds : List Char} : ds ≠ [] → (∀ d ∈ ds, Text.isDigit d = true) →
      Spelled after ds .integer (String.ofList ds)
  /-- an integer with either form of the hexadecimal prefix -/
  | hexadecimal {x : Char} {ds : List Char} : x = 'x' ∨ x = 'X' →
      (∀ d ∈ ds, Text.isHexDigit d = true) →
      Spelled after ('0' :: x :: ds) .integer (String.ofList ('0' :: 'x' :: ds))
  /-- a number with a fraction -/
  | fraction {ds fs : List Char} : ds ≠ [] → (∀ d ∈ ds, Text.isDigit d = true) → fs ≠ [] →
      (∀ d ∈ fs, Text.isDigit d = true) →
      Spelled after (ds ++ '.' :: fs) .float (String.ofList (ds ++ '.' :: fs))
  /-- a string between its quotes -/
  | string {cs text : List Char} : unescapeAll cs = some text →
      Spelled after ('"' :: cs ++ ['"']) .string (String.ofList text)
  /-- the longest symbol that stands there -/
  | symbol {s : Symbol} : (∀ u : Symbol, u.chars <+: s.chars ++ after →
      u.chars.length ≤ s.chars.length) → Spelled after s.chars (.symbol s) s.text
  /-- a line break -/
  | lineBreak : Spelled after ['\n'] .newLine "\n"
  /-- a run of four spaces, which carriage returns may interrupt -/
  | spaces {cs : List Char} : cs.head? = some ' ' →
      cs.filter (· ≠ '\r') = List.replicate Scanner.indentWidth ' ' → Spelled after cs .indent "    "
  /-- a tab -/
  | tab : Spelled after ['\t'] .indent "\t"

section Lexemes

variable {start : Position} {fraction : Bool} {width : Nat} {done cs text : List Char} {c : Char}
  {l : Lexeme}

theorem not_mem_lineBreak {p : Char → Bool} (hp : p '\n' = false) (h : ∀ d ∈ cs, p d = true) :
    '\n' ∉ cs :=
  fun hmem => absurd (h _ hmem) (by rw [hp]; exact Bool.false_ne_true)

/-- A lexeme covers the characters that it was read from, and they spell it. -/
structure Lexeme.Covers (l : Lexeme) (chars : List Char) : Prop where
  width : l.width = chars.length
  oneLine : '\n' ∉ chars
  spelled : Spelled l.rest chars l.kind l.text

theorem not_mem_of_unescapeAll (h : unescapeAll cs = some text) : '\n' ∉ cs := by
  fun_induction unescapeAll cs generalizing text with
  | case1 => exact List.not_mem_nil
  | case2 => cases h
  | case3 c cs ih =>
    simp only [Option.bind_eq_bind, Option.bind_eq_some_iff] at h
    obtain ⟨e, he, es, hes, -⟩ := h
    have hc : c ≠ '\n' := by
      rintro rfl
      rw [← unescape_eq_lookup] at he
      cases he
    simp only [List.mem_cons, not_or]
    exact ⟨by decide, hc.symm, ih hes⟩
  | case4 => cases h
  | case5 c cs _ _ hc ih =>
    obtain ⟨es, hes, -⟩ := Option.map_eq_some_iff.mp h
    rw [not_or] at hc
    simp only [List.mem_cons, not_or]
    exact ⟨Ne.symm hc.2, ih hes⟩

/-- The inside of a string literal is read up to its closing quote, and stands for its text. -/
theorem readString_eq_ok (h : Lexeme.readString start width done cs = .ok l) :
    ∃ inside text, cs = inside ++ '"' :: l.rest ∧ unescapeAll inside = some text ∧
      l.kind = .string ∧ l.text = String.ofList (done.reverse ++ text) ∧
      l.width = width + inside.length + 1 := by
  fun_induction Lexeme.readString start width done cs with
  | case1 | case3 | case4 | case6 => cases h
  | case2 =>
    cases h
    exact ⟨[], [], rfl, rfl, rfl, by rw [List.append_nil], rfl⟩
  -- a backslash with the character that it escapes
  | case5 width done c cs e he ih =>
    obtain ⟨inside, text, hcs, htext, hkind, hl, hwidth⟩ := ih h
    refine ⟨'\\' :: c :: inside, e :: text, by rw [hcs]; rfl, ?_, hkind, ?_, ?_⟩
    · simp [unescapeAll, ← unescape_eq_lookup, he, htext]
    · rw [hl, List.reverse_cons, List.append_assoc]; rfl
    · rw [hwidth, List.length_cons, List.length_cons]; omega
  -- any other character stands for itself
  | case7 width done c cs hquote hbreak hlast hescape ih =>
    obtain ⟨inside, text, hcs, htext, hkind, hl, hwidth⟩ := ih h
    refine ⟨c :: inside, c :: text, by rw [hcs]; rfl, ?_, hkind, ?_, ?_⟩
    · have hc : c ≠ '\\' := by
        rintro rfl
        cases cs with
        | nil => exact hlast rfl rfl
        | cons d ds => exact hescape d ds rfl rfl
      rw [unescapeAll, if_neg (not_or.mpr ⟨hquote, hbreak⟩), htext]
      · rfl
      · exact fun h _ => hc h
      · exact fun _ _ h _ => hc h
    · rw [hl, List.reverse_cons, List.append_assoc]; rfl
    · rw [hwidth, List.length_cons]; omega

theorem covers_number (hc : Text.isDigit c = true) :
    ∃ chars, c :: cs = chars ++ (Lexeme.readNumber fraction (c :: cs)).rest ∧
      (Lexeme.readNumber fraction (c :: cs)).Covers chars := by
  have hdigits : ∀ {p : Char → Bool} (cs : List Char), ∀ d ∈ cs.takeWhile p, p d = true :=
    fun _ _ => List.mem_takeWhile_imp
  -- the prefix is normalised, so the lexeme does not say which letter it had
  have hex : ∀ (x : Char) (ds : List Char), x = 'x' ∨ x = 'X' →
      Lexeme.Covers ⟨.integer, String.ofList ('0' :: 'x' :: ds.takeWhile Text.isHexDigit),
        (ds.takeWhile Text.isHexDigit).length + 2, ds.dropWhile Text.isHexDigit⟩
        ('0' :: x :: ds.takeWhile Text.isHexDigit) := by
    intro x ds hx
    refine ⟨rfl, ?_, .hexadecimal hx (hdigits ds)⟩
    have hds := not_mem_lineBreak (by decide) (hdigits (p := Text.isHexDigit) ds)
    simp only [List.mem_cons, not_or]
    exact ⟨by decide, by rintro rfl; simp at hx, hds⟩
  unfold Lexeme.readNumber
  split
  · next ds heq => 
    rw [heq]
    exact ⟨_, by simp, hex 'x' ds (.inl rfl)⟩
  · next ds heq => 
    rw [heq]
    exact ⟨_, by simp, hex 'X' ds (.inr rfl)⟩
  -- a decimal number takes its fraction along if a digit stands behind the dot
  · have hne : (c :: cs).takeWhile Text.isDigit ≠ [] := by
      rw [List.takeWhile_cons_of_pos hc]; exact List.cons_ne_nil _ _
    have hds := not_mem_lineBreak (by decide) (hdigits (p := Text.isDigit) (c :: cs))
    dsimp only
    split
    · next d after heq =>
      split
      · next hd =>
        have hfs := not_mem_lineBreak (by decide) (hdigits (p := Text.isDigit) (d :: after))
        refine ⟨(c :: cs).takeWhile Text.isDigit ++ '.' :: (d :: after).takeWhile Text.isDigit,
          ?_, ?_, ?_, .fraction hne (hdigits _) ?_ (hdigits _)⟩
        · rw [List.append_assoc, List.cons_append, List.takeWhile_append_dropWhile, ← heq,
            List.takeWhile_append_dropWhile]
        · simp only [List.length_append, List.length_cons]
          omega
        · rw [List.mem_append, List.mem_cons]
          exact not_or.mpr ⟨hds, not_or.mpr ⟨by decide, hfs⟩⟩
        · rw [Bool.and_eq_true] at hd
          rw [List.takeWhile_cons_of_pos hd.2]
          exact List.cons_ne_nil _ _
      · exact ⟨_, List.takeWhile_append_dropWhile.symm, rfl, hds, .decimal hne (hdigits _)⟩
    · exact ⟨_, List.takeWhile_append_dropWhile.symm, rfl, hds, .decimal hne (hdigits _)⟩

theorem covers_name (hc : Text.startsName c = true) :
    ∃ chars, c :: cs = chars ++ (Lexeme.readName (c :: cs)).rest ∧
      (Lexeme.readName (c :: cs)).Covers chars := by
  have hcontinues : ∀ d ∈ cs.takeWhile Text.continuesName, Text.continuesName d = true :=
    fun _ => List.mem_takeWhile_imp
  have hname := List.takeWhile_cons_of_pos (l := cs) (Text.continuesName_of_startsName hc)
  refine ⟨_, List.takeWhile_append_dropWhile.symm, rfl, ?_, ?_⟩
  · exact not_mem_lineBreak (p := Text.continuesName) (by decide +kernel)
      fun _ => List.mem_takeWhile_imp
  · simp only [Lexeme.readName, hname]
    split
    · next k hk => exact .keyword hc hcontinues hk
    · next hk => exact .name hc hcontinues hk

/-- Of the symbols that stand at the front of a text, the longest is found. -/
theorem longest_of_atFront? {s u : Symbol} (h : Symbol.atFront? cs = some s)
    (hu : u.chars <+: cs) : u.chars.length ≤ s.chars.length := by
  have hsorted : Symbol.all.Pairwise fun s u => u.chars.length ≤ s.chars.length := by decide
  obtain ⟨-, longer, others, hall, hlonger⟩ := List.find?_eq_some_iff_append.mp h
  rw [hall, List.pairwise_append, List.pairwise_cons] at hsorted
  have hmem := Symbol.mem_all u
  rw [hall, List.mem_append, List.mem_cons] at hmem
  obtain hmem | rfl | hmem := hmem
  · have := hlonger u hmem
    rw [Bool.not_eq_true', List.isPrefixOf_iff_prefix.mpr hu] at this
    cases this
  · exact Nat.le_refl _
  · exact hsorted.2.1.1 u hmem

theorem Symbol.lineBreak_notMem (s : Symbol) : '\n' ∉ s.chars := by
  cases s <;> decide

theorem covers_of_read (h : Lexeme.read start fraction c cs = .ok l) :
    ∃ chars, c :: cs = chars ++ l.rest ∧ l.Covers chars := by
  unfold Lexeme.read at h
  split at h
  -- a string, then by its first character a number, a name or a symbol
  · next hquote =>
    obtain ⟨inside, text, hcs, htext, hkind, hl, hwidth⟩ := readString_eq_ok h
    refine ⟨'"' :: inside ++ ['"'], by rw [hquote, hcs]; simp, ?_, ?_, ?_⟩
    · rw [hwidth]; simp; omega
    · have := not_mem_of_unescapeAll htext
      simp [this]
    · rw [hkind, hl]
      exact .string htext
  · split at h
    · next hd => 
      cases h
      exact covers_number hd
    · split at h
      · next hn =>
        cases h
        exact covers_name hn
      · split at h
        · next s hs =>
          cases h
          obtain ⟨rest, hrest⟩ :=
            List.isPrefixOf_iff_prefix.mp (List.find?_eq_some_iff_append.mp hs).1
          have hdrop : s.chars ++ (c :: cs).drop s.chars.length = c :: cs := by
            rw [← hrest, List.drop_left]
          refine ⟨s.chars, hdrop.symm, rfl, s.lineBreak_notMem, .symbol fun u hu => ?_⟩
          rw [hdrop] at hu
          exact longest_of_atFront? hs hu
        · cases h

end Lexemes

/-! ### Pieces -/

/-- What a scan passes over, where some brackets are open and some characters come after. -/
inductive Gap (nesting : Nat) (after : List Char) : List Char → Prop
  /-- blanks; outside brackets they have no tab and make up no level of indentation -/
  | blanks {cs : List Char} : (∀ c ∈ cs, c = ' ' ∨ c = '\t' ∨ c = '\r') →
      (nesting = 0 → '\t' ∉ cs ∧ cs.count ' ' < Scanner.indentWidth) → Gap nesting after cs
  /-- a comment, up to the end of its line -/
  | comment {cs : List Char} : '\n' ∉ cs → (∀ c ∈ after.head?, c = '\n') →
      Gap nesting after ('/' :: '/' :: cs)
  /-- a line break inside brackets -/
  | lineBreak : 0 < nesting → Gap nesting after ['\n']

/-- A stretch of a text, with the token that it was read as unless it was passed over. -/
structure Piece where
  chars : List Char
  token? : Option Token

namespace Piece

/-- The characters of pieces that lie end to end. -/
def text (pieces : List Piece) : List Char :=
  pieces.flatMap chars

/-- The tokens that pieces were read as. -/
def tokens (pieces : List Piece) : List Token :=
  pieces.filterMap token?

/-- The number of brackets that are open behind some pieces. -/
def nesting (pieces : List Piece) : Nat :=
  (tokens pieces).foldl (fun n t => Scanner.nestingAfter n t.kind) 0

/-- The piece is what a scan makes of its characters between the pieces before it and the text
after it. -/
def Fits (moduleName : String) (before : List Piece) (p : Piece) (after : List Char) : Prop :=
  match p.token? with
  | some t => t.position = .behind (text before) ∧ t.moduleName = moduleName ∧
      Spelled after p.chars t.kind t.lexeme
  | none => Gap (nesting before) after p.chars

variable {pieces before : List Piece} {p : Piece}

theorem text_concat (pieces : List Piece) (p : Piece) : text (pieces ++ [p]) = text pieces ++ p.chars := by
  simp [text]

theorem tokens_concat (pieces : List Piece) (p : Piece) :
    tokens (pieces ++ [p]) = tokens pieces ++ p.token?.toList := by
  cases h : p.token? <;> simp [tokens, h]

theorem nesting_concat (pieces : List Piece) (p : Piece) :
    nesting (pieces ++ [p]) =
      p.token?.toList.foldl (fun n t => Scanner.nestingAfter n t.kind) (nesting pieces) := by
  rw [nesting, tokens_concat, List.foldl_append]
  rfl

end Piece

theorem Spelled.ne_nil {after chars : List Char} {kind : TokenKind} {text : String}
    (h : Spelled after chars kind text) : chars ≠ [] := by
  cases h with
  | decimal hds => exact hds
  | symbol => exact List.ne_nil_of_length_pos (Lexeme.Symbol.length_chars_pos _)
  | spaces hhead =>
    rintro rfl
    cases hhead
  | _ => simp

/-- Only what was scanned is spelled, so no end of a statement or of the file is. -/
theorem Spelled.kind_ne {after chars : List Char} {kind : TokenKind} {text : String}
    (h : Spelled after chars kind text) : kind ≠ .endOfFile ∧ kind ≠ .statementTerminator := by
  cases h <;> simp

/-! ### The scan -/

namespace Scanner

theorem with_pushLayout (s : Scanner) (kind : TokenKind) (text : String) (at_ position : Position)
    (rest : List Char) :
    { s.pushLayout kind text at_ with position, rest } =
      pushLayout { s with position, rest } kind text at_ := by
  unfold pushLayout push
  split <;> rfl

theorem position_pushLayout (s : Scanner) (kind : TokenKind) (text : String) (at_ : Position) :
    (s.pushLayout kind text at_).position = s.position := by
  unfold pushLayout push
  split <;> rfl

theorem moduleName_pushLayout (s : Scanner) (kind : TokenKind) (text : String) (at_ : Position) :
    (s.pushLayout kind text at_).moduleName = s.moduleName := by
  unfold pushLayout push
  split <;> rfl

theorem moduleName_skipBlanks (s : Scanner) (run : Nat) (runStart : Position) (cs : List Char) :
    (s.skipBlanks run runStart cs).moduleName = s.moduleName := by
  fun_induction skipBlanks s run runStart cs with
  | case1 => rename_i ih; rw [ih, moduleName_pushLayout]
  | case2 => rename_i ih; exact ih
  | case3 => rename_i ih; rw [ih, moduleName_pushLayout]
  | case4 => rename_i ih; exact ih
  | case5 => rfl

end Scanner

/-- The pieces that a scanner has read so far. -/
structure Scanner.Accounts (source : List Char) (s : Scanner) (pieces : List Piece) : Prop where
  text : Piece.text pieces ++ s.rest = source
  tokens : Piece.tokens pieces = s.tokens.toList
  position : s.position = .behind (Piece.text pieces)
  nesting : Piece.nesting pieces = s.nesting
  fits : ∀ before p after, pieces = before ++ p :: after →
    p.Fits s.moduleName before (Piece.text after ++ s.rest)
  sorted : s.tokens.toList.Pairwise fun t u => t.position.before u.position
  earlier : ∀ t ∈ s.tokens.toList, t.position.before s.position

namespace Scanner.Accounts

variable {source cs pending : List Char} {s s' : Scanner} {pieces : List Piece} {p : Piece}

/-- A piece is read. -/
theorem read (h : s.Accounts source pieces) (hrest : s.rest = p.chars ++ s'.rest)
    (hfits : p.Fits s.moduleName pieces s'.rest) (hname : s'.moduleName = s.moduleName)
    (htokens : s'.tokens.toList = s.tokens.toList ++ p.token?.toList)
    (hposition : s'.position = .behind (Piece.text pieces ++ p.chars))
    (hnesting : s'.nesting =
      p.token?.toList.foldl (fun n t => Scanner.nestingAfter n t.kind) s.nesting) :
    s'.Accounts source (pieces ++ [p]) := by
  -- the token of the piece stands where the scan stood, the others before
  have hnew : ∀ t ∈ p.token?, t.position = s.position ∧ t.position.before s'.position := by
    intro t ht
    rw [Option.mem_def] at ht
    rw [Piece.Fits, ht] at hfits
    obtain ⟨hat, -, hspelled⟩ := hfits
    exact ⟨hat.trans h.position.symm, by rw [hat, hposition]; exact Position.behind_before hspelled.ne_nil⟩
  have holder : ∀ t ∈ s.tokens.toList, t.position.before s'.position := by
    intro t ht
    by_cases hchars : p.chars = []
    · rw [hposition, hchars, List.append_nil, ← h.position]
      exact h.earlier t ht
    · rw [hposition]
      exact Position.before_trans (h.position ▸ h.earlier t ht) (Position.behind_before hchars)
  refine ⟨?_, ?_, ?_, ?_, ?_, ?_, ?_⟩
  · rw [Piece.text_concat, List.append_assoc, ← hrest, h.text]
  · rw [Piece.tokens_concat, h.tokens, htokens]
  · rw [hposition, Piece.text_concat]
  · rw [Piece.nesting_concat, h.nesting, hnesting]
  · intro before q after heq
    -- the piece in question is the new one, or one of the old with the new one behind
    obtain rfl | ⟨others, last, rfl⟩ := List.eq_nil_or_concat' after
    · obtain ⟨rfl, hq⟩ := List.append_inj' heq rfl
      cases hq
      rw [hname]
      exact hfits
    · rw [← List.cons_append, ← List.append_assoc] at heq
      obtain ⟨hpieces, hlast⟩ := List.append_inj' heq rfl
      cases hlast
      rw [hname, Piece.text_concat, List.append_assoc, ← hrest]
      exact h.fits before q others hpieces
  · rw [htokens, List.pairwise_append]
    refine ⟨h.sorted, ?_, fun t ht u hu => ?_⟩
    · cases p.token? <;> simp
    · rw [(hnew u (Option.mem_toList.mp hu)).1]
      exact h.earlier t ht
  · intro t ht
    rw [htokens, List.mem_append] at ht
    obtain ht | ht := ht
    · exact holder t ht
    · exact (hnew t (Option.mem_toList.mp ht)).2

/-- A token within a line is read. -/
theorem token {chars rest : List Char} {kind : TokenKind} {text : String}
    (h : s.Accounts source pieces) (hrest : s.rest = chars ++ rest) (hline : '\n' ∉ chars)
    (hspelled : Spelled rest chars kind text) :
    Accounts source
      { s with
        tokens := s.tokens.push ⟨kind, text, s.position, s.moduleName⟩
        position := s.position.right chars.length
        nesting := nestingAfter s.nesting kind
        rest }
      (pieces ++ [⟨chars, some ⟨kind, text, s.position, s.moduleName⟩⟩]) := by
  refine h.read hrest ⟨h.position, rfl, hspelled⟩ rfl (Array.toList_push ..) ?_ rfl
  rw [Position.behind_append hline, ← h.position]

/-- Characters of a line are passed over. -/
theorem pass {chars rest : List Char} (h : s.Accounts source pieces) (hrest : s.rest = chars ++ rest)
    (hline : '\n' ∉ chars) (hgap : Gap s.nesting rest chars) :
    Accounts source { s with position := s.position.right chars.length, rest }
      (pieces ++ [⟨chars, none⟩]) := by
  refine h.read hrest (h.nesting ▸ hgap) rfl (List.append_nil _).symm ?_ rfl
  rw [Position.behind_append hline, ← h.position]

/-- A line break is read as a token, or passed over inside brackets. -/
theorem lineBreak {rest : List Char} (h : s.Accounts source pieces) (hrest : s.rest = '\n' :: rest) :
    ∃ pieces, Accounts source
      (pushLayout { s with position := s.position.next '\n', rest } .newLine "\n" s.position)
      pieces := by
  have hposition : s.position.next '\n' = .behind (Piece.text pieces ++ ['\n']) := by
    rw [h.position, Position.behind_concat]
  unfold pushLayout push
  split
  · exact ⟨_, h.read (p := ⟨['\n'], some ⟨.newLine, "\n", s.position, s.moduleName⟩⟩) hrest
      ⟨h.position, rfl, .lineBreak⟩ rfl (Array.toList_push ..) hposition rfl⟩
  · next hnesting =>
    exact ⟨_, h.read (p := ⟨['\n'], none⟩) hrest
      (.lineBreak (h.nesting ▸ Nat.pos_of_ne_zero hnesting)) rfl (List.append_nil _).symm hposition rfl⟩

/-- A level of indentation is read as a token, or passed over inside brackets. -/
theorem indent {rest : List Char} {text : String} (h : s.Accounts source pieces) (chars : List Char)
    (hrest : s.rest = chars ++ rest) (hspelled : Spelled rest chars .indent text)
    (hblank : ∀ c ∈ chars, c = ' ' ∨ c = '\t' ∨ c = '\r') :
    ∃ pieces, Accounts source
      (pushLayout { s with position := s.position.right chars.length, rest } .indent text s.position)
      pieces := by
  have hline : '\n' ∉ chars := by
    intro hmem
    obtain hc | hc | hc := hblank _ hmem <;> cases hc
  unfold pushLayout push
  split
  · exact ⟨_, h.token hrest hline hspelled⟩
  · next hnesting => exact ⟨_, h.pass hrest hline (.blanks hblank fun hzero => absurd hzero hnesting)⟩

/-- Blanks that are not an indent yet: `run` spaces, the first of them at `runStart`, and carriage
returns, all of them behind `start`. -/
structure Pending (s : Scanner) (run : Nat) (runStart : Position) (pending : List Char)
    (start : Position) : Prop where
  blank : ∀ c ∈ pending, c = ' ' ∨ c = '\r'
  count : pending.count ' ' = run
  short : run < indentWidth
  position : s.position = start.right pending.length
  first : 0 < run → runStart = start ∧ pending.head? = some ' '

namespace Pending

variable {run : Nat} {runStart start : Position}

theorem nil (s : Scanner) (runStart : Position) : Pending s 0 runStart [] s.position :=
  ⟨fun _ h => (nomatch h), rfl, by decide, rfl, fun h => absurd h (Nat.lt_irrefl 0)⟩

theorem oneLine (h : Pending s run runStart pending start) : '\n' ∉ pending := by
  intro hmem
  obtain hc | hc := h.blank _ hmem <;> cases hc

theorem gap (h : Pending s run runStart pending start) (nesting : Nat) : Gap nesting cs pending := by
  refine .blanks (fun c hc => ?_) fun _ => ⟨fun hmem => ?_, h.count ▸ h.short⟩
  · obtain hc | hc := h.blank c hc
    · exact .inl hc
    · exact .inr (.inr hc)
  · obtain hc | hc := h.blank _ hmem <;> cases hc

/-- With one more space the run is an indent. -/
theorem spelled (h : Pending s run runStart pending start) (hfull : run + 1 = indentWidth) :
    Spelled cs (pending ++ [' ']) .indent "    " := by
  have hspaces : pending.filter (· ≠ '\r') = List.replicate run ' ' := by
    rw [← h.count, ← List.filter_beq]
    refine List.filter_congr fun c hc => ?_
    obtain rfl | rfl := h.blank c hc <;> decide
  have hrun : 0 < run := by
    have : indentWidth = 4 := rfl
    omega
  refine .spaces ?_ ?_
  · rw [List.head?_append, (h.first hrun).2]
    rfl
  · rw [List.filter_append, hspaces, ← hfull, List.replicate_succ']
    rfl

theorem position_right (h : Pending s run runStart pending start) (c : Char) :
    s.position.right 1 = start.right (pending ++ [c]).length := by
  rw [h.position, Position.right_right, List.length_append]
  rfl

/-- A run begins. -/
theorem space_first (s : Scanner) :
    Pending { s with position := s.position.right 1 } 1 s.position [' '] s.position :=
  ⟨fun _ hc => .inl (List.mem_singleton.mp hc), rfl, by decide, rfl, fun _ => ⟨rfl, rfl⟩⟩

/-- A run goes on. -/
theorem space (h : Pending s run runStart pending start) (hrun : 0 < run)
    (hshort : run + 1 < indentWidth) :
    Pending { s with position := s.position.right 1 } (run + 1) runStart (pending ++ [' ']) start := by
  obtain ⟨hfirst, hhead⟩ := h.first hrun
  refine ⟨fun c hc => ?_, ?_, hshort, h.position_right ' ', fun _ => ⟨hfirst, ?_⟩⟩
  · obtain hc | hc := List.mem_append.mp hc
    · exact h.blank c hc
    · exact .inl (List.mem_singleton.mp hc)
  · rw [List.count_append, h.count]
    rfl
  · rw [List.head?_append, hhead]
    rfl

/-- A carriage return does not end a run. -/
theorem carriageReturn (h : Pending s run runStart pending start) :
    Pending { s with position := s.position.right 1 } run runStart (pending ++ ['\r']) start := by
  refine ⟨fun c hc => ?_, ?_, h.short, h.position_right '\r', fun hrun => ⟨(h.first hrun).1, ?_⟩⟩
  · obtain hc | hc := List.mem_append.mp hc
    · exact h.blank c hc
    · exact .inr (List.mem_singleton.mp hc)
  · rw [List.count_append, h.count]
    rfl
  · rw [List.head?_append, (h.first hrun).2]
    rfl

/-- Blanks that are no indent are passed over. -/
theorem flush (hpending : Pending s run runStart pending start)
    (h : Accounts source { s with position := start, rest := pending ++ cs } pieces) :
    ∃ pieces, Accounts source { s with rest := cs } pieces := by
  have hpass := h.pass rfl hpending.oneLine (hpending.gap _)
  rw [← hpending.position] at hpass
  exact ⟨_, hpass⟩

end Pending

/-- A comment is passed over. -/
theorem comment {rest : List Char} (h : s.Accounts source pieces) (hrest : s.rest = '/' :: '/' :: rest) :
    ∃ pieces, s.skipComment.Accounts source pieces := by
  have htake : s.rest.takeWhile (· ≠ '\n') = '/' :: '/' :: rest.takeWhile (· ≠ '\n') := by
    rw [hrest, List.takeWhile_cons_of_pos (by decide), List.takeWhile_cons_of_pos (by decide)]
  refine ⟨_, h.pass List.takeWhile_append_dropWhile.symm ?_ ?_⟩
  · intro hmem
    simpa using List.mem_takeWhile_imp hmem
  · rw [htake]
    refine .comment (fun hmem => ?_) fun c hc => ?_
    · simpa using List.mem_takeWhile_imp hmem
    · have := List.head?_dropWhile_not (fun c => decide (c ≠ '\n')) s.rest
      rw [Option.mem_def.mp hc] at this
      simpa using this

theorem accounts_skipBlanks {run : Nat} {runStart start : Position}
    (h : Accounts source { s with position := start, rest := pending ++ cs } pieces)
    (hpending : Pending s run runStart pending start) :
    ∃ pieces, (s.skipBlanks run runStart cs).Accounts source pieces := by
  fun_induction skipBlanks s run runStart cs generalizing pending start pieces with
  | case1 s run runStart cs first next =>
    rename_i hfull ih
    have hrun : 0 < run := by
      have : indentWidth = 4 := rfl
      omega
    have hfirst : first = start := (if_neg (Nat.ne_of_gt hrun)).trans (hpending.first hrun).1
    have hnext : next.position = _ := hpending.position_right ' '
    obtain ⟨pieces, hpieces⟩ := h.indent (pending ++ [' ']) (List.append_cons ..)
      (hpending.spelled hfull) fun c hc => by
        obtain hc | hc := List.mem_append.mp hc
        · exact (hpending.blank c hc).imp_right .inr
        · exact .inl (List.mem_singleton.mp hc)
    refine @ih [] pieces _ ?_ (Pending.nil _ _)
    rw [with_pushLayout, position_pushLayout, hnext, hfirst]
    exact hpieces
  | case2 s run runStart cs first next =>
    rename_i hmore ih
    by_cases hrun : run = 0
    · -- the first space of a run: what stands before it is no part of an indent
      obtain ⟨pieces, hflushed⟩ := hpending.flush h
      subst hrun
      exact @ih [' '] pieces _ hflushed (Pending.space_first s)
    · have hfirst : first = runStart := if_neg hrun
      refine @ih (pending ++ [' ']) pieces start ?_ (hfirst ▸ hpending.space (Nat.pos_of_ne_zero hrun)
        (Nat.lt_of_le_of_ne hpending.short hmore))
      rw [List.append_assoc]
      exact h
  | case3 s run runStart cs here =>
    rename_i ih
    obtain ⟨pieces, hflushed⟩ := hpending.flush h
    obtain ⟨pieces, hpieces⟩ := hflushed.indent ['\t'] rfl .tab (by simp)
    refine @ih [] pieces _ ?_ (Pending.nil _ _)
    rw [with_pushLayout, position_pushLayout]
    exact hpieces
  | case4 s run runStart cs ih =>
    refine @ih (pending ++ ['\r']) pieces start ?_ hpending.carriageReturn
    rw [List.append_assoc]
    exact h
  | case5 s run runStart cs => exact hpending.flush h

/-- What is left of a text falls into pieces as well, and nothing is left behind them. -/
theorem of_finish {found : Array Token} (h : s.Accounts source pieces) (hs : s.finish = .ok found) :
    ∃ (s' : Scanner) (pieces : List Piece), s'.Accounts source pieces ∧ s'.rest = [] ∧
      s'.moduleName = s.moduleName ∧ found = (s'.push .endOfFile "" s'.position).tokens := by
  -- every round begins with the blanks, none of which are pending
  have hblank : ∀ {s : Scanner} {pieces}, s.Accounts source pieces →
      ∃ pieces, (s.skipBlanks 0 s.position s.rest).Accounts source pieces :=
    fun {s _} h => accounts_skipBlanks
      (show Accounts source { s with position := s.position, rest := [] ++ s.rest } _ from h)
      (Pending.nil s s.position)
  fun_induction finish s generalizing pieces with
  | case1 s blankless =>
    rename_i hr
    obtain ⟨pieces, hpieces⟩ := hblank h
    cases hs
    exact ⟨blankless, pieces, hpieces, hr, moduleName_skipBlanks .., rfl⟩
  | case2 s blankless cs =>
    rename_i hr _ _ ih
    obtain ⟨pieces, hpieces⟩ := hblank h
    obtain ⟨pieces, hpieces⟩ := hpieces.lineBreak hr
    obtain ⟨s', pieces, hs', hend, hname, hfound⟩ := ih hpieces hs
    exact ⟨s', pieces, hs', hend,
      by rw [hname, moduleName_pushLayout, moduleName_skipBlanks], hfound⟩
  | case3 s blankless c cs hr =>
    rename_i hslash _ ih
    obtain ⟨rest, rfl⟩ := List.head?_eq_some_iff.mp hslash.2
    rw [hslash.1] at hr
    obtain ⟨pieces, hpieces⟩ := hblank h
    obtain ⟨pieces, hpieces⟩ := hpieces.comment hr
    obtain ⟨s', pieces, hs', hend, hname, hfound⟩ := ih hpieces hs
    exact ⟨s', pieces, hs', hend, hname.trans (moduleName_skipBlanks ..), hfound⟩
  | case4 => cases hs
  | case5 s blankless c cs hr =>
    rename_i l hl _ ih
    obtain ⟨chars, hchars, hcovers⟩ := covers_of_read hl
    obtain ⟨pieces, hpieces⟩ := hblank h
    have htoken := hpieces.token (hr.trans hchars) hcovers.oneLine hcovers.spelled
    rw [← hcovers.width] at htoken
    obtain ⟨s', pieces, hs', hend, hname, hfound⟩ := ih htoken hs
    exact ⟨s', pieces, hs', hend, hname.trans (moduleName_skipBlanks ..), hfound⟩

end Scanner.Accounts

/-- Before a text is read, nothing of it is. -/
theorem Scanner.accounts_start (moduleName source : String) :
    (Scanner.start moduleName source).Accounts source.toList [] :=
  ⟨rfl, rfl, rfl, rfl, fun _ _ _ h => absurd h.symm (List.append_ne_nil_of_right_ne_nil _
    (List.cons_ne_nil _ _)), .nil, fun _ h => (nomatch h)⟩

theorem Scanner.Accounts.fits_token {source : List Char} {s : Scanner} {pieces : List Piece} {t : Token}
    (h : s.Accounts source pieces) (ht : t ∈ Piece.tokens pieces) :
    t.moduleName = s.moduleName ∧ ∃ after chars, Spelled after chars t.kind t.lexeme := by
  obtain ⟨p, hp, hpt⟩ := List.mem_filterMap.mp ht
  obtain ⟨before, after, rfl⟩ := List.append_of_mem hp
  have hfits := h.fits before p after rfl
  rw [Piece.Fits, hpt] at hfits
  obtain ⟨-, hname, hspelled⟩ := hfits
  exact ⟨hname, _, _, hspelled⟩

theorem Scanner.Accounts.kind_ne {source : List Char} {s : Scanner} {pieces : List Piece} {t : Token}
    (h : s.Accounts source pieces) (ht : t ∈ Piece.tokens pieces) :
    t.kind ≠ .endOfFile ∧ t.kind ≠ .statementTerminator := by
  obtain ⟨-, after, chars, hspelled⟩ := h.fits_token ht
  exact hspelled.kind_ne

/-- A scan that succeeds has read all of its text. -/
theorem Scanner.exists_of_scan {moduleName source : String} {found : Array Token}
    (h : scan moduleName source = .ok found) : ∃ (s : Scanner) (pieces : List Piece),
      s.Accounts source.toList pieces ∧ s.rest = [] ∧ s.moduleName = moduleName ∧
      found.toList = Piece.tokens pieces ++ [⟨.endOfFile, "", s.position, moduleName⟩] := by
  obtain ⟨s, pieces, hs, hend, hname, rfl⟩ := (accounts_start moduleName source).of_finish h
  have hname : s.moduleName = moduleName := hname
  refine ⟨s, pieces, hs, hend, hname, ?_⟩
  rw [hs.tokens, ← hname]
  exact Array.toList_push

/-- The pieces of a text that is scanned. -/
theorem pieces_of_scan {moduleName source : String} {found : Array Token}
    (h : scan moduleName source = .ok found) : ∃ pieces : List Piece,
      Piece.text pieces = source.toList ∧
      found.toList = Piece.tokens pieces ++
        [⟨.endOfFile, "", .behind source.toList, moduleName⟩] ∧
      (∀ before p after, pieces = before ++ p :: after →
        p.Fits moduleName before (Piece.text after)) ∧
      (∀ t ∈ Piece.tokens pieces, t.kind ≠ .endOfFile) ∧
      found.toList.Pairwise fun t u => t.position.before u.position := by
  obtain ⟨s, pieces, hs, hend, hname, htokens⟩ := Scanner.exists_of_scan h
  have htext : Piece.text pieces = source.toList := by
    rw [← hs.text, hend, List.append_nil]
  refine ⟨pieces, htext, ?_, fun before p after heq => ?_, fun t ht => (hs.kind_ne ht).1, ?_⟩
  · rw [htokens, hs.position, htext]
  · have hfits := hs.fits before p after heq
    rw [hname, hend, List.append_nil] at hfits
    exact hfits
  · rw [htokens, List.pairwise_append, hs.tokens]
    refine ⟨hs.sorted, List.pairwise_singleton _ _, fun t ht u hu => ?_⟩
    rw [List.mem_singleton.mp hu]
    exact hs.earlier t ht

/-- A name of two characters, a comment, a tab, a number behind a dot, a symbol that begins with
another one, a hexadecimal number and a text with escapes. -/
def annotatedAssignment : String :=
  "if up then // set\n\tx.0 += 0XfF\r\n\ty = \"\\t\\\"a\\\\n\"\n"

theorem pieces_of_annotatedAssignment : ∃ (found : Array Token) (pieces : List Piece),
    scan "main" annotatedAssignment = .ok found ∧
    found.toList.map Token.lexeme =
      ["if", "up", "then", "\n", "\t", "x", ".", "0", "+=", "0xfF", "\n", "\t", "y", "=",
        "\t\"a\\n", "\n", ""] ∧
    Piece.text pieces = annotatedAssignment.toList ∧
    found.toList = Piece.tokens pieces ++ [⟨.endOfFile, "", ⟨4, 1⟩, "main"⟩] := by
  have hscan : ((scan "main" annotatedAssignment).toOption.any fun found =>
      decide (found.toList.map Token.lexeme =
        ["if", "up", "then", "\n", "\t", "x", ".", "0", "+=", "0xfF", "\n", "\t", "y", "=",
        "\t\"a\\n", "\n", ""])) = true := by
    decide +kernel
  cases h : scan "main" annotatedAssignment with
  | error e => rw [h] at hscan; cases hscan
  | ok found =>
    rw [h] at hscan
    obtain ⟨pieces, htext, hfound, -⟩ := pieces_of_scan h
    exact ⟨found, pieces, rfl, of_decide_eq_true hscan, htext, hfound⟩

end WordScript
