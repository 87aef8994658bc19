/-
The raw scan of a source text.

The scanner holds the rest of the text, the position it has reached and the
number of open brackets.  At each round it passes over blanks, then reads one
newline, one comment or one lexeme; what it has not read yet gets shorter every
time, which is why the scan ends.

Blanks become indents: every full run of four spaces is one, and so is a tab.
Inside brackets neither indents nor newlines are recorded.

* `Lexeme.read` — the lexeme at the front of a text, or why there is none;
* `Lexeme.length_rest` — a lexeme is never empty;
* `scan` — the tokens of a text, the end of the file last.
-/
import WordScript.Source.Caret
import WordScript.Text.Alphabetic

namespace WordScript

/-- Why a text has no tokens. -/
inductive ScanFault where
  | unterminatedString
  | unknownEscape (c : Char)
  | endInEscape
  | unexpectedCharacter (c : Char)
deriving Repr, DecidableEq

namespace ScanFault

/-- The wording of a fault. -/
def message : ScanFault → String
  | unterminatedString => "unterminated string literal"
  | unknownEscape c => "unknown escape sequence: \\" ++ c.toString
  | endInEscape => "unexpected end of file in escape sequence"
  | unexpectedCharacter c => "unexpected character: '" ++ c.toString ++ "'"

end ScanFault

/-- A fault and where it was met. -/
structure ScanError where
  fault : ScanFault
  position : Position
deriving Repr, DecidableEq

namespace ScanError

/-- The wording of an error, with its place. -/
def message (e : ScanError) : String :=
  toString e.position.line ++ ":" ++ toString e.position.col ++ ": " ++ e.fault.message

/-- The error with the line it is about. -/
def render (e : ScanError) (source : String) : String :=
  Source.caret source e.position e.fault.message

end ScanError

/-- Something read off the front of a text: what it is, how many characters it covers, and the
text after it. -/
structure Lexeme where
  kind : TokenKind
  text : String
  width : Nat
  rest : List Char

namespace Lexeme

/-- The character that an escape stands for. -/
def unescape : Char → Option Char
  | 'n' => some '\n'
  | 't' => some '\t'
  | 'r' => some '\r'
  | '\\' => some '\\'
  | '"' => some '"'
  | _ => none

/-- Reads the inside of a string literal that began at `start`; `width` characters of it, the
opening quote included, have been read, and `done` holds its text, newest character first. -/
def readString (start : Position) (width : Nat) (done : List Char) :
    List Char → Except ScanError Lexeme
  | [] => .error ⟨.unterminatedString, start⟩
  | '"' :: cs => .ok ⟨.string, String.ofList done.reverse, width + 1, cs⟩
  | '\n' :: _ => .error ⟨.unterminatedString, start⟩
  | ['\\'] => .error ⟨.endInEscape, start.right (width + 1)⟩
  | '\\' :: c :: cs =>
    match unescape c with
    | some e => readString start (width + 2) (e :: done) cs
    | none => .error ⟨.unknownEscape c, start.right (width + 1)⟩
  | c :: cs => readString start (width + 1) (c :: done) cs

/-- Reads a number.  A hexadecimal number may have no digits; a fraction is read where one is
allowed and a digit follows the point. -/
def readNumber (fraction : Bool) (cs : List Char) : Lexeme :=
  match cs with
  | '0' :: 'x' :: cs | '0' :: 'X' :: cs =>
    let ds := cs.takeWhile Text.isHexDigit
    ⟨.integer, String.ofList ('0' :: 'x' :: ds), ds.length + 2, cs.dropWhile Text.isHexDigit⟩
  | cs =>
    let ds := cs.takeWhile Text.isDigit
    let rest := cs.dropWhile Text.isDigit
    match rest with
    | '.' :: d :: after =>
      if fraction && Text.isDigit d then
        let fs := (d :: after).takeWhile Text.isDigit
        ⟨.float, String.ofList (ds ++ '.' :: fs), ds.length + 1 + fs.length,
          (d :: after).dropWhile Text.isDigit⟩
      else ⟨.integer, String.ofList ds, ds.length, rest⟩
    | _ => ⟨.integer, String.ofList ds, ds.length, rest⟩

/-- Reads a name, which may be a reserved word. -/
def readName (cs : List Char) : Lexeme :=
  let name := cs.takeWhile Text.continuesName
  let text := String.ofList name
  let kind :=
    match Keyword.ofText? text with
    | some k => .keyword k
    | none => .identifier
  ⟨kind, text, name.length, cs.dropWhile Text.continuesName⟩

/-- Reads the lexeme that begins with `c`, where `cs` is the text after it. -/
def read (start : Position) (fraction : Bool) (c : Char) (cs : List Char) :
    Except ScanError Lexeme :=
  if c = '"' then readString start 1 [] cs
  else if Text.isDigit c then .ok (readNumber fraction (c :: cs))
  else if Text.startsName c then .ok (readName (c :: cs))
  else
    match Symbol.atFront? (c :: cs) with
    | some s => .ok ⟨.symbol s, s.text, s.chars.length, (c :: cs).drop s.chars.length⟩
    | none => .error ⟨.unexpectedCharacter c, start⟩

theorem length_dropWhile_le (p : Char → Bool) (cs : List Char) :
    (cs.dropWhile p).length ≤ cs.length :=
  (List.dropWhile_sublist p).length_le

theorem length_readString {start : Position} {width : Nat} {done cs : List Char} {l : Lexeme}
    (h : readString start width done cs = .ok l) : l.rest.length < cs.length := by
  fun_induction readString start width done cs with
  | case1 | case3 | case4 | case6 => simp at h
  | case2 => simp only [Except.ok.injEq] at h; subst h; simp
  | case5 => next ih => have := ih h; simp only [List.length_cons]; omega
  | case7 => next ih => have := ih h; simp only [List.length_cons]; omega

theorem length_readNumber {fraction : Bool} {c : Char} {cs : List Char}
    (h : Text.isDigit c = true) : (readNumber fraction (c :: cs)).rest.length ≤ cs.length := by
  have hd : (List.dropWhile Text.isDigit (c :: cs)).length ≤ cs.length := by
    rw [List.dropWhile_cons_of_pos h]; exact length_dropWhile_le _ _
  unfold readNumber
  split
  · rename_i heq
    simp only [List.cons.injEq] at heq
    rw [heq.2]
    exact Nat.le_trans (length_dropWhile_le _ _) (by simp)
  · rename_i heq
    simp only [List.cons.injEq] at heq
    rw [heq.2]
    exact Nat.le_trans (length_dropWhile_le _ _) (by simp)
  · dsimp only
    split
    · rename_i d after heq
      rw [heq] at hd
      split
      · exact Nat.le_trans (length_dropWhile_le _ _) (by simp at hd ⊢; omega)
      · rw [heq]; exact hd
    · exact hd

theorem length_readName {c : Char} {cs : List Char} (h : Text.startsName c = true) :
    (readName (c :: cs)).rest.length ≤ cs.length := by
  simp only [readName]
  rw [List.dropWhile_cons_of_pos (Text.continuesName_of_startsName h)]
  exact length_dropWhile_le _ _

theorem Symbol.length_chars_pos (s : Symbol) : 0 < s.chars.length := by
  cases s <;> decide

/-- A lexeme covers at least one character. -/
theorem length_rest {start : Position} {fraction : Bool} {c : Char} {cs : List Char} {l : Lexeme}
    (h : read start fraction c cs = .ok l) : l.rest.length ≤ cs.length := by
  unfold read at h
  split at h
  · exact Nat.le_of_lt (length_readString h)
  · split at h
    · next hd =>
      rw [← Except.ok.inj h]
      exact length_readNumber hd
    · split at h
      · next hn =>
        rw [← Except.ok.inj h]
        exact length_readName hn
      · split at h
        · next s _ =>
          rw [← Except.ok.inj h]
          have := Symbol.length_chars_pos s
          simp only [List.length_drop, List.length_cons]
          omega
        · simp at h

end Lexeme

/-- The state of the scan: the tokens so far, the position reached, the number of open brackets
and the text still to read. -/
structure Scanner where
  moduleName : String
  tokens : Array Token
  position : Position
  nesting : Nat
  rest : List Char

namespace Scanner

/-- The scanner at the beginning of a text. -/
def start (moduleName source : String) : Scanner :=
  ⟨moduleName, #[], ⟨1, 1⟩, 0, source.toList⟩

/-- Records a token. -/
def push (s : Scanner) (kind : TokenKind) (text : String) (at_ : Position) : Scanner :=
  { s with tokens := s.tokens.push ⟨kind, text, at_, s.moduleName⟩ }

/-- Records a token of layout, which brackets suppress. -/
def pushLayout (s : Scanner) (kind : TokenKind) (text : String) (at_ : Position) : Scanner :=
  if s.nesting = 0 then s.push kind text at_ else s

/-- The spaces that make up one level of indentation. -/
def indentWidth : Nat := 4

/-- Passes over blanks.  `run` spaces have been seen since the last indent, the first of them at
`runStart`; a carriage return does not end a run. -/
def skipBlanks (s : Scanner) (run : Nat) (runStart : Position) : List Char → Scanner
  | ' ' :: cs =>
    let runStart := if run = 0 then s.position else runStart
    let next := { s with position := s.position.right 1 }
    if run + 1 = indentWidth then
      skipBlanks (next.pushLayout .indent "    " runStart) 0 runStart cs
    else skipBlanks next (run + 1) runStart cs
  | '\t' :: cs =>
    let here := s.position
    let next := { s with position := here.right 1 }
    skipBlanks (next.pushLayout .indent "\t" here) 0 runStart cs
  | '\r' :: cs => skipBlanks { s with position := s.position.right 1 } run runStart cs
  | cs => { s with rest := cs }

/-- Passes over a comment, up to the end of its line. -/
def skipComment (s : Scanner) : Scanner :=
  let passed := s.rest.takeWhile (· ≠ '\n')
  { s with position := s.position.right passed.length, rest := s.rest.dropWhile (· ≠ '\n') }

/-- Whether a number at this place may have a fraction: not directly after a dot. -/
def allowsFraction (s : Scanner) : Bool :=
  match s.tokens.back? with
  | some t => t.kind != .symbol .dot
  | none => true

/-- The number of open brackets after a lexeme. -/
def nestingAfter (nesting : Nat) : TokenKind → Nat
  | .symbol s => if s.opens then nesting + 1 else if s.closes then nesting - 1 else nesting
  | _ => nesting

/-- Records a lexeme and moves past it. -/
def take (s : Scanner) (l : Lexeme) : Scanner :=
  { s with
    tokens := s.tokens.push ⟨l.kind, l.text, s.position, s.moduleName⟩
    position := s.position.right l.width
    nesting := nestingAfter s.nesting l.kind
    rest := l.rest }

@[simp] theorem rest_pushLayout (s : Scanner) (kind : TokenKind) (text : String)
    (at_ : Position) : (s.pushLayout kind text at_).rest = s.rest := by
  unfold pushLayout push; split <;> rfl

theorem rest_skipBlanks (s : Scanner) (run : Nat) (runStart : Position) (cs : List Char) :
    (s.skipBlanks run runStart cs).rest.length ≤ cs.length := by
  fun_induction skipBlanks s run runStart cs with
  | case1 _ _ _ _ _ _ _ ih => simp only [List.length_cons]; omega
  | case2 _ _ _ _ _ _ _ ih => simp only [List.length_cons]; omega
  | case3 _ _ _ _ _ ih => simp only [List.length_cons]; omega
  | case4 _ _ _ _ ih => simp only [List.length_cons]; omega
  | case5 => simp

/-- Reads everything that is left. -/
def finish (s : Scanner) : Except ScanError (Array Token) :=
  let blankless := s.skipBlanks 0 s.position s.rest
  match hr : blankless.rest with
  | [] => .ok (blankless.push .endOfFile "" blankless.position).tokens
  | c :: cs =>
    have shorter : cs.length < s.rest.length := by
      have := rest_skipBlanks s 0 s.position s.rest
      rw [hr, List.length_cons] at this
      omega
    if hn : c = '\n' then
      let here := blankless.position
      let next := { blankless with position := here.next c, rest := cs }
      finish (next.pushLayout .newLine "\n" here)
    else if c = '/' ∧ cs.head? = some '/' then
      have : blankless.skipComment.rest.length < s.rest.length := by
        have := Lexeme.length_dropWhile_le (· ≠ '\n') cs
        simp only [skipComment, hr]
        rw [List.dropWhile_cons_of_pos (by simpa using hn)]
        omega
      finish blankless.skipComment
    else
      match hl : Lexeme.read blankless.position blankless.allowsFraction c cs with
      | .error e => .error e
      | .ok l =>
        have : (blankless.take l).rest.length < s.rest.length := by
          have := Lexeme.length_rest hl
          simp only [take]
          omega
        finish (blankless.take l)
termination_by s.rest.length

end Scanner

/-- The tokens of a text, layout included. -/
def scan (moduleName source : String) : Except ScanError (Array Token) :=
  (Scanner.start moduleName source).finish

end WordScript
