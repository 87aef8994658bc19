/-
Layout of the token sequence.

A raw scan is cut into lines, each ended by a newline or by the end of the file.
Then three passes are made.  The first takes off the indentation that all lines with
content share.  The second leaves out the other lines and makes the end of a line a
statement terminator.  The third drops the indents that do not lead their line.  What
remains is all that a reader of statements needs: the depth of each line, its tokens,
and where it ends.

* `Layout.splitLines` — the lines of a raw scan;
* `Layout.outdent`, `Layout.terminate`, `Layout.dropInner` — the three passes;
* `cleanFormatting`, `tokenize` — the cleaned sequence of a scan and of a text;
* `tokenize_of_toList` — the tokens of a text by its characters.
-/
import WordScript.Token.Scan

namespace WordScript

namespace Layout

/-- A token that ends a line. -/
def ends (t : Token) : Bool :=
  t.kind == .newLine || t.kind == .endOfFile

/-- The lines of a raw scan with the tokens that end them, which the last one may lack; `line` holds the
tokens of the current line, newest first, and `done` the lines before it, newest first. -/
def splitFrom (done : List (List Token)) (line : List Token) : List Token → List (List Token)
  | [] => (if line.isEmpty then done else line.reverse :: done).reverse
  | t :: ts =>
    if ends t then splitFrom ((t :: line).reverse :: done) [] ts
    else splitFrom done (t :: line) ts

/-- The lines of a raw scan. -/
def splitLines (tokens : List Token) : List (List Token) :=
  splitFrom [] [] tokens

/-- Whether the line holds a token that carries meaning. -/
def hasContent (line : List Token) : Bool :=
  line.any fun t => !t.isFormatting

/-- Whether a token is an indent. -/
def isIndent (t : Token) : Bool :=
  t.kind == .indent

/-- The number of indents that lead the line. -/
def leadingIndents (line : List Token) : Nat :=
  (line.takeWhile isIndent).length

/-- The lines without the indentation that those with content share. -/
def outdent (lines : List (List Token)) : List (List Token) :=
  let base := ((lines.filter hasContent).map leadingIndents).min?.getD 0
  lines.map fun line => if hasContent line then line.drop base else line

/-- The line with a statement terminator at its end.  A newline turns into it; where there is none, the
terminator stands at the end of the file. -/
def terminateLine (eof : Option Token) (line : List Token) : List Token :=
  match line.getLast? with
  | none => line
  | some last =>
    if last.kind = .newLine then line.dropLast ++ [{ last with kind := .statementTerminator }]
    else
      let at_ := (eof.map Token.position).getD last.position
      line ++ [⟨.statementTerminator, "", at_, last.moduleName⟩]

/-- Puts the next line behind those that are terminated.  The end of the file is kept apart. -/
def addLine (out : Array Token × Option Token) (line : List Token) : Array Token × Option Token :=
  let (line, eof) := match line.getLast? with
    | some last => if last.kind = .endOfFile then (line.dropLast, some last) else (line, out.2)
    | none => (line, out.2)
  (if hasContent line then out.1 ++ terminateLine eof line else out.1, eof)

/-- The lines with content, each with a statement terminator, and the end of the file. -/
def terminate (lines : List (List Token)) : Array Token :=
  match lines.foldl addLine (#[], none) with
  | (out, some eof) => out.push eof
  | (out, none) => out

/-- Whether an indent behind the token leads its line. -/
def leads : Option Token → Bool
  | none => true
  | some prev => prev.kind == .statementTerminator || prev.kind == .indent

/-- Puts the next token behind those that are kept, unless it is an indent that does not lead its line. -/
def keep (cleaned : Array Token) (t : Token) : Array Token :=
  if isIndent t && !leads cleaned.back? then cleaned else cleaned.push t

/-- The tokens without the indents that do not lead their line. -/
def dropInner (tokens : Array Token) : Array Token :=
  tokens.foldl keep #[]

end Layout

/-- The cleaned sequence of a raw scan. -/
def cleanFormatting (raw : Array Token) : Array Token :=
  Layout.dropInner (Layout.terminate (Layout.outdent (Layout.splitLines raw.toList)))

/-- The cleaned tokens of a text. -/
def tokenize (moduleName source : String) : Except ScanError (Array Token) :=
  (scan moduleName source).map cleanFormatting

/-- The tokens of a text whose characters are known.  Where a text is evaluated they are better
given than found, because the characters of a literal are found by way of its bytes. -/
theorem tokenize_of_toList {source : String} {cs : List Char} (h : source.toList = cs)
    (moduleName : String) :
    tokenize moduleName source = (Scanner.finish ⟨moduleName, #[], ⟨1, 1⟩, 0, cs⟩).map cleanFormatting := by
  rw [tokenize, scan, Scanner.start, h]

theorem toList_append_of {s t : String} {cs ds : List Char} (hs : s.toList = cs)
    (ht : t.toList = ds) : (s ++ t).toList = cs ++ ds := by
  rw [String.toList_append, hs, ht]

end WordScript
