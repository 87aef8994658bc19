/-
Tokens of the language.

A token has a kind, the text it was read from, the position of its first
character and the name of the module it belongs to.  Keywords and symbols are
enumerations with their spelling; the remaining kinds are literals, names and
the formatting kinds that carry layout and no meaning.

* `Keyword.ofText?`, `Symbol.atFront?` — recognition from text;
* `TokenKind.describe`, `Token.describe` — how diagnostics name them;
* `Symbol.ofChars_chars` — no two symbols share a spelling.
-/
namespace WordScript

/-- A place in a source text; lines and columns count from one. -/
structure Position where
  line : Nat
  col : Nat
deriving Repr, DecidableEq, Inhabited

namespace Position

/-- The position after a character. -/
def next (p : Position) (c : Char) : Position :=
  if c = '\n' then ⟨p.line + 1, 1⟩ else ⟨p.line, p.col + 1⟩

/-- The position further to the right on the same line. -/
def right (p : Position) (n : Nat) : Position :=
  ⟨p.line, p.col + n⟩

/-- The order in which positions are met when reading. -/
def before (p q : Position) : Prop :=
  p.line < q.line ∨ p.line = q.line ∧ p.col < q.col

end Position

/-- The reserved words. -/
inductive Keyword where
  | true | false
  | var | function | returns | structure_ | field | external
  | if_ | then_ | else_ | while_ | loop | break_ | continue_ | return_ | yield
  | new | free
  | and | or | not
deriving Repr, DecidableEq

namespace Keyword

/-- The spelling of a reserved word. -/
def text : Keyword → String
  | true => "true"
  | false => "false"
  | var => "var"
  | function => "function"
  | returns => "returns"
  | structure_ => "structure"
  | field => "field"
  | external => "external"
  | if_ => "if"
  | then_ => "then"
  | else_ => "else"
  | while_ => "while"
  | loop => "loop"
  | break_ => "break"
  | continue_ => "continue"
  | return_ => "return"
  | yield => "yield"
  | new => "new"
  | free => "free"
  | and => "and"
  | or => "or"
  | not => "not"

/-- Every reserved word. -/
def all : List Keyword :=
  [true, false, var, function, returns, structure_, field, external, if_, then_, else_, while_,
   loop, break_, continue_, return_, yield, new, free, and, or, not]

/-- The reserved word with the given spelling. -/
def ofText? (s : String) : Option Keyword :=
  all.find? fun k => k.text == s

end Keyword

/-- Operators and delimiters. -/
inductive Symbol where
  | equalEqual | bangEqual | lessEqual | greaterEqual
  | plusEqual | minusEqual | starEqual | slashEqual | plusPlus | minusMinus
  | plus | minus | star | slash | percent | equal | less | greater | ampersand
  | leftParen | rightParen | leftBrace | rightBrace | leftBracket | rightBracket
  | comma | dot
deriving Repr, DecidableEq

namespace Symbol

/-- The spelling of a symbol, character by character. -/
def chars : Symbol → List Char
  | equalEqual => ['=', '=']
  | bangEqual => ['!', '=']
  | lessEqual => ['<', '=']
  | greaterEqual => ['>', '=']
  | plusEqual => ['+', '=']
  | minusEqual => ['-', '=']
  | starEqual => ['*', '=']
  | slashEqual => ['/', '=']
  | plusPlus => ['+', '+']
  | minusMinus => ['-', '-']
  | plus => ['+']
  | minus => ['-']
  | star => ['*']
  | slash => ['/']
  | percent => ['%']
  | equal => ['=']
  | less => ['<']
  | greater => ['>']
  | ampersand => ['&']
  | leftParen => ['(']
  | rightParen => [')']
  | leftBrace => ['\x7b']
  | rightBrace => ['\x7d']
  | leftBracket => ['[']
  | rightBracket => [']']
  | comma => [',']
  | dot => ['.']

/-- The spelling of a symbol. -/
def text (s : Symbol) : String :=
  String.ofList s.chars

/-- Every symbol, the longer spellings first. -/
def all : List Symbol :=
  [equalEqual, bangEqual, lessEqual, greaterEqual, plusEqual, minusEqual, starEqual, slashEqual,
   plusPlus, minusMinus, plus, minus, star, slash, percent, equal, less, greater, ampersand,
   leftParen, rightParen, leftBrace, rightBrace, leftBracket, rightBracket, comma, dot]

/-- The longest symbol that the text begins with. -/
def atFront? (cs : List Char) : Option Symbol :=
  all.find? fun s => s.chars.isPrefixOf cs

/-- A symbol that opens a bracket. -/
def opens : Symbol → Bool
  | leftParen | leftBracket | leftBrace => Bool.true
  | _ => Bool.false

/-- A symbol that closes a bracket. -/
def closes : Symbol → Bool
  | rightParen | rightBracket | rightBrace => Bool.true
  | _ => Bool.false

theorem mem_all (s : Symbol) : s ∈ all := by
  cases s <;> decide

theorem chars_injective {s t : Symbol} (h : s.chars = t.chars) : s = t := by
  revert h; cases s <;> cases t <;> decide

/-- A symbol standing alone is recognised as itself. -/
theorem ofChars_chars (s : Symbol) : atFront? s.chars = some s := by
  cases s <;> decide

end Symbol

/-- What kind of token it is. -/
inductive TokenKind where
  | integer
  | float
  | string
  | identifier
  | keyword (k : Keyword)
  | symbol (s : Symbol)
  | newLine
  | indent
  | statementTerminator
  | endOfFile
deriving Repr, DecidableEq

namespace TokenKind

/-- Formatting tokens carry layout, not meaning. -/
def isFormatting : TokenKind → Bool
  | newLine | indent | statementTerminator | endOfFile => true
  | _ => false

/-- How diagnostics name a kind. -/
def describe : TokenKind → String
  | integer => "integer"
  | float => "float"
  | string => "string"
  | identifier => "identifier"
  | keyword k => k.text
  | symbol s => "'" ++ s.text ++ "'"
  | newLine => "newline"
  | indent => "indent"
  | statementTerminator => "end of statement"
  | endOfFile => "end of file"

end TokenKind

/-- A token, with the place and the module it was read from. -/
structure Token where
  kind : TokenKind
  lexeme : String
  position : Position
  moduleName : String
deriving Repr, DecidableEq

namespace Token

/-- How diagnostics name a token: names and numbers by their text, strings between quotes. -/
def describe (t : Token) : String :=
  match t.kind with
  | .identifier | .integer | .float => "'" ++ t.lexeme ++ "'"
  | .string => "\"" ++ t.lexeme ++ "\""
  | kind => kind.describe

/-- Whether the token carries layout, not meaning. -/
def isFormatting (t : Token) : Bool :=
  t.kind.isFormatting

end Token

end WordScript
