/-
A listing of tokens, one to a line.

Each line gives the position, a class of tokens in a fixed column and the text.
A listing may be in colour, by class, and may leave out formatting tokens.
-/
import WordScript.Text.Pad
import WordScript.Text.Quoted
import WordScript.Token.Basic

namespace WordScript

/-- The classes that a listing tells apart. -/
inductive TokenClass where
  | newline | indent | eof | int | float | string | bool | ident
  | paren | bracket | brace | punct | op | cmp | keyword
deriving Repr, DecidableEq

namespace TokenClass

/-- The class of a symbol. -/
def ofSymbol : Symbol → TokenClass
  | .leftParen | .rightParen => paren
  | .leftBracket | .rightBracket => bracket
  | .leftBrace | .rightBrace => brace
  | .comma | .dot => punct
  | .equalEqual | .bangEqual | .less | .lessEqual | .greater | .greaterEqual => cmp
  | _ => op

/-- The class of a kind of token. -/
def ofKind : TokenKind → TokenClass
  | .newLine | .statementTerminator => newline
  | .indent => indent
  | .endOfFile => eof
  | .integer => int
  | .float => float
  | .string => string
  | .identifier => ident
  | .keyword .true | .keyword .false => bool
  | .keyword _ => keyword
  | .symbol s => ofSymbol s

/-- The name of a class in its column. -/
def label : TokenClass → String
  | newline => "NEWLINE"
  | indent => "INDENT"
  | eof => "EOF"
  | int => "INT"
  | float => "FLOAT"
  | string => "STRING"
  | bool => "BOOL"
  | ident => "IDENT"
  | paren => "PAREN"
  | bracket => "BRACKET"
  | brace => "BRACE"
  | punct => "PUNCT"
  | op => "OP"
  | cmp => "CMP"
  | keyword => "KEYWORD"

/-- The number of the terminal style in which a class is shown. -/
def style : TokenClass → Nat
  | newline | indent | eof => 2
  | string => 32
  | int | float | bool => 36
  | ident => 33
  | op | cmp => 35
  | _ => 0

end TokenClass

/-- How a listing is written. -/
structure ListingStyle where
  color : Bool := true
  showFormatting : Bool := true

namespace ListingStyle

/-- The terminal code that switches to a style. -/
def escape (style : Nat) : String :=
  "\x1b[" ++ toString style ++ "m"

/-- The text of a token in its line. -/
def shown (t : Token) : String :=
  match t.kind with
  | .statementTerminator => "END"
  | .indent => "INDENT"
  | .endOfFile => "EOF"
  | .string => Text.quoted t.lexeme
  | _ => t.lexeme

/-- The line of one token. -/
def line (style : ListingStyle) (t : Token) : String :=
  let cls := TokenClass.ofKind t.kind
  let on := if style.color then escape cls.style else ""
  let off := if style.color then escape 0 else ""
  "[" ++ Text.zeroPadded 2 t.position.line ++ ":" ++ Text.zeroPadded 2 t.position.col ++ "] "
    ++ on ++ Text.alignLeft 8 cls.label ++ " " ++ shown t ++ off

/-- The listing of a token sequence. -/
def listing (style : ListingStyle) (tokens : Array Token) : String :=
  let kept := tokens.toList.filter fun t => style.showFormatting || !t.isFormatting
  String.join (kept.map fun t => style.line t ++ "\n")

end ListingStyle

end WordScript
