/-
Strings as blocks of words.

A block is the number of payload words and then the payload: the bytes of the
text, four to a word, padded with zero bytes.  Reading trims zero bytes at the
end, so a text that itself ends in zero characters loses them.

* `StringBlock.encode` — a text as a block;
* `StringBlock.decode` — the text of a payload.
-/
import WordScript.Text.Utf8
import WordScript.Word

namespace WordScript.StringBlock

/-- Bytes packed four to a word after the words in `done`, the last word padded with zeros. -/
def packFrom (done : Array Word) : List UInt8 → Array Word
  | [] => done
  | [a] => done.push (Word.ofBytes a 0 0 0)
  | [a, b] => done.push (Word.ofBytes a b 0 0)
  | [a, b, c] => done.push (Word.ofBytes a b c 0)
  | a :: b :: c :: d :: rest => packFrom (done.push (Word.ofBytes a b c d)) rest

/-- The payload of a text. -/
def payload (text : String) : Array Word :=
  packFrom #[] (Utf8.encode text)

/-- The block of a text: the length of the payload, then the payload. -/
def encode (text : String) : Array Word :=
  let words := payload text
  #[words.size.toUInt32] ++ words

/-- The bytes without the zeros at the end. -/
def trimZeros (bytes : List UInt8) : List UInt8 :=
  (bytes.reverse.dropWhile (· == 0)).reverse

/-- The text of a payload. -/
def decode (payload : List Word) : String :=
  Utf8.decodeLossy (trimZeros (payload.flatMap Word.bytes))

end WordScript.StringBlock
