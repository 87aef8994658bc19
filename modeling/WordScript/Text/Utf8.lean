/-
Bytes of a text and back.

Reading is an automaton over the bytes: a lead byte opens a sequence that needs
a number of continuation bytes, the first of them in a range that excludes
overlong forms, surrogates and code points past the last one.  Where a byte does
not fit, what was opened is one invalid part and the byte is read afresh, so an
invalid part is always as long as possible.

* `Utf8.encode` — the bytes of a text;
* `Utf8.parts` — the characters of a byte sequence, `none` for an invalid part;
* `Utf8.decode?` — the text, if no part is invalid;
* `Utf8.decodeLossy` — the text with each invalid part replaced.
-/
namespace WordScript.Utf8

/-- The bytes of a text. -/
def encode (s : String) : List UInt8 :=
  s.toList.flatMap String.utf8EncodeChar

/-- A sequence that has been opened: how many continuation bytes come after the next one,
the range of the next one, and the bits read so far. -/
structure Pending where
  more : Nat
  lo : UInt8
  hi : UInt8
  code : Nat

/-- What a byte does where a character may begin. -/
inductive Lead where
  | char (c : Char)
  | opens (p : Pending)
  | invalid

/-- Reads a byte as the beginning of a character. -/
def lead (b : UInt8) : Lead :=
  if b < 0x80 then .char (Char.ofNat b.toNat)
  else if b < 0xC2 then .invalid
  else if b < 0xE0 then .opens ⟨0, 0x80, 0xBF, b.toNat % 32⟩
  else if b = 0xE0 then .opens ⟨1, 0xA0, 0xBF, 0⟩
  else if b = 0xED then .opens ⟨1, 0x80, 0x9F, 13⟩
  else if b < 0xF0 then .opens ⟨1, 0x80, 0xBF, b.toNat % 16⟩
  else if b = 0xF0 then .opens ⟨2, 0x90, 0xBF, 0⟩
  else if b < 0xF4 then .opens ⟨2, 0x80, 0xBF, b.toNat % 8⟩
  else if b = 0xF4 then .opens ⟨2, 0x80, 0x8F, 4⟩
  else .invalid

/-- The automaton: the parts read so far, newest first, the sequence that is open, if one is,
and the bytes to come. -/
def read (done : List (Option Char)) : Option Pending → List UInt8 → List (Option Char)
  | none, [] => done.reverse
  | some _, [] => (none :: done).reverse
  | none, b :: bs =>
    match lead b with
    | .char c => read (some c :: done) none bs
    | .opens p => read done (some p) bs
    | .invalid => read (none :: done) none bs
  | some p, b :: bs =>
    if p.lo ≤ b ∧ b ≤ p.hi then
      let code := p.code * 64 + b.toNat % 64
      match p.more with
      | 0 => read (some (Char.ofNat code) :: done) none bs
      | n + 1 => read done (some ⟨n, 0x80, 0xBF, code⟩) bs
    else
      match lead b with
      | .char c => read (some c :: none :: done) none bs
      | .opens q => read (none :: done) (some q) bs
      | .invalid => read (none :: none :: done) none bs

/-- The characters of a byte sequence, with `none` for each invalid part. -/
def parts (bytes : List UInt8) : List (Option Char) :=
  read [] none bytes

/-- The text of a byte sequence without invalid parts. -/
def decode? (bytes : List UInt8) : Option String :=
  ((parts bytes).mapM id).map String.ofList

/-- The text of a byte sequence, with the replacement character for each invalid part. -/
def decodeLossy (bytes : List UInt8) : String :=
  String.ofList ((parts bytes).map (·.getD '\uFFFD'))

end WordScript.Utf8
