/-
Numbers as they are written.

The scanner takes digits for an integer however many there are, and it takes the prefix
of a hexadecimal one even if no digit comes after it.  So it is left to the reader of
literals to tell which integers are words.  A number with a fraction always has a word,
that of the value nearest to it.

* `Literal.value`, `Literal.decimal` — the number that the digits of a literal stand for;
* `Literal.Numeral` — what the scanner takes for an integer;
* `Literal.integer?_eq` — the word of an integer, if it has one;
* `Literal.nearest_float` — the word of a number with a fraction.
-/
import Mathlib.Data.List.Induction
import Mathlib.Data.Nat.Digits.Defs
import WordScript.Compiler.Literal
import WordScript.Proofs.NearestValues
import WordScript.Proofs.SourcePieces

namespace WordScript

namespace Literal

/-- The digits in the order of what they stand for. -/
def digits : List Char :=
  ['0', '1', '2', '3', '4', '5', '6', '7', '8', '9', 'a', 'b', 'c', 'd', 'e', 'f']

/-- What a digit of either case stands for. -/
def digit (c : Char) : Nat :=
  digits.idxOf c.toLower

/-- The number that digits stand for, the one that weighs most first. -/
def number (base : Nat) (ds : List Char) : Nat :=
  Nat.ofDigits base (ds.reverse.map digit)

/-- The number that an integer stands for, to the base sixteen behind a prefix and to the base ten
otherwise. -/
def value (text : String) : Nat :=
  match text.toList with
  | '0' :: 'x' :: ds => number 16 ds
  | ds => number 10 ds

/-- The number that digits before and after a point stand for. -/
def decimal (whole fraction : List Char) : ℚ :=
  number 10 (whole ++ fraction) / 10 ^ fraction.length

/-- The text of an integer: decimal digits, or a prefix and hexadecimal digits, of which there may be
none. -/
inductive Numeral : String → Prop
  | decimal {ds : List Char} : ds ≠ [] → (∀ d ∈ ds, Text.isDigit d = true) →
    Numeral (String.ofList ds)
  | hexadecimal {ds : List Char} : (∀ d ∈ ds, Text.isHexDigit d = true) →
    Numeral (String.ofList ('0' :: 'x' :: ds))

/-- Digits are ASCII characters, so there are few of them to look at. -/
theorem hexValue_eq_digit {c : Char} (h : Text.isHexDigit c = true) : hexValue c = digit c := by
  have hall : ∀ n < 128, Text.isHexDigit (Char.ofNat n) = true →
      hexValue (Char.ofNat n) = digit (Char.ofNat n) := by decide +kernel
  have hlt : c.toNat < 128 := by
    simp only [Text.isHexDigit, Text.isDigit, Bool.or_eq_true, Bool.and_eq_true, decide_eq_true_eq,
      Char.le_def, UInt32.le_iff_toNat_le] at h
    have hbounds : '9'.val.toNat < 128 ∧ 'f'.val.toNat < 128 ∧ 'F'.val.toNat < 128 := by decide
    show c.val.toNat < 128
    omega
  rw [← Char.ofNat_toNat c] at h ⊢
  exact hall _ hlt h

theorem isHexDigit_of_isDigit {c : Char} (h : Text.isDigit c = true) : Text.isHexDigit c = true := by
  rw [Text.isHexDigit, h]
  rfl

/-- A decimal digit is a hexadecimal one and stands for the same number. -/
theorem toNat_sub_eq_digit {c : Char} (h : Text.isDigit c = true) : c.toNat - '0'.toNat = digit c := by
  rw [← hexValue_eq_digit (isHexDigit_of_isDigit h), hexValue, if_pos h]

/-- A number is read from the digit that weighs most. -/
theorem foldl_eq_number (base : Nat) {f : Char → Nat} {ds : List Char} (h : ∀ d ∈ ds, f d = digit d) :
    ds.foldl (fun n d => base * n + f d) 0 = number base ds := by
  induction ds using List.reverseRecOn with
  | nil => rfl
  | append_singleton ds d ih =>
    rw [List.foldl_concat, ih fun e he => h e (List.mem_append_left _ he), h d (by simp), number, number,
      List.reverse_concat, List.map_cons, Nat.ofDigits_cons, Nat.add_comm]

variable {ds : List Char} {text : String}

theorem value_hexadecimal (hds : ∀ d ∈ ds, Text.isHexDigit d = true) :
    value (String.ofList ('0' :: 'x' :: ds)) = ofHexDigits ds := by
  rw [value, String.toList_ofList]
  exact (foldl_eq_number 16 fun d hd => hexValue_eq_digit (hds d hd)).symm

theorem ofDigits_eq_number (hds : ∀ d ∈ ds, Text.isDigit d = true) :
    Decimal.ofDigits ds = number 10 ds :=
  foldl_eq_number 10 fun d hd => toNat_sub_eq_digit (hds d hd)

/-- Decimal digits do not begin with a prefix. -/
theorem ne_prefix_of_digits (hds : ∀ d ∈ ds, Text.isDigit d = true) (rest : List Char) :
    ds ≠ '0' :: 'x' :: rest := by
  rintro rfl
  exact absurd (hds 'x' (by simp)) (by decide)

theorem value_decimal (hds : ∀ d ∈ ds, Text.isDigit d = true) :
    value (String.ofList ds) = Decimal.ofDigits ds := by
  rw [value, String.toList_ofList, ofDigits_eq_number hds]
  split
  · exact absurd rfl (ne_prefix_of_digits hds _)
  · rfl

/-- An integer is a word unless it lacks digits or its value is too large. -/
theorem integer?_eq (h : Numeral text) :
    integer? text = if text = "0x" ∨ 4294967295 < value text then none
      else some (UInt32.ofNat (value text)) := by
  cases h with
  | @decimal ds hne hds =>
    have hbare : String.ofList ds ≠ "0x" := fun heq =>
      ne_prefix_of_digits hds [] (by rw [← String.toList_ofList (l := ds), heq]; rfl)
    -- decimal digits stand there, at least one
    have hempty : ds.isEmpty = false := by
      rw [Bool.eq_false_iff, ne_eq, List.isEmpty_iff]
      exact hne
    rw [value_decimal hds, integer?, String.toList_ofList]
    split
    · exact absurd rfl (ne_prefix_of_digits hds _)
    · rw [natural?, String.toList_ofList, hempty, List.all_eq_true.mpr hds]
      simp only [hbare, false_or]
      by_cases hlarge : 4294967295 < Decimal.ofDigits ds
      · simp [hlarge]
      · simp [hlarge, Nat.le_of_not_lt hlarge]
  | @hexadecimal ds hds =>
    rw [value_hexadecimal hds, integer?, String.toList_ofList]
    simp only [List.all_eq_true.mpr hds]
    cases ds with
    | nil => rfl
    | cons d ds =>
      have hbare : String.ofList ('0' :: 'x' :: d :: ds) ≠ "0x" := fun heq => by
        have hlist := congrArg String.toList heq
        rw [String.toList_ofList] at hlist
        exact absurd (congrArg List.length hlist) (by simp)
      simp only [hbare, false_or]
      by_cases hlarge : 4294967295 < ofHexDigits (d :: ds)
      · simp [hlarge, Nat.not_lt_of_ge (Nat.succ_le_of_lt hlarge)]
      · simp [hlarge, Nat.lt_succ_of_le (Nat.le_of_not_lt hlarge)]

/-- The word of an integer has the value that is written. -/
theorem integer?_eq_some_iff (h : Numeral text) {w : Word} :
    integer? text = some w ↔ text ≠ "0x" ∧ w.toNat = value text := by
  rw [integer?_eq h]
  have hw : w.toNat < 4294967296 := w.toNat_lt
  split
  · next hout =>
    constructor
    · intro hsome
      cases hsome
    · rintro ⟨hne, hval⟩
      have hlarge := hout.resolve_left hne
      omega
  · next hin =>
    rw [not_or] at hin
    constructor
    · intro hsome
      cases hsome
      exact ⟨hin.1, UInt32.toNat_ofNat_of_lt' (Nat.lt_succ_of_le (Nat.le_of_not_lt hin.2))⟩
    · rintro ⟨-, hval⟩
      rw [← hval, UInt32.ofNat_toNat]

theorem integer?_eq_none_iff (h : Numeral text) :
    integer? text = none ↔ text = "0x" ∨ 4294967295 < value text := by
  rw [integer?_eq h]
  split
  · next hout => exact ⟨fun _ => hout, fun _ => rfl⟩
  · next hin => exact ⟨fun hsome => absurd hsome (Option.some_ne_none _), fun hout => absurd hout hin⟩

/-- The word of a number with a fraction is that of the nearest value. -/
theorem nearest_float {whole fraction : List Char} (hwhole : ∀ d ∈ whole, Text.isDigit d = true)
    (hfraction : ∀ d ∈ fraction, Text.isDigit d = true) :
    Decimal.Nearest (decimal whole fraction) (float (String.ofList (whole ++ '.' :: fraction))) := by
  have hdigits : ∀ d ∈ whole ++ fraction, Text.isDigit d = true := by
    intro d hd
    obtain hd | hd := List.mem_append.mp hd
    · exact hwhole d hd
    · exact hfraction d hd
  -- the point is the first character that is no digit
  have hpoint : ∀ d ∈ whole, decide (d ≠ '.') = true := by
    intro d hd
    have hdigit := hwhole d hd
    rw [decide_eq_true_eq]
    rintro rfl
    exact absurd hdigit (by decide)
  have htake : (whole ++ '.' :: fraction).takeWhile (· ≠ '.') = whole := by
    rw [List.takeWhile_append_of_pos hpoint]
    simp
  have hdrop : ((whole ++ '.' :: fraction).dropWhile (· ≠ '.')).drop 1 = fraction := by
    rw [List.dropWhile_append_of_pos hpoint]
    simp
  have hten : (Decimal.pow10 fraction.length : ℚ) = 10 ^ fraction.length := by
    rw [show Decimal.pow10 fraction.length = 10 ^ fraction.length from rfl]
    push_cast
    rfl
  rw [float, String.toList_ofList, htake, hdrop, Decimal.read32, decimal, ← hten,
    ← ofDigits_eq_number hdigits]
  exact Decimal.nearest_nearest32 _ (Nat.pow_pos (by decide))

/-- A token of a text is spelled by some of its characters, unless it is the end of the file. -/
theorem spelled_of_scan {moduleName source : String} {found : Array Token} {t : Token}
    (h : scan moduleName source = .ok found) (ht : t ∈ found) (hkind : t.kind ≠ .endOfFile) :
    ∃ after chars, Spelled after chars t.kind t.lexeme := by
  obtain ⟨s, pieces, hs, -, -, htokens⟩ := Scanner.exists_of_scan h
  rw [← Array.mem_toList_iff, htokens, List.mem_append, List.mem_singleton] at ht
  obtain ht | rfl := ht
  · exact (hs.fits_token ht).2
  · exact absurd rfl hkind

theorem numeral_of_spelled {after chars : List Char} {kind : TokenKind}
    (h : Spelled after chars kind text) (hkind : kind = .integer) : Numeral text := by
  cases h with
  | decimal hne hds => exact .decimal hne hds
  | hexadecimal _ hds => exact .hexadecimal hds
  | _ => cases hkind

theorem fraction_of_spelled {after chars : List Char} {kind : TokenKind}
    (h : Spelled after chars kind text) (hkind : kind = .float) : ∃ whole fraction : List Char,
      text = String.ofList (whole ++ '.' :: fraction) ∧ (∀ d ∈ whole, Text.isDigit d = true) ∧
      ∀ d ∈ fraction, Text.isDigit d = true := by
  cases h with
  | fraction _ hds _ hfs => exact ⟨_, _, rfl, hds, hfs⟩
  | _ => cases hkind

end Literal

end WordScript
