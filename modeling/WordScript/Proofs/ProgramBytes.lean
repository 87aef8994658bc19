/-
Programs survive being written as bytes.

A reader takes some bytes when it reads a value off the front of every sequence that
begins with them and leaves what comes after.  Readers that take their bytes compose,
so the statement for programs is put together from those for numbers, texts and
sequences.  A length is read with 64 bits, so no sequence that is read back may be
longer than that; nothing that fits in memory is.

* `Utf8.decode?_encode` — texts;
* `Encoding.takes_groups` — numbers, group by group;
* `Encoding.takes_array` — sequences, element by element;
* `Encoding.takes_program`, `Program.ofBytes_toBytes` — programs;
* `recovered_of_countable` — programs with anything behind them, what two programs
  with the same bytes have in common, and what verification adds.
-/
import Mathlib.Algebra.Ring.Nat
import WordScript.Build

namespace WordScript

namespace Utf8

/-- The bytes of a character are sums of a group of bits and a mark, so the automaton is described
by what it does with a number below 256. -/
theorem ofNat_lt_iff {n : Nat} (hn : n < 256) (b : UInt8) : UInt8.ofNat n < b ↔ n < b.toNat := by
  rw [UInt8.lt_iff_toNat_lt, UInt8.toNat_ofNat_of_lt' hn]

theorem ofNat_eq_iff {n : Nat} (hn : n < 256) (b : UInt8) : UInt8.ofNat n = b ↔ n = b.toNat := by
  rw [← UInt8.toNat_inj, UInt8.toNat_ofNat_of_lt' hn]

theorem lead_ofNat {n : Nat} (hn : n < 256) :
    lead (UInt8.ofNat n) =
      if n < 0x80 then .char (Char.ofNat n)
      else if n < 0xC2 then .invalid
      else if n < 0xE0 then .opens ⟨0, 0x80, 0xBF, n % 32⟩
      else if n = 0xE0 then .opens ⟨1, 0xA0, 0xBF, 0⟩
      else if n = 0xED then .opens ⟨1, 0x80, 0x9F, 13⟩
      else if n < 0xF0 then .opens ⟨1, 0x80, 0xBF, n % 16⟩
      else if n = 0xF0 then .opens ⟨2, 0x90, 0xBF, 0⟩
      else if n < 0xF4 then .opens ⟨2, 0x80, 0xBF, n % 8⟩
      else if n = 0xF4 then .opens ⟨2, 0x80, 0x8F, 4⟩
      else .invalid := by
  simp only [lead, ofNat_lt_iff hn, ofNat_eq_iff hn, UInt8.toNat_ofNat_of_lt' hn, UInt8.reduceToNat]

section Automaton

variable {done : List (Option Char)} {bytes : List UInt8} {p : Pending} {n : Nat}

/-- The last byte of a character. -/
theorem read_last (hmore : p.more = 0) (hlo : p.lo.toNat ≤ n) (hhi : n ≤ p.hi.toNat)
    (hn : n < 256) : read done (some p) (UInt8.ofNat n :: bytes) =
      read (some (Char.ofNat (p.code * 64 + n % 64)) :: done) none bytes := by
  have hlo : p.lo ≤ UInt8.ofNat n := by rwa [UInt8.le_iff_toNat_le, UInt8.toNat_ofNat_of_lt' hn]
  have hhi : UInt8.ofNat n ≤ p.hi := by rwa [UInt8.le_iff_toNat_le, UInt8.toNat_ofNat_of_lt' hn]
  rw [read, if_pos ⟨hlo, hhi⟩, hmore]
  simp only [UInt8.toNat_ofNat_of_lt' hn]

/-- A byte after which more of the character comes. -/
theorem read_more {k : Nat} (hmore : p.more = k + 1) (hlo : p.lo.toNat ≤ n) (hhi : n ≤ p.hi.toNat)
    (hn : n < 256) : read done (some p) (UInt8.ofNat n :: bytes) =
      read done (some ⟨k, 0x80, 0xBF, p.code * 64 + n % 64⟩) bytes := by
  have hlo : p.lo ≤ UInt8.ofNat n := by rwa [UInt8.le_iff_toNat_le, UInt8.toNat_ofNat_of_lt' hn]
  have hhi : UInt8.ofNat n ≤ p.hi := by rwa [UInt8.le_iff_toNat_le, UInt8.toNat_ofNat_of_lt' hn]
  rw [read, if_pos ⟨hlo, hhi⟩, hmore]
  simp only [UInt8.toNat_ofNat_of_lt' hn]

theorem read_opens (hlead : lead (UInt8.ofNat n) = .opens p) :
    read done none (UInt8.ofNat n :: bytes) = read done (some p) bytes := by
  rw [read, hlead]

end Automaton

/-- The byte that opens a character of three bytes.  The range of the next byte leaves out what has
a shorter form, and the surrogates. -/
theorem lead_three {n : Nat} (hlo : 0xE0 ≤ n) (hhi : n < 0xF0) :
    ∃ lo hi : UInt8, lead (UInt8.ofNat n) = .opens ⟨1, lo, hi, n % 16⟩ ∧
      (lo.toNat = 0x80 ∨ lo.toNat = 0xA0 ∧ n = 0xE0) ∧
      (hi.toNat = 0xBF ∨ hi.toNat = 0x9F ∧ n = 0xED) := by
  rw [lead_ofNat (by omega), if_neg (by omega), if_neg (by omega), if_neg (by omega)]
  by_cases hfirst : n = 0xE0
  · subst hfirst
    exact ⟨0xA0, 0xBF, rfl, .inr ⟨rfl, rfl⟩, .inl rfl⟩
  · by_cases hsurrogate : n = 0xED
    · subst hsurrogate
      exact ⟨0x80, 0x9F, rfl, .inl rfl, .inr ⟨rfl, rfl⟩⟩
    · rw [if_neg hfirst, if_neg hsurrogate, if_pos hhi]
      exact ⟨0x80, 0xBF, rfl, .inl rfl, .inl rfl⟩

/-- The byte that opens a character of four bytes.  The range of the next byte leaves out what has a
shorter form, and what is past the last character. -/
theorem lead_four {n : Nat} (hlo : 0xF0 ≤ n) (hhi : n ≤ 0xF4) :
    ∃ lo hi : UInt8, lead (UInt8.ofNat n) = .opens ⟨2, lo, hi, n % 8⟩ ∧
      (lo.toNat = 0x80 ∨ lo.toNat = 0x90 ∧ n = 0xF0) ∧
      (hi.toNat = 0xBF ∨ hi.toNat = 0x8F ∧ n = 0xF4) := by
  rw [lead_ofNat (by omega), if_neg (by omega), if_neg (by omega), if_neg (by omega),
    if_neg (by omega), if_neg (by omega), if_neg (by omega)]
  by_cases hfirst : n = 0xF0
  · subst hfirst
    exact ⟨0x90, 0xBF, rfl, .inr ⟨rfl, rfl⟩, .inl rfl⟩
  · by_cases hlast : n = 0xF4
    · subst hlast
      exact ⟨0x80, 0x8F, rfl, .inl rfl, .inr ⟨rfl, rfl⟩⟩
    · rw [if_neg hfirst, if_pos (by omega)]
      exact ⟨0x80, 0xBF, rfl, .inl rfl, .inl rfl⟩

/-- The automaton reads a character off the bytes that it is written with. -/
theorem read_utf8EncodeChar (c : Char) (done : List (Option Char)) (bytes : List UInt8) :
    read done none (String.utf8EncodeChar c ++ bytes) = read (some c :: done) none bytes := by
  have hchar : Char.ofNat c.val.toNat = c := Char.ofNat_toNat c
  have hvalid : c.val.toNat < 0xD800 ∨ 0xDFFF < c.val.toNat ∧ c.val.toNat < 0x110000 := c.valid
  rw [String.utf8EncodeChar]
  generalize hv : c.val.toNat = v at hchar hvalid
  -- one case for each length of a character, and in it one step for each of its bytes
  split
  · rw [List.singleton_append, read, lead_ofNat (by omega), if_pos (by omega)]
    simp only [hchar]
  · split
    · have hlead : lead (UInt8.ofNat (v / 64 % 32 + 192)) =
          .opens ⟨0, 0x80, 0xBF, (v / 64 % 32 + 192) % 32⟩ := by
        rw [lead_ofNat (by omega), if_neg (by omega), if_neg (by omega), if_pos (by omega)]
      rw [List.cons_append, List.singleton_append, read_opens hlead,
        read_last rfl (by simp) (by simp; omega) (by omega),
        show (v / 64 % 32 + 192) % 32 * 64 + (v % 64 + 128) % 64 = v by omega, hchar]
    · split
      · obtain ⟨lo, hi, hlead, hlo, hhi⟩ := lead_three (n := v / 4096 % 16 + 224)
          (by omega) (by omega)
        rw [List.cons_append, List.cons_append, List.singleton_append, read_opens hlead,
          read_more rfl (by simp only; omega) (by simp only; omega) (by omega),
          read_last rfl (by simp) (by simp; omega) (by omega)]
        have hcode : ((v / 4096 % 16 + 224) % 16 * 64 + (v / 64 % 64 + 128) % 64) * 64 +
            (v % 64 + 128) % 64 = v := by omega
        simp only [hcode, hchar]
      · obtain ⟨lo, hi, hlead, hlo, hhi⟩ := lead_four (n := v / 262144 % 8 + 240)
          (by omega) (by omega)
        rw [List.cons_append, List.cons_append, List.cons_append, List.singleton_append,
          read_opens hlead,
          read_more rfl (by simp only; omega) (by simp only; omega) (by omega),
          read_more rfl (by simp) (by simp; omega) (by omega),
          read_last rfl (by simp) (by simp; omega) (by omega)]
        have hcode : (((v / 262144 % 8 + 240) % 8 * 64 + (v / 4096 % 64 + 128) % 64) * 64 +
            (v / 64 % 64 + 128) % 64) * 64 + (v % 64 + 128) % 64 = v := by omega
        simp only [hcode, hchar]

theorem read_encode (cs : List Char) : ∀ done : List (Option Char),
    read done none (cs.flatMap String.utf8EncodeChar) = done.reverse ++ cs.map some := by
  induction cs with
  | nil => exact fun done => (List.append_nil _).symm
  | cons c cs ih =>
    intro done
    rw [List.flatMap_cons, read_utf8EncodeChar, ih, List.reverse_cons, List.append_assoc]
    rfl

/-- A text comes back from its bytes. -/
theorem decode?_encode (s : String) : decode? (encode s) = some s := by
  have hmap : ∀ cs : List Char, (cs.map some).mapM id = some cs := by
    intro cs
    induction cs with
    | nil => rfl
    | cons c cs ih => simp [ih]
  rw [decode?, parts, encode, read_encode, List.reverse_nil, List.nil_append, hmap, Option.map_some,
    String.ofList_toList]

end Utf8

namespace Encoding

variable {α β : Type}

/-- The reader reads the value off the front of whatever begins with the bytes. -/
def Takes (r : Reader α) (bytes : List UInt8) (x : α) : Prop :=
  ∀ rest, r (bytes ++ rest) = .ok (x, rest)

theorem takes_pure (x : α) : Takes (pure x) [] x := fun _ => rfl

theorem Takes.bind {r : Reader α} {f : α → Reader β} {bytes bytes' : List UInt8} {x : α} {y : β}
    (h : Takes r bytes x) (h' : Takes (f x) bytes' y) : Takes (r >>= f) (bytes ++ bytes') y := by
  intro rest
  show (r (bytes ++ bytes' ++ rest) >>= fun p => f p.1 p.2) = _
  rw [List.append_assoc, h]
  exact h' rest

/-- What comes after the last bytes takes none. -/
theorem Takes.last {r : Reader α} {f : α → Reader β} {bytes : List UInt8} {x : α} {y : β}
    (h : Takes r bytes x) (h' : Takes (f x) [] y) : Takes (r >>= f) bytes y := by
  rw [← List.append_nil bytes]
  exact h.bind h'

theorem Takes.map {r : Reader α} {bytes : List UInt8} {x : α} (h : Takes r bytes x) (f : α → β) :
    Takes (do return f (← r)) bytes (f x) :=
  h.last (takes_pure (f x))

theorem takes_byte (b : UInt8) : Takes readByte [b] b := fun _ => rfl

theorem varint_of_lt {n : Nat} (h : n < 128) : varint n = [n.toUInt8] := by
  rw [varint, if_pos h]

theorem varint_of_le {n : Nat} (h : 128 ≤ n) :
    varint n = (n % 128 + 128).toUInt8 :: varint (n / 128) := by
  rw [varint, if_neg (by omega)]

theorem length_varint_pos (n : Nat) : 0 < (varint n).length := by
  rw [varint]
  split <;> exact Nat.zero_lt_succ _

section Groups

variable {lastMax : UInt8} {groups scale value n : Nat}

/-- The last group of a number. -/
theorem readGroups_last (hn : n < 128) (hlast : groups = 0 → n ≤ lastMax.toNat) :
    Takes (readGroups lastMax (groups + 1) scale value) [n.toUInt8] (value + n * scale) := by
  intro rest
  have hbyte : n.toUInt8.toNat = n := UInt8.toNat_ofNat_of_lt' (Nat.lt_trans hn (by decide))
  have hlow : n.toUInt8 < 128 := by
    rw [UInt8.lt_iff_toNat_lt, hbyte]
    exact hn
  have hfits : ¬(groups = 0 ∧ lastMax < n.toUInt8) := by
    rintro ⟨hzero, hgreater⟩
    rw [UInt8.lt_iff_toNat_lt, hbyte] at hgreater
    exact absurd (hlast hzero) (by omega)
  rw [readGroups]
  show (if n.toUInt8 < 128 then if groups = 0 ∧ lastMax < n.toUInt8 then throw .badVarint
      else return value + n.toUInt8.toNat % 128 * scale else _ : Reader Nat) rest = _
  rw [if_pos hlow, if_neg hfits, hbyte, Nat.mod_eq_of_lt hn]
  rfl

/-- A group that is not the last: the others count 128 times as much. -/
theorem Takes.group {bytes : List UInt8} {x : Nat}
    (h : Takes (readGroups lastMax groups (scale * 128) (value + n % 128 * scale)) bytes x) :
    Takes (readGroups lastMax (groups + 1) scale value) ((n % 128 + 128).toUInt8 :: bytes) x := by
  intro rest
  have hbyte : (n % 128 + 128).toUInt8.toNat = n % 128 + 128 :=
    UInt8.toNat_ofNat_of_lt' (show n % 128 + 128 < 256 by omega)
  have hhigh : ¬(n % 128 + 128).toUInt8 < 128 := by
    rw [UInt8.lt_iff_toNat_lt, hbyte]
    exact Nat.not_lt.mpr (Nat.le_add_left _ _)
  rw [readGroups]
  show (if (n % 128 + 128).toUInt8 < 128 then _ else readGroups lastMax groups (scale * 128)
      (value + (n % 128 + 128).toUInt8.toNat % 128 * scale) : Reader Nat) (bytes ++ rest) = _
  rw [if_neg hhigh, hbyte, Nat.add_mod_right, Nat.mod_mod]
  exact h rest

end Groups

/-- The groups of a number, as many as there may be: the value so far grows by the number. -/
theorem takes_groups {lastMax : UInt8} (hmax : lastMax.toNat < 128) :
    ∀ (groups n scale value : Nat), n < (lastMax.toNat + 1) * 128 ^ groups →
    Takes (readGroups lastMax (groups + 1) scale value) (varint n) (value + n * scale) := by
  intro groups
  induction groups with
  | zero =>
    intro n scale value hn
    rw [varint_of_lt (by omega)]
    exact readGroups_last (by omega) (fun _ => by omega)
  | succ groups ih =>
    intro n scale value hn
    by_cases hlow : n < 128
    · rw [varint_of_lt hlow]
      exact readGroups_last hlow (fun h => nomatch h)
    · rw [varint_of_le (by omega)]
      -- the first group is the last digit to the base 128; the others are the rest of the number
      have hdiv : n / 128 < (lastMax.toNat + 1) * 128 ^ groups := by
        rw [Nat.div_lt_iff_lt_mul (by omega), Nat.mul_assoc, ← Nat.pow_succ]
        exact hn
      have hvalue : value + n % 128 * scale + n / 128 * (scale * 128) = value + n * scale := by
        have hsplit : n * scale = 128 * (n / 128) * scale + n % 128 * scale := by
          rw [← Nat.add_mul, Nat.div_add_mod]
        have hscale : n / 128 * (scale * 128) = 128 * (n / 128) * scale := by
          rw [Nat.mul_comm scale, ← Nat.mul_assoc, Nat.mul_comm (n / 128)]
        omega
      rw [← hvalue]
      exact (ih _ _ _ hdiv).group

/-- A length. -/
theorem takes_size {n : Nat} (h : n < 2 ^ 64) : Takes readSize (varint n) n := by
  have hmax : (0x01 : UInt8).toNat < 128 := by decide
  have hgroups := takes_groups hmax 9 n 1 0 h
  rwa [Nat.zero_add, Nat.mul_one] at hgroups

/-- A word. -/
theorem takes_word (w : Word) : Takes readWord (varint w.toNat) w := by
  have hmax : (0x0F : UInt8).toNat < 128 := by decide
  have hgroups := takes_groups hmax 4 w.toNat 1 0 w.toNat_lt
  rw [Nat.zero_add, Nat.mul_one] at hgroups
  have hword := hgroups.map Nat.toUInt32
  rwa [Nat.toUInt32_eq, UInt32.ofNat_toNat] at hword

section Sequences

variable {one : α → List UInt8} {r : Reader α}

theorem takes_many (xs : List α) : ∀ done : Array α, (∀ x ∈ xs, Takes r (one x) x) →
    Takes (readMany r xs.length done) (xs.flatMap one) (done ++ xs.toArray) := by
  induction xs with
  | nil =>
    intro done _
    rw [Array.append_empty]
    exact takes_pure done
  | cons x xs ih =>
    intro done hone
    have hrest := ih (done.push x) fun y hy => hone y (.tail _ hy)
    have hdone : done.push x ++ xs.toArray = done ++ (x :: xs).toArray := by
      rw [Array.push_eq_append, Array.append_assoc]
      simp
    rw [hdone] at hrest
    exact (hone x (.head _)).bind hrest

theorem length_le_of_mem {xs : List α} {x : α} (h : x ∈ xs) :
    (one x).length ≤ (xs.flatMap one).length := by
  obtain ⟨ys, zs, rfl⟩ := List.append_of_mem h
  rw [List.flatMap_append, List.flatMap_cons, List.length_append, List.length_append]
  omega

theorem length_le_flatMap (hpos : ∀ x, 0 < (one x).length) (xs : List α) :
    xs.length ≤ (xs.flatMap one).length := by
  induction xs with
  | nil => exact Nat.zero_le _
  | cons x xs ih =>
    have hx := hpos x
    rw [List.flatMap_cons, List.length_append, List.length_cons]
    omega

/-- A sequence whose elements are read back, if its length can be counted. -/
theorem takes_array {xs : Array α} (hsize : xs.size < 2 ^ 64)
    (hone : ∀ x ∈ xs, Takes r (one x) x) : Takes (readArray r) (array one xs) xs := by
  have hmany := takes_many xs.toList #[] fun x hx => hone x (Array.mem_toList_iff.mp hx)
  rw [Array.empty_append, Array.toArray_toList] at hmany
  exact (takes_size hsize).bind hmany

/-- No sequence has more elements than bytes. -/
theorem size_le_array (hpos : ∀ x, 0 < (one x).length) (xs : Array α) :
    xs.size ≤ (array one xs).length := by
  have hlength : xs.size ≤ (xs.toList.flatMap one).length := length_le_flatMap hpos xs.toList
  rw [array, List.length_append]
  omega

/-- No element has more bytes than its sequence. -/
theorem length_le_array {xs : Array α} {x : α} (h : x ∈ xs) :
    (one x).length ≤ (array one xs).length := by
  have hlength : (one x).length ≤ (xs.toList.flatMap one).length :=
    length_le_of_mem (Array.mem_toList_iff.mpr h)
  rw [array, List.length_append]
  omega

end Sequences

theorem length_text_pos (s : String) : 0 < (text s).length := by
  rw [text, List.length_append]
  exact Nat.add_pos_left (length_varint_pos _) _

theorem length_chunk_pos (c : Chunk) : 0 < (chunk c).length := by
  rw [chunk, List.append_assoc, List.length_append]
  exact Nat.add_pos_left (length_text_pos _) _

theorem takes_bytes (bytes : List UInt8) : Takes (readBytes bytes.length) bytes bytes := by
  intro rest
  rw [readBytes, List.splitAt_eq, List.take_left, List.drop_left]
  exact if_neg (Nat.lt_irrefl _)

/-- A text. -/
theorem takes_text {s : String} (h : (Utf8.encode s).length < 2 ^ 64) :
    Takes readText (text s) s := by
  refine (takes_size h).bind ((takes_bytes _).last ?_)
  rw [Utf8.decode?_encode]
  exact takes_pure s

/-- An instruction. -/
theorem takes_instruction (i : Instruction) : Takes readInstruction (instruction i) i :=
  (takes_byte i.opcodeByte).bind ((takes_byte i.a).bind ((takes_byte i.b).bind
    ((takes_byte i.c).map _)))

end Encoding

/-- A chunk whose name, code and constants are no longer than a length can count. -/
structure Chunk.Countable (c : Chunk) : Prop where
  name : (Utf8.encode c.name).length < 2 ^ 64
  code : c.code.size < 2 ^ 64
  constants : c.constants.size < 2 ^ 64

/-- A program none of whose sequences is longer than a length can count. -/
structure Program.Countable (p : Program) : Prop where
  size_chunks : p.chunks.size < 2 ^ 64
  chunks : ∀ c ∈ p.chunks, c.Countable
  size_externals : p.externals.size < 2 ^ 64
  externals : ∀ s ∈ p.externals, (Utf8.encode s).length < 2 ^ 64

namespace Encoding

/-- A chunk. -/
theorem takes_chunk {c : Chunk} (h : c.Countable) : Takes readChunk (chunk c) c := by
  have hcode : Takes (readArray readInstruction) (array instruction c.code) c.code :=
    takes_array h.code fun i _ => takes_instruction i
  have hconstants : Takes (readArray readWord) (array (fun w => varint w.toNat) c.constants)
      c.constants :=
    takes_array h.constants fun w _ => takes_word w
  rw [chunk, List.append_assoc]
  exact (takes_text h.name).bind (hcode.bind (hconstants.map _))

/-- A program. -/
theorem takes_program {p : Program} (h : p.Countable) : Takes readProgram p.toBytes p := by
  have hchunks : Takes (readArray readChunk) (array chunk p.chunks) p.chunks :=
    takes_array h.size_chunks fun c hc => takes_chunk (h.chunks c hc)
  have hexternals : Takes (readArray readText) (array text p.externals) p.externals :=
    takes_array h.size_externals fun s hs => takes_text (h.externals s hs)
  have hentry := takes_size p.entryPoint.toNat_lt
  have hprogram : Takes readProgram p.toBytes
      ⟨p.chunks, p.entryPoint.toNat.toUInt64, p.externals⟩ := by
    rw [Program.toBytes, List.append_assoc]
    exact hchunks.bind (hentry.bind (hexternals.map _))
  rwa [Nat.toUInt64_eq, UInt64.ofNat_toNat] at hprogram

end Encoding

theorem Chunk.countable_of_length {c : Chunk} (h : (Encoding.chunk c).length < 2 ^ 64) :
    c.Countable := by
  rw [Encoding.chunk, List.length_append, List.length_append, Encoding.text, List.length_append] at h
  have hpos : ∀ i, 0 < (Encoding.instruction i).length := fun i => Nat.zero_lt_succ 3
  have hcode : c.code.size ≤ (Encoding.array Encoding.instruction c.code).length :=
    Encoding.size_le_array hpos c.code
  have hconstants : c.constants.size ≤
      (Encoding.array (fun w : Word => Encoding.varint w.toNat) c.constants).length :=
    Encoding.size_le_array (fun w => Encoding.length_varint_pos w.toNat) c.constants
  exact ⟨by omega, by omega, by omega⟩

/-- What has fewer bytes than a length can count has no longer sequence. -/
theorem Program.countable_of_length {p : Program} (h : p.toBytes.length < 2 ^ 64) :
    p.Countable := by
  rw [toBytes, List.length_append, List.length_append] at h
  have hchunks : p.chunks.size ≤ (Encoding.array Encoding.chunk p.chunks).length :=
    Encoding.size_le_array Encoding.length_chunk_pos p.chunks
  have hexternals : p.externals.size ≤ (Encoding.array Encoding.text p.externals).length :=
    Encoding.size_le_array Encoding.length_text_pos p.externals
  refine ⟨by omega, fun c hc => ?_, by omega, fun s hs => ?_⟩
  · have hchunk : (Encoding.chunk c).length ≤ (Encoding.array Encoding.chunk p.chunks).length :=
      Encoding.length_le_array hc
    exact Chunk.countable_of_length (by omega)
  · have htext : (Encoding.text s).length ≤ (Encoding.array Encoding.text p.externals).length :=
      Encoding.length_le_array hs
    rw [Encoding.text, List.length_append] at htext
    omega

/-- A program comes back from its bytes, whatever follows them. -/
theorem Program.ofBytes_append {p : Program} (h : p.Countable) (rest : List UInt8) :
    Program.ofBytes (p.toBytes ++ rest) = .ok p := by
  rw [ofBytes, Encoding.takes_program h]
  rfl

/-- A program comes back from its bytes. -/
theorem Program.ofBytes_toBytes {p : Program} (h : p.toBytes.length < 2 ^ 64) :
    Program.ofBytes p.toBytes = .ok p := by
  rw [← List.append_nil p.toBytes]
  exact ofBytes_append (countable_of_length h) []

/-- Decoding adds verification and nothing else. -/
theorem decodeProgram_append {p : Program} (h : p.Countable) (rest : List UInt8) :
    decodeProgram (p.toBytes ++ rest) =
      match p.verify with
      | .ok () => .ok p
      | .error e => .error (.verify e) := by
  simp only [decodeProgram, Program.ofBytes_append h]
  cases p.verify with
  | ok u => rfl
  | error e => rfl

/-- A program comes back from its bytes, whatever follows them; no other program has the same bytes;
and decoding accepts them exactly if the program passes verification, and reports what it does not
pass. -/
theorem recovered_of_countable {p : Program} (h : p.Countable) (rest : List UInt8) :
    Program.ofBytes (p.toBytes ++ rest) = .ok p ∧
      (∀ q : Program, q.Countable → q.toBytes = p.toBytes → q = p) ∧
      (decodeProgram (p.toBytes ++ rest) = .ok p ↔ p.verify = .ok ()) ∧
      ∀ e, p.verify = .error e → decodeProgram (p.toBytes ++ rest) = .error (.verify e) := by
  have hdecode := decodeProgram_append h rest
  refine ⟨Program.ofBytes_append h rest, fun q hq hbytes => ?_, ⟨fun hok => ?_, fun hverify => ?_⟩,
    fun e hverify => ?_⟩
  · -- both programs come back from the same bytes
    have hback := Program.ofBytes_append h rest
    rw [← hbytes] at hback
    have hboth := (Program.ofBytes_append hq rest).symm.trans hback
    exact Except.ok.inj hboth
  · cases hverify : p.verify with
    | ok u => rfl
    | error e =>
      rw [hdecode, hverify] at hok
      cases hok
  · rw [hdecode, hverify]
  · rw [hdecode, hverify]

/-- Names of several bytes a character, constants and an entry point of the greatest length. -/
def farEntryProgram : Program where
  chunks := #[⟨"<entry>", #[.ofOpcode .halt], #[]⟩,
    ⟨"π→𝄞", #[⟨0xFF, 1, 2, 3⟩, .ofBytes .return_ 0 0 0], #[0xFFFFFFFF, 127, 128, 0]⟩]
  entryPoint := 0xFFFFFFFFFFFFFFFF
  externals := #["", "Größe"]

theorem recovered_of_farEntry :
    farEntryProgram.Countable ∧
      Program.ofBytes (farEntryProgram.toBytes ++ [0x80, 0x80]) = .ok farEntryProgram ∧
      ∃ e, farEntryProgram.verify = .error e ∧
        decodeProgram (farEntryProgram.toBytes ++ [0x80, 0x80]) = .error (.verify e) := by
  have hlength : farEntryProgram.toBytes.length < 2 ^ 64 := by decide +kernel
  have hcountable := Program.countable_of_length hlength
  obtain ⟨hback, -, -, hrefused⟩ := recovered_of_countable hcountable [0x80, 0x80]
  exact ⟨hcountable, hback, _, rfl, hrefused _ rfl⟩

end WordScript
