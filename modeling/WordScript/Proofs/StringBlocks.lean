/-
Texts in string blocks.

The bytes of a text are packed four to a word, and the last word is filled up with
zeros.  Reading cannot tell these zeros from zeros of the text, and takes them all
away.  The only character whose bytes end in a zero is the zero character itself,
so what reading takes away of the text are its zero characters at the end, and no
character is ever cut in the middle.

* `Word.bytes_ofBytes` — a word gives back the bytes it was made of;
* `StringBlock.bytes_payload` — the bytes of a payload;
* `StringBlock.trimmed` — a text without zero characters at the end;
* `StringBlock.decode_payload` — what is read of a text.
-/
import Mathlib.Data.List.DropRight
import WordScript.Proofs.ProgramBytes

namespace WordScript

/-! ### Bytes in words -/

namespace Word

/-- A byte of a word, counted in bits from the low end. -/
theorem toNat_toUInt8_shiftRight (w : Word) {k : Nat} (hk : k < 32) :
    (w >>> UInt32.ofNat k).toUInt8.toNat = w.toNat / 2 ^ k % 256 := by
  have hshift : (UInt32.ofNat k).toNat = k := UInt32.toNat_ofNat_of_lt' (Nat.lt_trans hk (by decide))
  rw [UInt32.toNat_toUInt8, UInt32.toNat_shiftRight, hshift, Nat.mod_eq_of_lt hk,
    Nat.shiftRight_eq_div_pow]

theorem toNat_ofBytes (a b c d : UInt8) : (ofBytes a b c d).toNat =
    a.toNat + 256 * b.toNat + 65536 * c.toNat + 16777216 * d.toNat := by
  have ha := a.toNat_lt
  have hb := b.toNat_lt
  have hc := c.toNat_lt
  have hd := d.toNat_lt
  have hlt : a.toNat + 256 * b.toNat + 65536 * c.toNat + 16777216 * d.toNat < 4294967296 := by
    omega
  exact UInt32.toNat_ofNat_of_lt' hlt

/-- A word gives back the bytes it was made of. -/
theorem bytes_ofBytes (a b c d : UInt8) : (ofBytes a b c d).bytes = [a, b, c, d] := by
  have ha := a.toNat_lt
  have hb := b.toNat_lt
  have hc := c.toNat_lt
  have hd := d.toNat_lt
  have hw := toNat_ofBytes a b c d
  have h₁ := toNat_toUInt8_shiftRight (ofBytes a b c d) (k := 8) (by decide)
  have h₂ := toNat_toUInt8_shiftRight (ofBytes a b c d) (k := 16) (by decide)
  have h₃ := toNat_toUInt8_shiftRight (ofBytes a b c d) (k := 24) (by decide)
  have hlow : (ofBytes a b c d).toUInt8 = a := by
    rw [← UInt8.toNat_inj, UInt32.toNat_toUInt8]
    omega
  have hsecond : (ofBytes a b c d >>> 8).toUInt8 = b := UInt8.toNat_inj.mp (h₁.trans (by omega))
  have hthird : (ofBytes a b c d >>> 16).toUInt8 = c := UInt8.toNat_inj.mp (h₂.trans (by omega))
  have hhigh : (ofBytes a b c d >>> 24).toUInt8 = d := UInt8.toNat_inj.mp (h₃.trans (by omega))
  rw [bytes, hlow, hsecond, hthird, hhigh]

end Word

namespace StringBlock

theorem bytes_push (done : Array Word) (a b c d : UInt8) :
    (done.push (Word.ofBytes a b c d)).toList.flatMap Word.bytes =
      done.toList.flatMap Word.bytes ++ [a, b, c, d] := by
  rw [Array.toList_push, List.flatMap_append, List.flatMap_singleton, Word.bytes_ofBytes]

/-- The first word of a block counts the others. -/
theorem toList_encode (s : String) :
    (encode s).toList = UInt32.ofNat (payload s).size :: (payload s).toList := by
  rw [encode, Array.toList_append]
  rfl

theorem size_encode (s : String) : (encode s).size = (payload s).size + 1 := by
  rw [← Array.length_toList, toList_encode, List.length_cons, Array.length_toList]

theorem getElem?_encode_zero (s : String) :
    (encode s)[0]? = some (UInt32.ofNat (payload s).size) := by
  rw [← Array.getElem?_toList, toList_encode, List.getElem?_cons_zero]

/-- Packing adds the bytes and some zeros. -/
theorem bytes_packFrom (done : Array Word) (bytes : List UInt8) :
    ∃ k, (packFrom done bytes).toList.flatMap Word.bytes =
      done.toList.flatMap Word.bytes ++ (bytes ++ List.replicate k 0) := by
  induction done, bytes using packFrom.induct with
  | case1 done => exact ⟨0, (List.append_nil _).symm⟩
  | case2 done a => exact ⟨3, bytes_push done a 0 0 0⟩
  | case3 done a b => exact ⟨2, bytes_push done a b 0 0⟩
  | case4 done a b c => exact ⟨1, bytes_push done a b c 0⟩
  | case5 done a b c d rest ih =>
    obtain ⟨k, hk⟩ := ih
    refine ⟨k, ?_⟩
    rw [packFrom, hk, bytes_push, List.append_assoc]
    rfl

/-- The bytes of a payload are those of the text and some zeros. -/
theorem bytes_payload (s : String) :
    ∃ k, (payload s).toList.flatMap Word.bytes = Utf8.encode s ++ List.replicate k 0 :=
  bytes_packFrom #[] (Utf8.encode s)

/-! ### Zeros at the end -/

theorem trimZeros_eq_rdropWhile (bytes : List UInt8) :
    trimZeros bytes = bytes.rdropWhile (· == 0) := rfl

theorem trimZeros_append_replicate (bytes : List UInt8) (k : Nat) :
    trimZeros (bytes ++ List.replicate k 0) = trimZeros bytes := by
  rw [trimZeros_eq_rdropWhile, trimZeros_eq_rdropWhile]
  induction k with
  | zero => rw [List.replicate_zero, List.append_nil]
  | succ k ih =>
    rw [List.replicate_succ', ← List.append_assoc, List.rdropWhile_concat_pos _ _ _ rfl, ih]

/-- Only the bytes of the zero character end in a zero. -/
theorem getLast_utf8EncodeChar {c : Char} (hc : c ≠ '\x00') :
    ∀ h : String.utf8EncodeChar c ≠ [], (String.utf8EncodeChar c).getLast h ≠ 0 := by
  have hval : c.val.toNat ≠ 0 := fun h0 =>
    hc (Char.ext (UInt32.toNat_inj.mp h0))
  have hbyte : ∀ n : Nat, 0 < n → n < 256 → UInt8.ofNat n ≠ 0 := by
    intro n hpos hlt h0
    have htoNat := congrArg UInt8.toNat h0
    rw [UInt8.toNat_ofNat_of_lt' hlt] at htoNat
    exact absurd htoNat (by simpa using Nat.ne_of_gt hpos)
  rw [String.utf8EncodeChar]
  generalize c.val.toNat = v at hval
  -- one case for each length of a character; the last byte is positive in each of them
  split
  · exact fun _ => hbyte _ (by omega) (by omega)
  · split
    · exact fun _ => hbyte _ (by omega) (by omega)
    · split
      · exact fun _ => hbyte _ (by omega) (by omega)
      · exact fun _ => hbyte _ (by omega) (by omega)

/-- A text without zero characters at the end. -/
def trimmed (s : String) : String :=
  String.ofList (s.toList.rdropWhile (· == '\x00'))

/-- Trimming the bytes trims the text. -/
theorem trimZeros_encode (s : String) : trimZeros (Utf8.encode s) = Utf8.encode (trimmed s) := by
  rw [trimmed, Utf8.encode, Utf8.encode, String.toList_ofList, trimZeros_eq_rdropWhile]
  induction s.toList using List.reverseRecOn with
  | nil => rfl
  | append_singleton cs c ih =>
    rw [List.flatMap_append, List.flatMap_singleton]
    by_cases hc : c = '\x00'
    · subst hc
      rw [show String.utf8EncodeChar '\x00' = [0] from rfl, List.rdropWhile_concat_pos _ _ _ rfl,
        List.rdropWhile_concat_pos _ _ _ rfl, ih]
    · rw [List.rdropWhile_concat_neg _ _ _ (by simpa using hc), List.flatMap_append,
        List.flatMap_singleton, List.rdropWhile_eq_self_iff]
      intro hne
      have hnil : String.utf8EncodeChar c ≠ [] := String.utf8EncodeChar_ne_nil
      rw [List.getLast_append_of_ne_nil _ hnil]
      simpa using getLast_utf8EncodeChar hc hnil

theorem trimmed_eq_iff (s : String) : trimmed s = s ↔ s.toList.getLast? ≠ some '\x00' := by
  rw [← String.toList_inj, trimmed, String.toList_ofList, List.rdropWhile_eq_self_iff]
  constructor
  · intro h hlast
    obtain ⟨cs, hcs⟩ := List.getLast?_eq_some_iff.mp hlast
    have hne : s.toList ≠ [] := by simp [hcs]
    exact h hne (by simp [hcs])
  · intro h hne hzero
    rw [List.getLast?_eq_some_getLast hne] at h
    exact h (congrArg some (eq_of_beq hzero))

end StringBlock

/-- The text of its own bytes. -/
theorem Utf8.decodeLossy_encode (s : String) : Utf8.decodeLossy (Utf8.encode s) = s := by
  have hread : (s.toList.map some).map (·.getD '\uFFFD') = s.toList := by
    rw [List.map_map]
    exact List.map_id _
  rw [decodeLossy, parts, encode, read_encode, List.reverse_nil, List.nil_append, hread,
    String.ofList_toList]

/-- What is read of the payload of a text is the text without zero characters at the end. -/
theorem StringBlock.decode_payload (s : String) : decode (payload s).toList = trimmed s := by
  obtain ⟨k, hbytes⟩ := bytes_payload s
  rw [decode, hbytes, trimZeros_append_replicate, trimZeros_encode, Utf8.decodeLossy_encode]

end WordScript
