/-
Numbers and words set in columns.

Every width is a least width: a text that is already longer is left alone.
-/
namespace WordScript.Text

/-- The text moved to the right end of a column of the given width. -/
def alignRight (width : Nat) (fill : Char) (s : String) : String :=
  String.ofList (List.replicate (width - s.length) fill) ++ s

/-- The text moved to the left end of a column of the given width. -/
def alignLeft (width : Nat) (s : String) : String :=
  s ++ String.ofList (List.replicate (width - s.length) ' ')

/-- A number in decimal with at least `width` digits. -/
def zeroPadded (width n : Nat) : String :=
  alignRight width '0' (toString n)

/-- A number in lower-case hexadecimal with at least `digits` digits, after `0x`. -/
def hexadecimal (digits n : Nat) : String :=
  "0x" ++ alignRight digits '0' (String.ofList (Nat.toDigits 16 n))

/-- An integer that always carries its sign. -/
def signed (i : Int) : String :=
  if i < 0 then toString i else "+" ++ toString i

theorem length_alignRight (width : Nat) (fill : Char) (s : String) :
    (alignRight width fill s).length = max width s.length := by
  simp [alignRight]; omega

theorem length_alignLeft (width : Nat) (s : String) :
    (alignLeft width s).length = max width s.length := by
  simp [alignLeft]; omega

end WordScript.Text
