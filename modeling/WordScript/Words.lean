/-
Runs of words in an array.

The stack and the heap are arrays of words; values of several words are read and
written as runs.  Writing never changes the size of an array.

* `Words.write`, `Words.clear` — words replaced from an index on;
* `Words.size_write`, `Words.size_clear` — the size stays.
-/
import WordScript.Word

namespace WordScript.Words

/-- Writes the words of a list from `index` on; what would fall outside the array is dropped. -/
def write (words : Array Word) (index : Nat) : List Word → Array Word
  | [] => words
  | w :: ws => write (words.setIfInBounds index w) (index + 1) ws

/-- Sets `count` words from `index` on to zero. -/
def clear (words : Array Word) (index : Nat) : Nat → Array Word
  | 0 => words
  | count + 1 => clear (words.setIfInBounds index 0) (index + 1) count

/-- The run of `count` words at an index. -/
def run (words : Array Word) (index count : Nat) : Array Word :=
  words.extract index (index + count)

/-- Moves the run of `count` words at `source` down to `target` and drops everything after it. -/
def moveDown (words : Array Word) (source target count : Nat) : Array Word :=
  (write words target (run words source count).toList).shrink (target + count)

@[simp] theorem size_write (words : Array Word) (index : Nat) (ws : List Word) :
    (write words index ws).size = words.size := by
  induction ws generalizing words index with
  | nil => rfl
  | cons w ws ih => rw [write, ih, Array.size_setIfInBounds]

@[simp] theorem size_clear (words : Array Word) (index count : Nat) :
    (clear words index count).size = words.size := by
  induction count generalizing words index with
  | zero => rfl
  | succ count ih => rw [clear, ih, Array.size_setIfInBounds]

/-- Words before the written run keep their value. -/
theorem getElem?_write_of_lt {words : Array Word} {index j : Nat} {ws : List Word} (h : j < index) :
    (write words index ws)[j]? = words[j]? := by
  induction ws generalizing words index with
  | nil => rfl
  | cons w ws ih =>
    rw [write, ih (by omega), Array.getElem?_setIfInBounds_ne (by omega)]

end WordScript.Words
