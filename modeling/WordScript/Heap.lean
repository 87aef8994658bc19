/-
The heap: an arena of words with an explicit free list.

Blocks are handed out from the end of the arena, or from the free list if a
freed block is long enough, and are never joined again.  The free list is kept
in the order in which it is searched: longer chunks first, and among equally long
ones the one with the lower index.  A request looks at a bounded number of the
chunks that fit, takes the last of them, and gives the tail it does not need back
to the list.

* `FreeChunk.insert` — the list stays in order;
* `Heap.allocate`, `Heap.deallocate` — requests and returns;
* `Heap.read`, `write`, `slice`, `store`, `copyWithin` — access with bounds.
-/
import WordScript.Words

namespace WordScript

/-- Words of the arena that are not in use. -/
structure FreeChunk where
  index : Nat
  length : Nat
deriving Repr, DecidableEq

namespace FreeChunk

/-- The order of the free list: longer first, then the lower index. -/
def precedes (x y : FreeChunk) : Bool :=
  y.length < x.length || (x.length == y.length && x.index ≤ y.index)

/-- Puts a chunk in its place. -/
def insert (x : FreeChunk) : List FreeChunk → List FreeChunk
  | [] => [x]
  | y :: ys => if x.precedes y then x :: y :: ys else y :: insert x ys

/-- Whether the chunk has a word in common with the range of `length` words at `index`. -/
def meets (x : FreeChunk) (index length : Nat) : Bool :=
  x.index < index + length && index < x.index + x.length

theorem perm_insert (x : FreeChunk) (ys : List FreeChunk) : (insert x ys).Perm (x :: ys) := by
  induction ys with
  | nil => exact .refl _
  | cons y ys ih =>
    rw [insert]
    split
    · exact .refl _
    · exact (ih.cons y).trans (.swap x y ys)

@[simp] theorem mem_insert {x z : FreeChunk} {ys : List FreeChunk} :
    z ∈ insert x ys ↔ z = x ∨ z ∈ ys := by
  rw [(perm_insert x ys).mem_iff, List.mem_cons]

@[simp] theorem length_insert (x : FreeChunk) (ys : List FreeChunk) :
    (insert x ys).length = ys.length + 1 := by
  rw [(perm_insert x ys).length_eq, List.length_cons]

end FreeChunk

/-- Why the heap refuses a request. -/
inductive HeapError where
  | exhausted (requested limit : Nat)
  | outOfBounds (index length : Nat)
  | doubleFree (index length : Nat)
deriving Repr, DecidableEq

namespace HeapError

/-- The wording of an error. -/
def message : HeapError → String
  | exhausted requested limit =>
    "heap exhausted: " ++ toString requested ++ " words requested, limit is "
      ++ toString limit ++ " words"
  | outOfBounds index length =>
    "heap access out of bounds: " ++ toString length ++ " words at " ++ toString index
  | doubleFree index length =>
    "double free: " ++ toString length ++ " words at " ++ toString index ++ " are already free"

end HeapError

/-- An arena of words with its free list, its greatest size, and how many chunks that fit a request
looks at. -/
structure Heap where
  words : Array Word
  free : List FreeChunk
  maxWords : Nat
  scanLimit : Nat

namespace Heap

/-- A heap without words. -/
def empty (maxWords scanLimit : Nat) : Heap :=
  ⟨#[], [], maxWords, max scanLimit 1⟩

/-- The number of words in the arena, in use or not. -/
def size (h : Heap) : Nat :=
  h.words.size

/-- The number of words in the free list. -/
def freeWords (h : Heap) : Nat :=
  (h.free.map FreeChunk.length).foldr (· + ·) 0

/-- A block has at least one word, so that each has an index of its own. -/
def blockLength (length : Nat) : Nat :=
  max length 1

/-- Takes `length` words from the free list: their index and the list that is left. -/
def takeFree (scanLimit length : Nat) (free : List FreeChunk) : Option (Nat × List FreeChunk) :=
  let fits := free.takeWhile fun x => length ≤ x.length
  let place := min scanLimit fits.length - 1
  match fits[place]? with
  | none => none
  | some chosen =>
    let rest := free.eraseIdx place
    if length < chosen.length then
      some (chosen.index, FreeChunk.insert ⟨chosen.index + length, chosen.length - length⟩ rest)
    else some (chosen.index, rest)

/-- Where a new block goes, and the free list once it is there. -/
structure Placement where
  index : Nat
  free : List FreeChunk
  grows : Bool

/-- Finds room for `length` words: a chunk of the free list, or the end of the arena. -/
def placement (h : Heap) (length : Nat) : Except HeapError Placement :=
  match takeFree h.scanLimit length h.free with
  | some (index, free) => .ok ⟨index, free, false⟩
  | none =>
    if h.maxWords < h.words.size + length then .error (.exhausted length h.maxWords)
    else .ok ⟨h.words.size, h.free, true⟩

/-- Puts a block of zeros where there is room for it. -/
def place (h : Heap) (length : Nat) (p : Placement) : Heap :=
  if p.grows then { h with words := h.words ++ Array.replicate length 0, free := p.free }
  else { h with words := Words.clear h.words p.index length, free := p.free }

/-- Hands out a block of zeros and gives its index. -/
def allocate (h : Heap) (length : Nat) : Except HeapError (Nat × Heap) :=
  match h.placement (blockLength length) with
  | .error e => .error e
  | .ok p => .ok (p.index, h.place (blockLength length) p)

/-- Whether `length` words at `index` lie in the arena. -/
def inBounds (h : Heap) (index length : Nat) : Bool :=
  index + length ≤ h.words.size

/-- Takes a block back; no part of it may be free already. -/
def deallocate (h : Heap) (index length : Nat) : Except HeapError Heap :=
  let length := blockLength length
  if !h.inBounds index length then .error (.outOfBounds index length)
  else if h.free.any fun x => x.meets index length then .error (.doubleFree index length)
  else .ok { h with free := FreeChunk.insert ⟨index, length⟩ h.free }

/-- The word at an index. -/
def read (h : Heap) (index : Nat) : Except HeapError Word :=
  match h.words[index]? with
  | some w => .ok w
  | none => .error (.outOfBounds index 1)

/-- Puts words into the arena from an index on, without a check. -/
def put (h : Heap) (index : Nat) (ws : List Word) : Heap :=
  { h with words := Words.write h.words index ws }

/-- Replaces the word at an index. -/
def write (h : Heap) (index : Nat) (w : Word) : Except HeapError Heap :=
  if h.inBounds index 1 then .ok (h.put index [w]) else .error (.outOfBounds index 1)

/-- The `length` words at an index. -/
def slice (h : Heap) (index length : Nat) : Except HeapError (Array Word) :=
  if h.inBounds index length then .ok (Words.run h.words index length)
  else .error (.outOfBounds index length)

/-- Replaces words from an index on. -/
def store (h : Heap) (index : Nat) (ws : Array Word) : Except HeapError Heap :=
  if h.inBounds index ws.size then .ok (h.put index ws.toList)
  else .error (.outOfBounds index ws.size)

/-- Copies words inside the arena; the ranges may overlap. -/
def copyWithin (h : Heap) (source target length : Nat) : Except HeapError Heap :=
  if !h.inBounds source length then .error (.outOfBounds source length)
  else if !h.inBounds target length then .error (.outOfBounds target length)
  else .ok (h.put target (Words.run h.words source length).toList)

/-- Drops every block. -/
def clear (h : Heap) : Heap :=
  { h with words := #[], free := [] }

end Heap

end WordScript
