/-
Lists on the heap.

A list is a block: its length, its capacity, and room for that many elements.
The zero word is the empty list without a block.  A list that is full moves to a
block of twice the capacity, and its old block is freed.

The sizes of blocks are checked.  Positions of elements are not: a position that is
past the greatest word is an overflow.

* `Exec.newList`, `Exec.pushList`, `Exec.growList` — making and extending lists;
* `Exec.indexList`, `Exec.freeList` — access and release.
-/
import WordScript.Machine.Basic

namespace WordScript

namespace ListBlock

/-- The capacity of a list that is made by its first element. -/
def initialCapacity : Word := 4

/-- The words before the elements. -/
def headerWords : Word := 2

/-- The words of a block with room for `capacity` elements. -/
def words (capacity elementWords : Word) : Except Fault Word :=
  if capacity.toNat * elementWords.toNat + 2 < 4294967296 then
    .ok (capacity * elementWords + headerWords)
  else .error (.invalidProgram .listBlockTooLarge)

/-- A number that is computed with words. -/
def computed (n : Nat) : Except Fault Word :=
  if n < 4294967296 then .ok (UInt32.ofNat n) else .error .overflow

/-- The words of a block before the element with a number. -/
def wordsBefore (number elementWords : Word) : Except Fault Word :=
  computed (2 + number.toNat * elementWords.toNat)

end ListBlock

namespace Exec

/-- Makes an empty list with room for `capacity` elements and gives its address. -/
def newList (elementWords capacity : Word) : Exec Word := do
  let words ← lift (ListBlock.words capacity elementWords)
  let index ← allocate words.toNat
  heapWrite (index + 1) capacity
  return Address.ofHeap index

/-- Moves a full list to a larger block and gives the index of that block. -/
def growList (index : Nat) (length capacity elementWords : Word) : Exec Nat := do
  if 4294967296 ≤ capacity.toNat * 2 then throw (.invalidProgram .listCapacityOverflow)
  let newCapacity := max (capacity * 2) ListBlock.initialCapacity
  let grown ← allocate (← lift (ListBlock.words newCapacity elementWords)).toNat
  let used ← lift (ListBlock.wordsBefore length elementWords)
  let block ← heapSlice index used.toNat
  heapStore grown block.toList
  heapWrite (grown + 1) newCapacity
  deallocate index (← lift (ListBlock.words capacity elementWords)).toNat
  return grown

/-- Appends the element on top of the stack to the list in the slot whose address lies below it. -/
def pushList (elementWords : Word) : Exec Unit := do
  let at_ ← top elementWords.toNat
  let slotAt ← below at_ 1
  let slot := ((← get).stack[slotAt]?).getD 0
  let mut list ← load slot
  if list = 0 then
    list ← newList elementWords ListBlock.initialCapacity
    store slot list
  let index ← lift (Address.heapIndex list)
  let length ← heapRead index
  let capacity ← heapRead (index + 1)
  let mut place := index
  if capacity ≤ length then
    place ← growList index length capacity elementWords
    store slot (Address.ofHeap place)
  let element ← lift (ListBlock.computed (place + 2 + length.toNat * elementWords.toNat))
  let value ← stackRun at_ elementWords.toNat
  heapStore element.toNat value.toList
  heapWrite place (← lift (ListBlock.computed (length.toNat + 1)))
  truncate slotAt

/-- The number of elements of a list. -/
def lengthList (list : Word) : Exec Word :=
  if list = 0 then return 0 else load list

/-- The address of an element; list and index lie on the stack. -/
def indexList (elementWords : Word) : Exec Unit := do
  let index ← popWord
  let list ← popWord
  let length ← lengthList list
  lift (Address.checkIndex index length)
  let before ← lift (ListBlock.wordsBefore index elementWords)
  pushWord (← lift (Address.offset list before))

/-- Frees the list in the slot whose address lies on the stack and empties the slot. -/
def freeList (elementWords : Word) : Exec Unit := do
  let slot ← popWord
  let list ← load slot
  if list ≠ 0 then
    let capacity ← load (← lift (Address.offset list 1))
    let words ← lift (ListBlock.words capacity elementWords)
    deallocate (← lift (Address.heapIndex list)) words.toNat
    store slot 0

end Exec

end WordScript
