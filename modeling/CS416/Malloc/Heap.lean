import Mathlib

/-!
# The allocator of `mymalloc.c`

The array `mem` starts with a table of `mem_block`s, one for each page of 4092
bytes, and a last block whose `next` is `NULL`.  A pointer to a block is its
index in the table, and `++curr_block` the next index; an address is a number,
`NULL` is 0, and `mem` the address of the array.

The blocks behind the table are bytes of `mem` too, zero up to the first page;
the loops below that leave the table read or clear such blocks.  `none` is a
call that does not return: it goes through a null pointer or leaves `mem`.
-/

namespace Malloc

/-- `TOTSIZE` -/
abbrev totSize : Nat := 8388608

/-- `PAGE_SIZE` -/
abbrev pageSize : Nat := 4092

/-- `PAGEAREASTART` -/
abbrev pageAreaStart : Nat := totSize / 100

/-- `LIBPAGESTART` -/
abbrev libPageStart : Nat := totSize - totSize / 4

/-- `THREADREQ` -/
abbrev THREADREQ : Int := 0

/-- `sizeof(mem_block)` -/
abbrev sizeofMemBlock : Nat := 40

/-- `mem_block`, without the field `size` that no call reads. -/
@[ext] structure MemBlock where
  next : Option Nat
  nextPage : Option Nat
  allocStart : Nat
  isFree : Int
  pageNum : Int
  TID : Int

/-- A block of zero bytes. -/
def MemBlock.zero : MemBlock := ⟨none, none, 0, 0, 0, 0⟩

/-- The blocks that `mem` is read as. -/
abbrev Heap := Nat → MemBlock

/-- `mem` when the program starts. -/
def Heap.start : Heap := fun _ => MemBlock.zero

/-- The loop that lays out the table on the first call. -/
def setUpPages (mem memIndex : Nat) (pageNum : Int) (curr : Nat) (h : Heap) : Heap :=
  if memIndex < totSize - pageSize then
    let h := Function.update h curr
      { h curr with isFree := 1, pageNum := pageNum, TID := 0, allocStart := mem + memIndex,
                    nextPage := none, next := some (curr + 1) }
    let h := Function.update h (curr + 1) { h (curr + 1) with next := none }
    setUpPages mem (memIndex + pageSize) (pageNum + 1) (curr + 1) h
  else h
termination_by totSize - memIndex
decreasing_by simp only [totSize, pageSize] at *; omega

/-- The table, laid out if it was not: `meta_ptr->page_num` is 0 before the first call. -/
def ready (mem : Nat) (h : Heap) : Heap :=
  if (h 0).pageNum = 0 then setUpPages mem pageAreaStart 1 0 h else h

/-- The search for the first block that is free, or the last one. -/
def findFree (h : Heap) (curr : Nat) : Nat :=
  if ((h curr).isFree = 0 ∧ (h curr).next ≠ none) ∧ sizeofMemBlock * curr < libPageStart then
    findFree h (curr + 1)
  else curr
termination_by libPageStart - curr
decreasing_by simp only [sizeofMemBlock] at *; omega

/-- The search for `need` free blocks in a row: how many were found, and `saved_block`. -/
def findRun (h : Heap) (need curr found : Nat) (saved : Option Nat) :
    Option (Nat × Option Nat) :=
  if totSize < sizeofMemBlock * (curr + 1) then none
  else if (h curr).next = none then some (found, saved)
  else if need = found then some (found, saved)
  else if (h curr).isFree ≠ 0 ∧ found = 0 then findRun h need (curr + 1) (found + 1) (some curr)
  else if (h curr).isFree ≠ 0 ∧ found ≠ 0 then findRun h need (curr + 1) (found + 1) saved
  else if (h curr).isFree = 0 ∧ found ≠ 0 then findRun h need (curr + 1) 0 saved
  else findRun h need (curr + 1) found saved
termination_by totSize - curr
decreasing_by all_goals simp only [totSize, sizeofMemBlock] at *; omega

/-- `n` rounds of the loop that links and marks blocks from `saved_block` on. -/
def markPages (saved : Nat) : Nat → Heap → Heap
  | 0, h => h
  | n + 1, h => markPages (saved + 1) n
      (Function.update h saved { h saved with nextPage := (h saved).next, isFree := 0 })

/-- `num_page_need` -/
def numPageNeed (size : Nat) : Nat :=
  if size % pageSize = 0 then size / pageSize else size / pageSize + 1

/-- `mymalloc`; the loop at its end runs up to and including `num_page_need`. -/
def mymalloc (mem size : Nat) (request : Int) (h : Heap) : Option (Nat × Heap) :=
  let h := ready mem h
  if totSize - (totSize - totSize / 100) < size then some (0, h)
  else
    let curr := if request = 0 then findFree h 0 else 0
    if (h 0).allocStart + 7920000 < (h curr).allocStart + size then some (0, h)
    else if size ≤ pageSize then
      some ((h curr).allocStart, Function.update h curr { h curr with isFree := 0 })
    else do
      let (found, saved) ← findRun h (numPageNeed size) curr 0 none
      let block ← saved
      let ret := if numPageNeed size = found then (h block).allocStart else 0
      return (ret, markPages block (numPageNeed size + 1) h)

/-- The search for the block of an address; it ends with the table's memory. -/
def findBlock (mem index limit : Nat) (h : Heap) (curr : Nat) : Nat :=
  if (h curr).allocStart ≠ index ∧ mem + sizeofMemBlock * curr < limit then
    findBlock mem index limit h (curr + 1)
  else curr
termination_by limit - curr
decreasing_by simp only [sizeofMemBlock] at *; omega

/-- `while(curr_block->next_page != NULL) curr_block++->next_page = NULL;` -/
def clearLinks (curr : Nat) (h : Heap) : Option Heap :=
  if totSize < sizeofMemBlock * (curr + 1) then none
  else if (h curr).nextPage = none then some h
  else clearLinks (curr + 1) (Function.update h curr { h curr with nextPage := none })
termination_by totSize - curr
decreasing_by all_goals simp only [totSize, sizeofMemBlock] at *; omega

/-- `myfree` -/
def myfree (mem index : Nat) (h : Heap) : Option Heap :=
  if index < mem ∨ mem + totSize ≤ index then some h
  else
    let curr := findBlock mem index (h 0).allocStart h 0
    if (h curr).allocStart ≠ index then some h
    else clearLinks curr (Function.update h curr { h curr with isFree := 1 })

end Malloc
