import Mathlib

/-!
# Files as lists

`pread` and `pwrite` move items at an offset.  A write past the end fills the
gap with zeros, and nothing is read behind the end.  A file is known by its
length and by `itemAt`, its items followed by zeros; `blockAt` is the same by
blocks of a fixed size.
-/

namespace ByteFile

variable {α : Type*} [Zero α] {file data : List α} {count offset size i m n : Nat}

/-- Up to `count` items from `offset` on. -/
def pread (file : List α) (count offset : Nat) : List α := (file.drop offset).take count

def pwrite (file data : List α) (offset : Nat) : List α :=
  file.take offset ++ List.replicate (offset - file.length) 0 ++ data ++
    file.drop (offset + data.length)

def itemAt (file : List α) (i : Nat) : α := file.getD i 0

/-- Block number `n`, as far as there is one. -/
def blockAt (size : Nat) (file : List α) (n : Nat) : Fin size → α :=
  fun j => itemAt file (size * n + j)

/-- Behind the end of the file there are zeros. -/
theorem itemAt_of_le (h : file.length ≤ i) : itemAt file i = 0 := by
  rw [itemAt, List.getD_eq_getElem?_getD, List.getElem?_eq_none h, Option.getD_none]

private theorem itemAt_append (file data : List α) (i : Nat) : itemAt (file ++ data) i =
    if i < file.length then itemAt file i else itemAt data (i - file.length) := by
  unfold itemAt
  split
  · exact List.getD_append _ _ _ _ ‹_›
  · exact List.getD_append_right _ _ _ _ (Nat.le_of_not_lt ‹_›)

private theorem itemAt_drop (file : List α) (k i : Nat) :
    itemAt (file.drop k) i = itemAt file (k + i) := by
  simp [itemAt, List.getD_eq_getElem?_getD]

private theorem itemAt_take (h : i < n) : itemAt (file.take n) i = itemAt file i := by
  simp [itemAt, List.getD_eq_getElem?_getD, h]

private theorem itemAt_replicate (k i : Nat) : itemAt (List.replicate k (0 : α)) i = 0 := by
  simp [itemAt, List.getD_eq_getElem?_getD, List.getElem?_replicate]
  split <;> rfl

section Transfers

omit [Zero α] in
/-- A read ends with the file. -/
theorem length_pread (file : List α) (count offset : Nat) :
    (pread file count offset).length = min count (file.length - offset) := by
  simp [pread]

/-- What is read is what lies there, and zeros behind the end. -/
theorem itemAt_pread (h : i < count) : itemAt (pread file count offset) i =
    itemAt file (offset + i) := by
  rw [pread, itemAt_take h, itemAt_drop]

/-- A write makes the file as long as it reaches. -/
theorem length_pwrite (hdata : data ≠ []) : (pwrite file data offset).length =
    max file.length (offset + data.length) := by
  have hpos := List.length_pos_iff.mpr hdata
  simp only [pwrite, List.length_append, List.length_take, List.length_replicate,
    List.length_drop]
  omega

/-- **What a write does.** -/
theorem itemAt_pwrite (file data : List α) (offset i : Nat) : itemAt (pwrite file data offset) i =
    if offset ≤ i ∧ i < offset + data.length then itemAt data (i - offset)
    else itemAt file i := by
  have hstart : (file.take offset ++ List.replicate (offset - file.length) 0).length = offset := by
    simp only [List.length_append, List.length_take, List.length_replicate]
    omega
  have hbefore : ∀ k < offset,
      itemAt (file.take offset ++ List.replicate (offset - file.length) 0) k = itemAt file k := by
    intro k hk
    rw [itemAt_append, List.length_take]
    split
    · exact itemAt_take hk
    · rw [itemAt_replicate, itemAt_of_le (by omega)]
  rw [pwrite, itemAt_append, List.length_append, hstart]
  by_cases hend : i < offset + data.length
  · rw [if_pos hend, itemAt_append, hstart]
    by_cases hlt : i < offset
    · rw [if_pos hlt, if_neg (by omega)]
      exact hbefore i hlt
    · rw [if_neg hlt, if_pos ⟨Nat.le_of_not_lt hlt, hend⟩]
  · rw [if_neg hend, if_neg (fun h => hend h.2), itemAt_drop]
    congr 1
    omega

end Transfers

section Blocks

/-- Blocks do not overlap. -/
theorem block_disjoint {j : Nat} (hj : j < size) (hne : m ≠ n) :
    ¬ (size * n ≤ size * m + j ∧ size * m + j < size * n + size) := by
  intro h
  rcases Nat.lt_or_gt_of_ne hne with hlt | hgt
  · have hle : size * m + size ≤ size * n := by
      rw [← Nat.mul_succ]
      exact Nat.mul_le_mul_left _ hlt
    omega
  · have hle : size * n + size ≤ size * m := by
      rw [← Nat.mul_succ]
      exact Nat.mul_le_mul_left _ hgt
    omega

/-- A block that is written is read back. -/
theorem blockAt_pwrite_self (block : Fin size → α) (file : List α) (n : Nat) :
    blockAt size (pwrite file (List.ofFn block) (size * n)) n = block := by
  funext j
  have hj := j.isLt
  rw [blockAt, itemAt_pwrite, List.length_ofFn, if_pos ⟨by omega, by omega⟩,
    Nat.add_sub_cancel_left, itemAt, List.getD_eq_getElem?_getD]
  simp

/-- The other blocks stay as they are. -/
theorem blockAt_pwrite_ne (block : Fin size → α) (file : List α) (hne : m ≠ n) :
    blockAt size (pwrite file (List.ofFn block) (size * n)) m = blockAt size file m := by
  funext j
  rw [blockAt, itemAt_pwrite, List.length_ofFn, if_neg (block_disjoint j.isLt hne)]
  rfl

/-- A write of a block keeps a file of whole blocks so. -/
theorem length_pwrite_block {k : Nat} (block : Fin size → α) (hsize : 0 < size)
    (hlen : file.length = size * k) :
    (pwrite file (List.ofFn block) (size * n)).length = size * max k (n + 1) := by
  have hdata : List.ofFn block ≠ [] := by
    rw [← List.length_pos_iff, List.length_ofFn]
    exact hsize
  rw [length_pwrite hdata, List.length_ofFn, hlen, ← Nat.mul_succ, Nat.mul_max_mul_left]

omit [Zero α] in
/-- Of a file of whole blocks, a block is read whole or not at all. -/
theorem length_pread_block {k : Nat} (hlen : file.length = size * k) :
    (pread file size (size * n)).length = if n < k then size else 0 := by
  rw [length_pread, hlen, ← Nat.mul_sub]
  split
  · have hle : size * 1 ≤ size * (k - n) := Nat.mul_le_mul_left _ (by omega)
    omega
  · rw [Nat.sub_eq_zero_of_le (by omega)]
    simp

/-- A read of a block gives its bytes. -/
theorem itemAt_pread_block (j : Fin size) :
    itemAt (pread file size (size * n)) j = blockAt size file n j := itemAt_pread j.isLt

/-- A block behind the end of the file is zero. -/
theorem blockAt_of_le {k : Nat} (hlen : file.length = size * k) (h : k ≤ n) :
    blockAt size file n = fun _ => 0 := by
  funext j
  have hle : size * k ≤ size * n := Nat.mul_le_mul_left _ h
  exact itemAt_of_le (by omega)

end Blocks

end ByteFile
