import Mathlib

/-!
# Buffers and `memcpy`

A buffer is a function from positions to cells, an object of size `n` a
function on `Fin n`.  Copying an object into a buffer and out of it again
gives the object, and a copy elsewhere changes nothing of it: the rules by
which a layout of consecutive objects is read back.
-/

namespace Memory

variable {α : Type*}

/-- The memory behind a pointer. -/
abbrev Buffer (α : Type*) := Nat → α

/-- `memcpy(buf + pos, src, n)` -/
def store {n : Nat} (buf : Buffer α) (pos : Nat) (src : Fin n → α) : Buffer α :=
  fun i => if h : pos ≤ i ∧ i < pos + n then src ⟨i - pos, by omega⟩ else buf i

/-- `memcpy(dst, buf + pos, n)`: what `dst` holds. -/
def load (buf : Buffer α) (pos n : Nat) : Fin n → α :=
  fun j => buf (pos + j)

section Copies

variable {m n p q i : Nat} {buf : Buffer α} {src : Fin n → α}

/-- Where it is stored, the source is read. -/
theorem store_inside (h : i < n) : store buf p src (p + i) = src ⟨i, h⟩ := by
  rw [store, dif_pos (by omega)]
  congr 1
  simp

/-- Elsewhere the buffer is as before. -/
theorem store_outside (h : i < p ∨ p + n ≤ i) : store buf p src i = buf i := by
  rw [store, dif_neg (by omega)]

@[simp] theorem load_store_self : load (store buf p src) p n = src := by
  funext j
  rw [load, store_inside j.isLt]

/-- A copy into another range leaves what is read here. -/
theorem load_store_disjoint (h : p + m ≤ q ∨ q + n ≤ p) :
    load (store buf q src) p m = load buf p m := by
  funext j
  rw [load, store_outside (by omega)]
  rfl

/-- A load depends on the bytes of its range only. -/
theorem load_congr {buf' : Buffer α} (h : ∀ i, p ≤ i → i < p + m → buf i = buf' i) :
    load buf p m = load buf' p m := by
  funext j
  exact h _ (by omega) (by omega)

/-- Two stores of the same object over buffers that agree outside it agree. -/
theorem store_congr {buf' : Buffer α} (h : (i < p ∨ p + n ≤ i) → buf i = buf' i) :
    store buf p src i = store buf' p src i := by
  by_cases hi : i < p ∨ p + n ≤ i
  · rw [store_outside hi, store_outside hi, h hi]
  · obtain ⟨j, rfl⟩ := Nat.exists_eq_add_of_le (show p ≤ i by omega)
    rw [store_inside (by omega), store_inside (by omega)]

end Copies

end Memory
