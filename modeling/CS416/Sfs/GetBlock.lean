import CS416.Sfs.Frames

/-!
# The scan of `get_block`

The counter of the scan is a `short`.  It goes up to the first free block, if
there is one.  If there is none it goes on from 32767 to -32768, in front of
`disk_blocks`: it never comes to `NUM_BLOCKS`, and `-1` is never returned.
-/

namespace Sfs

open CInt

/-- The entries of `disk_blocks` that the scan reads in `n` rounds from `i` on. -/
def scanReads (used : Int → Int) : Nat → Int → List Int
  | 0, _ => []
  | n + 1, i =>
    if i < numBlocks then
      i :: if used i = FREE then [] else scanReads used n (toShort (i + 1))
    else []

/-- Block `i` is the first free one, and `get_block` marks it. -/
def TakesFirst (s : FS) (i : Int) : Prop :=
  0 ≤ i ∧ i < numBlocks ∧ s.diskBlocks i = FREE ∧
    (∀ j, 0 ≤ j → j < i → s.diskBlocks j ≠ FREE) ∧ getBlock s = .ok (i, s.setUsed i ALLOCD)

/-- What `get_block` should do: the scan ends, reads entries of the table only, and comes to
the first free block or, if there is none, to `-1`. -/
def GetBlockOk (s : FS) : Prop :=
  ∃ n i, getBlockScan s.diskBlocks n 0 = some i ∧
    (∀ j ∈ scanReads s.diskBlocks n 0, 0 ≤ j ∧ j < numBlocks) ∧
    (TakesFirst s i ∨ ¬ HasFreeBlock s ∧ i = -1 ∧ getBlock s = .ok (-1, s))

section Scan

variable {used : Int → Int} {n : Nat} {i b : Int}

/-- The scan up to a free block stays in the table. -/
theorem scanReads_range (hb : b < numBlocks) (hfree : used b = FREE) (hi : 0 ≤ i) (hib : i ≤ b) :
    ∀ j ∈ scanReads used n i, 0 ≤ j ∧ j < numBlocks := by
  induction n generalizing i with
  | zero => simp [scanReads]
  | succ n ih =>
      have hlt : i < numBlocks := lt_of_le_of_lt hib hb
      intro j hj
      rw [scanReads, if_pos hlt, List.mem_cons] at hj
      rcases hj with rfl | hj
      · exact ⟨hi, hlt⟩
      · by_cases hused : used i = FREE
        · rw [if_pos hused] at hj
          cases hj
        · have hne : i ≠ b := by
            intro heq
            exact hused (heq ▸ hfree)
          have hnext : toShort (i + 1) = i + 1 := by
            simp only [numBlocks] at hb
            exact toShort_of_range (by omega) (by omega)
          rw [if_neg hused, hnext] at hj
          exact ih (by omega) (by omega) j hj

/-- **Without a free block** a scan that ends has read in front of the table. -/
theorem scanReads_full (hfull : ∀ j, 0 ≤ j → j < numBlocks → used j ≠ FREE) (hi : 0 ≤ i)
    (hlt : i < numBlocks) (h : getBlockScan used n i = some b) :
    -32768 ∈ scanReads used n i := by
  induction n generalizing i with
  | zero => cases h
  | succ n ih =>
      have hused := hfull i hi hlt
      rw [getBlockScan, if_pos hlt, if_neg hused] at h
      rw [scanReads, if_pos hlt, if_neg hused]
      apply List.mem_cons_of_mem
      simp only [numBlocks] at hlt
      by_cases hlast : i = 32767
      · have hwrap : toShort (i + 1) = -32768 := by
          rw [hlast]
          decide
        rw [hwrap] at h ⊢
        cases n with
        | zero => cases h
        | succ n =>
            rw [scanReads, if_pos (by decide)]
            exact List.mem_cons_self
      · have hnext : toShort (i + 1) = i + 1 := toShort_of_range (by omega) (by omega)
        rw [hnext] at h ⊢
        exact ih (by omega) (by simp only [numBlocks]; omega) h

end Scan

section Spec

variable {s : FS}

/-- Where `get_block` answers, a block is free. -/
theorem GetBlockOk.hasFree (h : GetBlockOk s) : HasFreeBlock s := by
  obtain ⟨n, i, hscan, hreads, _⟩ := h
  by_contra hnone
  have hfull : ∀ j, 0 ≤ j → j < numBlocks → s.diskBlocks j ≠ FREE := by
    intro j h₀ h₁ hfree
    exact hnone ⟨j, h₀, h₁, hfree⟩
  have hfront := hreads _ (scanReads_full hfull (le_refl 0) (by decide) hscan)
  exact absurd hfront.1 (by decide)

/-- **When `get_block` does what it should.** -/
theorem get_block_iff (s : FS) : GetBlockOk s ↔ HasFreeBlock s := by
  constructor
  · intro h
    exact h.hasFree
  · intro h
    obtain ⟨b, hget, htaken⟩ := getBlock_of_free h
    have hlt := htaken.lt
    have hscan : getBlockScan s.diskBlocks 65536 0 = some b := by
      simp only [numBlocks] at hlt
      exact getBlockScan_hit htaken.lt htaken.free (le_refl 0) htaken.nonneg (by omega)
        htaken.least
    exact ⟨65536, b, hscan, scanReads_range hlt htaken.free (le_refl 0) htaken.nonneg,
      Or.inl ⟨htaken.nonneg, hlt, htaken.free, htaken.least, hget⟩⟩

/-- All blocks are taken. -/
theorem full_disk_runs_off : ¬ ∀ s, GetBlockOk s := by
  intro hclaim
  obtain ⟨b, _, _, hfree⟩ :=
    (hclaim { zeroMemory with diskBlocks := fun _ => ALLOCD }).hasFree
  have htaken : ALLOCD = FREE := hfree
  exact absurd htaken (by decide)

end Spec

end Sfs
