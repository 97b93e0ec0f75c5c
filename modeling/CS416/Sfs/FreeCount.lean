import CS416.Sfs.FreshState

/-!
# Counting free blocks

`get_block` takes one free block, `set_block_index` the index blocks that the
inode does not have yet: at most two.  A call therefore finds its blocks if
enough of them are free before it.
-/

namespace Sfs

open CInt Outcome

/-- The free blocks. -/
def unmarked (s : FS) : Set Int := {b | 0 ≤ b ∧ b < numBlocks ∧ s.diskBlocks b = FREE}

/-- At least `k` blocks are free. -/
def FreeBlocks (k : Nat) (s : FS) : Prop := k ≤ (unmarked s).ncard

/-- The number of index blocks that `set_block_index` takes for logical block `n`. -/
def indexNeeds (s : FS) (ino n : Int) : Nat :=
  let nd := s.inodeTable ino
  if n < 10 then 0
  else if n < 110 then (if nd.blocks 10 < 0 then 1 else 0)
  else if n ≤ 1110 then
    (if nd.blocks 11 < 0 then 2
      else if (blockRead s.disk (nd.blocks 11)).short ((n - 110) / 100).toNat < 0 then 1 else 0)
  else 0

section Count

variable {s t : FS} {k : Nat} {ino n : Int}

private theorem unmarked_finite (s : FS) : (unmarked s).Finite :=
  (Set.finite_Ico 0 numBlocks).subset fun _ hb => ⟨hb.1, hb.2.1⟩

/-- Fewer blocks are free as well. -/
theorem FreeBlocks.mono {j : Nat} (h : FreeBlocks k s) (hjk : j ≤ k) : FreeBlocks j s :=
  le_trans hjk h

/-- The number of free blocks depends on the marks only. -/
theorem FreeBlocks.congr (h : FreeBlocks k s) (hused : t.diskBlocks = s.diskBlocks) :
    FreeBlocks k t := by
  unfold FreeBlocks unmarked at h ⊢
  rwa [hused]

/-- One of them is free. -/
theorem FreeBlocks.hasFree (h : FreeBlocks (k + 1) s) : HasFreeBlock s := by
  have hpos : 0 < (unmarked s).ncard := by
    unfold FreeBlocks at h
    omega
  obtain ⟨b, hb⟩ := (Set.ncard_pos (unmarked_finite s)).mp hpos
  exact ⟨b, hb⟩

/-- `get_block` takes a free block, and there is one fewer. -/
theorem getBlock_unmarked (h : HasFreeBlock s) :
    ∃ b, getBlock s = .ok (b, s.setUsed b ALLOCD) ∧
      (unmarked (s.setUsed b ALLOCD)).ncard + 1 = (unmarked s).ncard := by
  obtain ⟨b, hget, htaken⟩ := getBlock_of_free h
  have hfewer : unmarked (s.setUsed b ALLOCD) = unmarked s \ {b} := by
    ext c
    simp only [unmarked, Set.mem_ofPred_eq, Set.mem_sdiff, Set.mem_singleton_iff,
      FS.setUsed_diskBlocks]
    by_cases hc : c = b
    · subst c
      simp [ALLOCD, FREE]
    · simp [hc]
  refine ⟨b, hget, ?_⟩
  rw [hfewer]
  exact Set.ncard_sdiff_singleton_add_one
    (show b ∈ unmarked s from ⟨htaken.nonneg, htaken.lt, htaken.free⟩) (unmarked_finite s)

/-- `get_block` takes one of them. -/
theorem FreeBlocks.getBlock (h : FreeBlocks (k + 1) s) :
    ∃ b, Sfs.getBlock s = .ok (b, s.setUsed b ALLOCD) ∧ FreeBlocks k (s.setUsed b ALLOCD) := by
  obtain ⟨b, hget, hcount⟩ := getBlock_unmarked h.hasFree
  refine ⟨b, hget, ?_⟩
  unfold FreeBlocks at h ⊢
  omega

/-- The index block takes one of them. -/
theorem FreeBlocks.openSingle (h : FreeBlocks (k + 1) s)
    (hopen : (s.inodeTable ino).blocks 10 < 0) :
    ∃ r, Sfs.openSingle ino s = .ok r ∧ FreeBlocks k r.2 := by
  obtain ⟨b, hget, hfree⟩ := h.getBlock
  unfold Sfs.openSingle
  rw [if_pos hopen, hget]
  exact ⟨_, rfl, hfree⟩

/-- The doubly indirect block takes one of them. -/
theorem FreeBlocks.openDouble (h : FreeBlocks (k + 1) s) (env : Env)
    (hopen : (s.inodeTable ino).blocks 11 < 0) :
    ∃ r, Sfs.openDouble env ino s = .ok r ∧ FreeBlocks k r.2 := by
  obtain ⟨b, hget, hfree⟩ := h.getBlock
  unfold Sfs.openDouble
  rw [if_pos hopen, hget]
  exact ⟨_, rfl, hfree⟩

/-- A block below it takes one of them. -/
theorem FreeBlocks.openSub {j : Nat} {buf : Block} (h : FreeBlocks (k + 1) s) (ino : Int)
    (hopen : buf.short j < 0) :
    ∃ r, Sfs.openSub ino j buf s = .ok r ∧ FreeBlocks k r.2.2 := by
  obtain ⟨b, hget, hfree⟩ := h.getBlock
  unfold Sfs.openSub
  rw [if_pos hopen, hget]
  exact ⟨_, rfl, hfree⟩

/-- **`set_block_index` finds the index blocks that it needs.** -/
theorem FreeBlocks.setBlockIndex (h : FreeBlocks (k + indexNeeds s ino n) s) (env : Env)
    (b : Int) : ∃ t, Sfs.setBlockIndex env ino n b s = .ok t ∧ FreeBlocks k t := by
  unfold indexNeeds at h
  unfold Sfs.setBlockIndex
  dsimp only at h
  by_cases h₁ : n < 10
  · rw [if_pos h₁] at h ⊢
    exact ⟨_, rfl, h⟩
  by_cases h₂ : n < 110
  · rw [if_neg h₁, if_pos h₂] at h ⊢
    by_cases hsingle : (s.inodeTable ino).blocks 10 < 0
    · rw [if_pos hsingle] at h
      obtain ⟨r, hr, hfree⟩ := h.openSingle hsingle
      rw [hr]
      exact ⟨_, rfl, hfree⟩
    · rw [if_neg hsingle] at h
      rw [Sfs.openSingle, if_neg hsingle]
      exact ⟨_, rfl, h⟩
  by_cases h₃ : n ≤ 1110
  · rw [if_neg h₁, if_neg h₂, if_pos h₃] at h ⊢
    by_cases hdouble : (s.inodeTable ino).blocks 11 < 0
    · rw [if_pos hdouble] at h
      obtain ⟨⟨buf, v⟩, hr, hfree⟩ := FreeBlocks.openDouble (k := k + 1) h env hdouble
      rw [hr, ok_bind]
      dsimp only
      by_cases hsub : buf.short ((n - 110) / 100).toNat < 0
      · obtain ⟨⟨sub, buf', u⟩, hq, hfree'⟩ := hfree.openSub ino hsub
        rw [hq, ok_bind]
        exact ⟨_, rfl, hfree'.congr rfl⟩
      · rw [Sfs.openSub, if_neg hsub, pure_bind]
        exact ⟨_, rfl, (hfree.mono (Nat.le_succ k)).congr (FS.write_diskBlocks _ _ _)⟩
    · rw [if_neg hdouble] at h
      rw [Sfs.openDouble, if_neg hdouble, pure_bind]
      dsimp only
      by_cases hsub :
        (blockRead s.disk ((s.inodeTable ino).blocks 11)).short ((n - 110) / 100).toNat < 0
      · rw [if_pos hsub] at h
        obtain ⟨⟨sub, buf', u⟩, hq, hfree⟩ := h.openSub ino hsub
        rw [hq, ok_bind]
        exact ⟨_, rfl, hfree.congr rfl⟩
      · rw [if_neg hsub] at h
        rw [Sfs.openSub, if_neg hsub, pure_bind]
        exact ⟨_, rfl, h.congr (FS.write_diskBlocks _ _ _)⟩
  · rw [if_neg h₁, if_neg h₂, if_neg h₃] at h ⊢
    exact ⟨_, rfl, h⟩

/-- An entry needs at most two index blocks. -/
theorem indexNeeds_le (s : FS) (ino n : Int) : indexNeeds s ino n ≤ 2 := by
  unfold indexNeeds
  dsimp only
  split_ifs <;> decide

/-- Entering a name takes three blocks at most. -/
theorem FreeBlocks.appendEntry {cwd : Int} (h : FreeBlocks (k + 3) s)
    (hend : (textEnd s cwd).2 < 512) (env : Env) (entry : Path) :
    ∃ t, Sfs.appendEntry env cwd entry s = .ok t ∧ FreeBlocks k t := by
  rw [Sfs.appendEntry, if_pos hend]
  unfold putEntry growDir
  generalize textEnd s cwd = textPos
  dsimp only
  generalize hw : s.write _ _ = w
  have hfree : FreeBlocks (k + 3) w := h.congr (by rw [← hw]; rfl)
  split
  · obtain ⟨b, hget, hfree₁⟩ := FreeBlocks.getBlock (k := k + 2) hfree
    rw [hget, ok_bind]
    dsimp only
    have hneeds := indexNeeds_le (w.setUsed b ALLOCD) cwd (toShort (textPos.1 + 1))
    obtain ⟨u, hset, hfree₂⟩ := (hfree₁.mono (Nat.add_le_add_left hneeds k)).setBlockIndex env b
    rw [hset]
    exact ⟨_, rfl, hfree₂⟩
  · exact ⟨_, rfl, hfree.mono (by omega)⟩

/-- A first mount takes one block. -/
theorem FreshState.freeBlocks (h : FreshState s) : FreeBlocks 32767 s := by
  have hfree : unmarked s = Set.Ico 1 numBlocks := by
    ext b
    simp only [unmarked, Set.mem_ofPred_eq, Set.mem_Ico]
    constructor
    · intro hb
      obtain ⟨h₀, h₁, hfree⟩ := hb
      rw [h.used b h₀ h₁] at hfree
      refine ⟨?_, h₁⟩
      by_contra hlt
      rw [if_pos (by omega)] at hfree
      exact absurd hfree (by decide)
    · intro hb
      obtain ⟨h₁, hlt⟩ := hb
      exact ⟨by omega, hlt, by rw [h.used b (by omega) hlt, if_neg (by omega)]⟩
  unfold FreeBlocks
  rw [hfree, ← Finset.coe_Ico, Set.ncard_coe_finset, Int.card_Ico]
  decide

end Count

end Sfs
