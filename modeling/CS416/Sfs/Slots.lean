import CS416.Lib.Ledger
import CS416.Sfs.Frames

/-!
# The slots of an inode

An inode refers to blocks at 1122 places: ten direct blocks, the block behind
`blocks[10]` and its 100 entries, the block behind `blocks[11]`, its ten
entries and the 100 entries of each of those.  A logical block number stands
for one of these slots, behind the index blocks on its path.
-/

namespace Sfs

open CInt

/-- A place at which an inode refers to a block. -/
inductive Slot
  | direct (i : Fin 10)
  | single
  | sdata (k : Fin 100)
  | double
  | sub (j : Fin 10)
  | ddata (j : Fin 10) (k : Fin 100)
  deriving DecidableEq

/-- Entry `k` of the index block `b`, if there is such a block. -/
def entry (d : Disk) (b : Int) (k : Nat) : Int :=
  if b < 0 then -1 else (blockRead d b).short k

/-- Where there is no index block, there is no entry. -/
theorem entry_neg {d : Disk} {b : Int} (k : Nat) (h : b < 0) : entry d b k = -1 :=
  if_pos h

/-- An entry is read off its index block. -/
theorem entry_nonneg {d : Disk} {b : Int} (k : Nat) (h : 0 ≤ b) :
    entry d b k = (blockRead d b).short k := if_neg (by omega)

/-- The entries of other blocks stay. -/
theorem entry_write_ne {d : Disk} {b c : Int} {blk : Block} (k : Nat) (h : b ≠ c) :
    entry (blockWrite d c blk) b k = entry d b k := by
  rw [entry, entry, blockRead_write_ne h]

/-- The entries of a block that is written. -/
theorem entry_write_self {d : Disk} {c : Int} {blk : Block} (k : Nat) (h₀ : 0 ≤ c)
    (h₁ : c < numBlocks) : entry (blockWrite d c blk) c k = blk.short k := by
  rw [entry_nonneg k h₀, blockRead_write_self h₁]

/-- The block that a slot refers to; negative if there is none. -/
def slotRef (d : Disk) (nd : Inode) : Slot → Int
  | .direct i => nd.blocks (i : Nat)
  | .single => nd.blocks 10
  | .sdata k => entry d (nd.blocks 10) k
  | .double => nd.blocks 11
  | .sub j => entry d (nd.blocks 11) j
  | .ddata j k => entry d (entry d (nd.blocks 11) j) k

/-- The slot of logical block `n`. -/
def dataSlot (n : Nat) : Slot :=
  if n < 10 then .direct (Fin.ofNat 10 n)
  else if n < 110 then .sdata (Fin.ofNat 100 (n - 10))
  else .ddata (Fin.ofNat 10 ((n - 110) / 100)) (Fin.ofNat 100 (n - 110))

/-- The slots of the index blocks on the way to logical block `n`. -/
def indexPath (n : Nat) : List Slot :=
  if n < 10 then []
  else if n < 110 then [.single]
  else [.double, .sub (Fin.ofNat 10 ((n - 110) / 100))]

/-- The number of blocks a file must have for a slot to be in use. -/
def rank : Slot → Nat
  | .direct i => i
  | .single => 10
  | .sdata k => 10 + k
  | .double => 110
  | .sub j => 110 + 100 * j
  | .ddata j k => 110 + 100 * j + k

/-- The slots of index blocks. -/
def Slot.isIndex : Slot → Bool
  | .single | .double | .sub _ => true
  | _ => false

/-- The slot of a logical block is filled when the file has more blocks than that. -/
theorem rank_dataSlot {n : Nat} (h : n < 1110) : rank (dataSlot n) = n := by
  unfold dataSlot
  split_ifs <;> simp only [rank, Fin.val_ofNat] <;> omega

/-- A data slot is no index slot. -/
theorem isIndex_dataSlot (n : Nat) : (dataSlot n).isIndex = false := by
  unfold dataSlot
  split_ifs <;> rfl

/-- Two logical blocks have two slots. -/
theorem dataSlot_inj {m n : Nat} (hm : m < 1110) (hn : n < 1110)
    (h : dataSlot m = dataSlot n) : m = n := by
  rw [← rank_dataSlot hm, h, rank_dataSlot hn]

/-- Every slot that is not an index slot is the slot of a logical block. -/
theorem eq_dataSlot {sl : Slot} (h : sl.isIndex = false) :
    sl = dataSlot (rank sl) ∧ rank sl < 1110 := by
  cases sl with
  | direct i =>
      obtain ⟨i, hi⟩ := i
      simp only [dataSlot, rank, hi, if_true, Slot.direct.injEq]
      exact ⟨Fin.ext (Nat.mod_eq_of_lt hi).symm, by omega⟩
  | sdata k =>
      obtain ⟨k, hk⟩ := k
      rw [dataSlot, rank, if_neg (by omega), if_pos (by omega)]
      refine ⟨?_, by omega⟩
      rw [Slot.sdata.injEq]
      exact Fin.ext (by simp only [Fin.val_ofNat]; omega)
  | ddata j k =>
      obtain ⟨j, hj⟩ := j
      obtain ⟨k, hk⟩ := k
      rw [dataSlot, rank, if_neg (by omega), if_neg (by omega)]
      refine ⟨?_, by dsimp only; omega⟩
      rw [Slot.ddata.injEq]
      exact ⟨Fin.ext (by simp only [Fin.val_ofNat]; omega),
        Fin.ext (by simp only [Fin.val_ofNat]; omega)⟩
  | single => cases h
  | double => cases h
  | sub j => cases h

/-- The way to a logical block consists of index slots. -/
theorem mem_indexPath_isIndex {n : Nat} {sl : Slot} (h : sl ∈ indexPath n) :
    sl.isIndex = true := by
  unfold indexPath at h
  split_ifs at h
  · cases h
  · rw [List.mem_singleton] at h
    rw [h]
    rfl
  · rcases List.mem_cons.mp h with rfl | h
    · rfl
    · rw [List.mem_singleton] at h
      rw [h]
      rfl

/-- No data slot is on it. -/
theorem not_mem_indexPath (n m : Nat) : dataSlot m ∉ indexPath n := fun h => by
  have hidx := mem_indexPath_isIndex h
  rw [isIndex_dataSlot] at hidx
  cases hidx

/-- The index slots on it are filled no later than the block itself. -/
theorem rank_indexPath {n : Nat} (hn : n < 1110) {sl : Slot} (h : sl ∈ indexPath n) :
    rank sl ≤ n := by
  unfold indexPath at h
  split_ifs at h
  · cases h
  · rw [List.mem_singleton] at h
    rw [h, rank]
    omega
  · rcases List.mem_cons.mp h with rfl | h
    · rw [rank]
      omega
    · rw [List.mem_singleton] at h
      rw [h, rank, Fin.val_ofNat]
      omega

/-- The slots that come into use with logical block `n`: its own, and the index
blocks it is the first to need. -/
theorem eq_of_rank_eq {n : Nat} {sl : Slot} (h : rank sl = n) :
    sl = dataSlot n ∨ sl ∈ indexPath n := by
  by_cases hidx : sl.isIndex = true
  · right
    cases sl with
    | single =>
        rw [rank] at h
        simp [indexPath, ← h]
    | double =>
        rw [rank] at h
        simp [indexPath, ← h]
    | sub j =>
        obtain ⟨j, hj⟩ := j
        rw [rank] at h
        dsimp only at h
        rw [indexPath, if_neg (by omega), if_neg (by omega)]
        refine List.mem_cons_of_mem _ (List.mem_singleton.mpr ?_)
        rw [Slot.sub.injEq]
        exact Fin.ext (by simp only [Fin.val_ofNat]; omega)
    | direct i => cases hidx
    | sdata k => cases hidx
    | ddata j k => cases hidx
  · left
    rw [← h]
    exact (eq_dataSlot (by simpa using hidx)).1

/-- Where the index blocks are there, `get_block_index` returns the reference of
the slot. -/
theorem getBlockIndex_eq {d : Disk} {nd : Inode} {n : Nat} (hn : n < 1110)
    (hpath : ∀ sl ∈ indexPath n, 0 ≤ slotRef d nd sl) :
    getBlockIndex d nd n = slotRef d nd (dataSlot n) := by
  unfold getBlockIndex dataSlot
  unfold indexPath at hpath
  by_cases h₁ : n < 10
  · rw [if_pos (show (n : Int) < 10 by omega), if_pos h₁, slotRef, Fin.val_ofNat,
      Nat.mod_eq_of_lt h₁]
  rw [if_neg (show ¬ (n : Int) < 10 by omega), if_neg h₁]
  rw [if_neg h₁] at hpath
  by_cases h₂ : n < 110
  · rw [if_pos h₂] at hpath
    have hsingle : 0 ≤ nd.blocks 10 := hpath .single (by simp)
    rw [if_pos (show (n : Int) < 110 by omega), if_pos h₂, slotRef, entry_nonneg _ hsingle,
      Fin.val_ofNat]
    congr 1
    omega
  · rw [if_neg h₂] at hpath
    have hdouble : 0 ≤ nd.blocks 11 := hpath .double (by simp)
    have hsub : 0 ≤ entry d (nd.blocks 11) (Fin.ofNat 10 ((n - 110) / 100) : Fin 10) :=
      hpath (.sub (Fin.ofNat 10 ((n - 110) / 100))) (by simp)
    have hj : (((n : Int) - 110) / 100).toNat =
        ((Fin.ofNat 10 ((n - 110) / 100) : Fin 10) : Nat) := by
      rw [Fin.val_ofNat]
      omega
    have hk : (((n : Int) - 110) % 100).toNat =
        ((Fin.ofNat 100 (n - 110) : Fin 100) : Nat) := by
      rw [Fin.val_ofNat]
      omega
    rw [if_neg (show ¬ (n : Int) < 110 by omega), if_neg h₂,
      if_pos (show (n : Int) < 1110 by omega), slotRef]
    dsimp only
    rw [hj, hk, ← entry_nonneg (Fin.ofNat 10 ((n - 110) / 100) : Fin 10) hdouble,
      ← entry_nonneg (Fin.ofNat 100 (n - 110) : Fin 100) hsub]

/-- From 1110 on no logical block is found. -/
theorem getBlockIndex_big (d : Disk) (nd : Inode) {n : Int} (h : 1110 ≤ n) :
    getBlockIndex d nd n = -1 := by
  rw [getBlockIndex, if_neg (by omega), if_neg (by omega), if_neg (by omega)]

/-- The references of the inodes of a state. -/
def refs (s : FS) (x : Int × Slot) : Int := slotRef s.disk (s.inodeTable x.1) x.2

/-- The slots of the inodes in `A`. -/
def slots (A : Set Int) : Set (Int × Slot) := {x | x.1 ∈ A}

/-- The blocks that `disk_blocks` marks as in use. -/
def marked (s : FS) : Set Int := {b | 0 ≤ b ∧ b < numBlocks ∧ s.diskBlocks b = ALLOCD}

/-- The inodes in `A` own the blocks they refer to, and the call in progress
owns those in `held`. -/
def Books (strict : Prop) (A held : Set Int) (s : FS) : Prop :=
  Ledger strict (slots A) (refs s) (marked s) held

/-- The slots of the index blocks of the inodes in `A`. -/
def indexSlots (A : Set Int) : Set (Int × Slot) := {x | x.1 ∈ A ∧ x.2.isIndex = true}

/-- The inodes in `A` own their index blocks; what their data slots hold is any number. -/
def OwnsIndex (A : Set Int) (s : FS) : Prop :=
  Ledger False (indexSlots A) (refs s) (marked s) ∅

end Sfs
