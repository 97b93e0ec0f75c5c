import CS416.Sfs.DirText

/-!
# The search for the end of a directory

The search of `sfs_create` and `sfs_mkdir` ends at the first `NUL` in the blocks
of the directory.  Where the directory has no block it reads block `-1`, so it
ends at the latest there, as long as block `-1` has a `NUL`.  An append writes to
block `-1` only if the text has come there.
-/

namespace Sfs

open CInt CString Outcome

/-- `strlen` of a block; 512 if it has no `NUL`. -/
def Block.strlen (b : Block) : Nat := (stringAt 0 (blockBytes b)).length

/-- The negative block numbers hold the same. -/
def SameBelow (s t : FS) : Prop := ∀ c < 0, t.disk c = s.disk c

section Ends

variable {s t v : FS} {env : Env} {cwd ino b n index : Int} {entry : Path}

/-- A NUL ends the text of a block. -/
theorem Block.strlen_le {blk : Block} {j : Nat} (h : blk.byte j = 0) :
    blk.strlen ≤ j := by
  by_contra hlt
  have hj' : j < (stringAt 0 (blockBytes blk)).length := not_le.mp hlt
  have hpre : stringAt 0 (blockBytes blk) <+: blockBytes blk := List.takeWhile_prefix _
  have hmem := List.getElem_mem hj'
  rw [hpre.getElem hj'] at hmem
  simp only [blockBytes, List.getElem_map, List.getElem_range, h] at hmem
  exact not_mem_stringAt 0 _ hmem

private theorem textEndFrom_le (s : FS) (nd : Inode) (n : Nat) (i : Int) :
    (textEndFrom s nd n i).1 ≤ i + n := by
  induction n generalizing i with
  | zero => exact le_of_eq (Int.add_zero i).symm
  | succ n ih =>
      rw [textEndFrom]
      split
      · dsimp only
        omega
      · have hle := ih (i + 1)
        omega

/-- The position is the length of the string in the block where the search ends. -/
theorem textEndFrom_snd (s : FS) (nd : Inode) (n : Nat) (i : Int) :
    (textEndFrom s nd n i).2 =
      (blockRead s.disk (getBlockIndex s.disk nd (textEndFrom s nd n i).1)).strlen := by
  unfold Block.strlen
  induction n generalizing i with
  | zero => rw [textEndFrom]
  | succ n ih =>
      rw [textEndFrom]
      by_cases hlt :
        (stringAt 0 (blockBytes (blockRead s.disk (getBlockIndex s.disk nd i)))).length < 512
      · rw [if_pos hlt]
      · rw [if_neg hlt]
        exact ih (i + 1)

/-- **The search comes to an end** if block `-1` has a `NUL`. -/
theorem textEnd_ends (ino : Int) (h : (blockRead s.disk (-1)).strlen < 512) :
    (textEnd s ino).2 < 512 := by
  by_cases hlt : (textEnd s ino).1.toNat < 1110
  · exact textEnd_pos hlt
  · have hle := textEndFrom_le s (s.inodeTable ino) 1110 0
    have hend : (textEnd s ino).1 = 1110 := by
      rw [textEnd] at hlt ⊢
      omega
    rw [textEnd] at hend ⊢
    rw [textEndFrom_snd, hend, getBlockIndex_big _ _ (le_refl _)]
    exact h

/-- A text that ends in the first block. -/
theorem textEnd_first (h : (blockRead s.disk ((s.inodeTable ino).blocks 0)).strlen < 512) :
    textEnd s ino = (0, (blockRead s.disk ((s.inodeTable ino).blocks 0)).strlen) := by
  rw [textEnd, textEndFrom]
  exact if_pos h

/-- The search reads the block map of the directory and the disk. -/
theorem textEnd_congr (hblocks : (v.inodeTable ino).blocks = (s.inodeTable ino).blocks)
    (hdisk : v.disk = s.disk) : textEnd v ino = textEnd s ino := by
  refine textEndFrom_congr 1110 0 fun j _ _ => ?_
  unfold getBlockIndex
  rw [hblocks, hdisk]

/-- An entry with its `NUL` in a block makes the text as long as that. -/
theorem strlen_append {blk : Block} {pos : Nat} (h : pos + entry.length < 512) :
    (Block.ofFn (appendBuffer env blk pos entry)).strlen ≤ pos + entry.length := by
  refine Block.strlen_le ?_
  rw [Block.byte_ofFn _ h, appendBuffer_entry env _ rfl (le_refl _),
    List.getD_eq_default _ _ (le_refl _)]

end Ends

section Below

variable {s t u : FS} {env : Env} {cwd ino b n index : Int} {entry : Path}

/-- One call after another. -/
theorem SameBelow.trans (h : SameBelow s u) (h' : SameBelow u t) : SameBelow s t :=
  fun c hc => (h' c hc).trans (h c hc)

/-- A disk that has not been written. -/
theorem SameBelow.of_disk (h : t.disk = s.disk) : SameBelow s t := fun c _ => congrFun h c

/-- A block with a number from 0 on is written. -/
theorem SameBelow.write (hb : 0 ≤ b) (blk : Block) : SameBelow s (s.write b blk) :=
  fun _ hc => write_disk_ne (by omega)

private theorem openSingle_below (ino : Int) (s : FS) : Post (openSingle ino s) fun r =>
    SameBelow s r.2 ∧ 0 ≤ (r.2.inodeTable ino).blocks 10 := by
  unfold openSingle
  split
  · refine (getBlock_outcome s).post.bind fun r hr => Post.pure ?_
    dsimp only
    refine ⟨.of_disk (by rw [FS.setBlocks_disk, hr.state]; rfl), ?_⟩
    rw [FS.setBlocks_blocks_self, Function.update_self]
    exact hr.nonneg
  · rename_i hthere
    exact Post.pure ⟨fun _ _ => rfl, not_lt.mp hthere⟩

private theorem openDouble_below (env : Env) (ino : Int) (s : FS) :
    Post (openDouble env ino s) fun r =>
    SameBelow s r.2 ∧ 0 ≤ (r.2.inodeTable ino).blocks 11 := by
  unfold openDouble
  split
  · refine (getBlock_outcome s).post.bind fun r hr => Post.pure ?_
    dsimp only
    refine ⟨(SameBelow.of_disk (by rw [FS.setBlocks_disk, hr.state]; rfl)).trans
      (.write hr.nonneg _), ?_⟩
    rw [FS.write_inodeTable, FS.setBlocks_blocks_self, Function.update_self]
    exact hr.nonneg
  · rename_i hthere
    exact Post.pure ⟨fun _ _ => rfl, not_lt.mp hthere⟩

private theorem openSub_below (k : Nat) (buf : Block) (h₁₁ : 0 ≤ (s.inodeTable ino).blocks 11) :
    Post (openSub ino k buf s) fun r => SameBelow s r.2.2 ∧ 0 ≤ r.1 := by
  unfold openSub
  split
  · refine (getBlock_outcome s).post.bind fun r hr => Post.pure ?_
    dsimp only
    have hnode : r.2.inodeTable = s.inodeTable := by
      rw [hr.state]
      rfl
    refine ⟨(SameBelow.of_disk (by rw [hr.state]; rfl)).trans (.write ?_ _), hr.nonneg⟩
    rw [hnode]
    exact h₁₁
  · rename_i hthere
    refine Post.pure ⟨fun _ _ => rfl, ?_⟩
    dsimp only
    exact not_lt.mp hthere

/-- `set_block_index` writes index blocks, which have numbers from 0 on. -/
theorem setBlockIndex_below (env : Env) (ino n index : Int) (s : FS) :
    Post (setBlockIndex env ino n index s) (SameBelow s) := by
  unfold setBlockIndex
  split_ifs
  · exact Post.pure (.of_disk rfl)
  · exact (openSingle_below ino s).bind fun r hr => Post.pure (hr.1.trans (.write hr.2 _))
  · refine (openDouble_below env ino s).bind fun r hr => ?_
    exact (openSub_below _ _ hr.2).bind fun q hq =>
      Post.pure ((hr.1.trans hq.1).trans (.write hq.2 _))
  · exact Post.pure (.of_disk rfl)

/-- A growing directory writes no block below 0. -/
theorem growDir_below (env : Env) (cwd i size : Int) (buf : Nat → UInt8) (s : FS) :
    Post (growDir env cwd i size buf s) (SameBelow s) := by
  unfold growDir
  split
  · refine (getBlock_outcome s).post.bind fun r hr => ?_
    have htaken : SameBelow s r.2 := .of_disk (by rw [hr.state]; rfl)
    exact (setBlockIndex_below env cwd _ _ _).bind fun u hu =>
      Post.pure ((htaken.trans hu).trans (.write hr.nonneg _))
  · exact Post.pure (.of_disk rfl)

/-- The size of a directory that has been given an entry. -/
theorem appendEntry_size (env : Env) (cwd : Int) (entry : Path) (s : FS) :
    Post (appendEntry env cwd entry s) fun t => (t.inodeTable cwd).stat.stSize =
      toInt64 ((s.inodeTable cwd).stat.stSize + (entry.length + 1)) := by
  refine appendEntry_post ?_
  unfold putEntry
  refine (growDir_keeps env cwd _ _ _ _).post.bind ?_
  intro u hu
  apply Post.pure
  rw [FS.modStat_stat_self, hu.stat]
  rfl

/-- **Block `-1` grows by the entry at most.** -/
theorem appendEntry_behind {m : Nat} (hm : (blockRead s.disk (-1)).strlen ≤ m)
    (hroom : m + entry.length < 512) :
    Post (appendEntry env cwd entry s) fun t =>
      (blockRead t.disk (-1)).strlen ≤ m + entry.length := by
  refine appendEntry_post ?_
  unfold putEntry
  dsimp only
  generalize htarget : getBlockIndex s.disk (s.inodeTable cwd) (textEnd s cwd).1 = target
  have hpos : (textEnd s cwd).2 = (blockRead s.disk target).strlen := by
    rw [← htarget]
    exact textEndFrom_snd s _ 1110 0
  rw [hpos]
  refine (growDir_below env cwd _ _ _ _).bind fun u hu => Post.pure ?_
  have hu' := hu (-1) (by decide)
  rw [blockRead_of_lt (by decide), FS.modStat_disk, hu']
  by_cases hone : target = -1
  · rw [hone, write_disk_self]
    generalize blockRead s.disk (-1) = blk at *
    have hlen : (Block.ofFn (appendBuffer env blk blk.strlen entry)).strlen ≤
        blk.strlen + entry.length := strlen_append (by omega)
    omega
  · rw [write_disk_ne (Ne.symm hone), ← blockRead_of_lt (d := s.disk) (by decide)]
    omega

/-- An entry that goes to the first block and adds no further one. -/
theorem appendEntry_start (hfirst : (s.inodeTable cwd).blocks 0 = b) (hb : 0 ≤ b ∧ b < numBlocks)
    (hroom : (blockRead s.disk b).strlen + entry.length < 512)
    (hstay : ¬ GrowsDir s cwd (entry.length + 1)) :
    Post (appendEntry env cwd entry s) fun t =>
      (t.inodeTable cwd).blocks = (s.inodeTable cwd).blocks ∧ SameBelow s t ∧
        (blockRead t.disk b).strlen ≤ (blockRead s.disk b).strlen + entry.length := by
  have hend : textEnd s cwd = (0, (blockRead s.disk b).strlen) := by
    rw [← hfirst]
    exact textEnd_first (by rw [hfirst]; omega)
  have hindex : getBlockIndex s.disk (s.inodeTable cwd) 0 = b := hfirst
  refine appendEntry_post ?_
  unfold putEntry growDir
  rw [hend]
  dsimp only
  rw [hindex]
  split
  · rename_i hgrow
    exact absurd hgrow hstay
  · rw [pure_bind]
    refine Post.pure ⟨FS.modStat_blocks _ _ _ _, SameBelow.write hb.1 _, ?_⟩
    rw [blockRead_of_lt hb.2, FS.modStat_disk, write_disk_self]
    exact strlen_append hroom

end Below

end Sfs
