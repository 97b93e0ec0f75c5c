import CS416.Lib.Outcome
import CS416.Sfs.Run

/-!
# What the allocators leave alone

`Keeps s t` says that a piece of code touched at most the block maps of
inodes, `disk_blocks` and the disk.  All of the block allocation has this
frame, so the name table, the handles and the metadata of the inodes can be
studied without looking at blocks.
-/

namespace Sfs

open CInt Search Outcome

/-- Only block maps, `disk_blocks` and the disk may differ. -/
structure Keeps (s t : FS) : Prop where
  names : t.nameTable = s.nameTable
  opens : t.openFiles = s.openFiles
  avail : ∀ j, (t.inodeTable j).avail = (s.inodeTable j).avail
  stat : ∀ j, (t.inodeTable j).stat = (s.inodeTable j).stat
  system : t.systemBlock = s.systemBlock

theorem Keeps.refl (s : FS) : Keeps s s := ⟨rfl, rfl, fun _ => rfl, fun _ => rfl, rfl⟩

/-- One call after another. -/
theorem Keeps.trans {s t u : FS} (h : Keeps s t) (h' : Keeps t u) : Keeps s u :=
  ⟨h'.names.trans h.names, h'.opens.trans h.opens,
    fun j => (h'.avail j).trans (h.avail j), fun j => (h'.stat j).trans (h.stat j),
    h'.system.trans h.system⟩

theorem keeps_setUsed (s : FS) (b v : Int) : Keeps s (s.setUsed b v) :=
  ⟨rfl, rfl, fun _ => rfl, fun _ => rfl, rfl⟩

theorem keeps_write (s : FS) (n : Int) (b : Block) : Keeps s (s.write n b) :=
  ⟨rfl, rfl, fun _ => rfl, fun _ => rfl, rfl⟩

theorem keeps_setBlocks (s : FS) (ino k b : Int) : Keeps s (s.setBlocks ino k b) :=
  ⟨rfl, rfl, fun j => by simp, fun j => by simp, rfl⟩

/-- While the scan is inside the table it goes up by one. -/
theorem getBlockScan_hit {used : Int → Int} {b : Int} (hb : b < numBlocks)
    (hfree : used b = FREE) {n : Nat} {i : Int} (hi : 0 ≤ i) (hib : i ≤ b)
    (hn : b - i < n) (hmin : ∀ j, i ≤ j → j < b → used j ≠ FREE) :
    getBlockScan used n i = some b := by
  induction n generalizing i with
  | zero => omega
  | succ n ih =>
      have hlt : i < numBlocks := by omega
      by_cases hb' : i = b
      · subst i
        simp [getBlockScan, hlt, hfree]
      · have hnext : toShort (i + 1) = i + 1 :=
          toShort_of_range (by omega) (by simp only [numBlocks] at hb; omega)
        simp only [getBlockScan, hlt, if_true, hmin i (le_refl i) (by omega), if_false, hnext]
        exact ih (by omega) (by omega) (by push_cast at hn; omega)
          (fun j hj hjb => hmin j (by omega) hjb)

/-- A scan that finds the table full ends outside it or not at all. -/
theorem getBlockScan_full {used : Int → Int}
    (hfull : ∀ j, 0 ≤ j → j < numBlocks → used j ≠ FREE) {n : Nat} {i b : Int}
    (hi : i < numBlocks) (h : getBlockScan used n i = some b) : b < 0 := by
  induction n generalizing i with
  | zero => simp [getBlockScan] at h
  | succ n ih =>
      by_cases hf : used i = FREE
      · have hib : i = b := by simpa [getBlockScan, hi, hf] using h
        by_contra hb
        exact hfull i (by omega) hi hf
      · have hrange := toShort_range (i + 1)
        exact ih (i := toShort (i + 1)) (by simp only [numBlocks]; omega)
          (by simpa [getBlockScan, hi, hf] using h)

/-- A free block is left. -/
def HasFreeBlock (s : FS) : Prop := ∃ b, 0 ≤ b ∧ b < numBlocks ∧ s.diskBlocks b = FREE

/-- What `get_block` returns: the least free block, now marked. -/
structure Taken (s : FS) (b : Int) (t : FS) : Prop where
  nonneg : 0 ≤ b
  lt : b < numBlocks
  free : s.diskBlocks b = FREE
  least : ∀ j, 0 ≤ j → j < b → s.diskBlocks j ≠ FREE
  state : t = s.setUsed b ALLOCD

/-- Where a block is free, `get_block` takes the first one. -/
theorem getBlock_of_free {s : FS} (h : HasFreeBlock s) :
    ∃ b, getBlock s = .ok (b, s.setUsed b ALLOCD) ∧ Taken s b (s.setUsed b ALLOCD) := by
  obtain ⟨j, hj₀, hj₁, hj⟩ := h
  obtain ⟨b, hfind⟩ := findFrom_isSome (p := fun i => s.diskBlocks i = FREE)
    (n := numBlocks.toNat) hj₀ (by simpa using hj₁) (by simpa using hj)
  obtain ⟨hb₀, hb₁, hfree, hmin⟩ := findFrom_some hfind
  have hfree' : s.diskBlocks b = FREE := by simpa using hfree
  have hmin' : ∀ j, 0 ≤ j → j < b → s.diskBlocks j ≠ FREE := fun j h₀ h₁ => by
    simpa using hmin j h₀ h₁
  have hlt : b < numBlocks := by simpa using hb₁
  have hscan : getBlockScan s.diskBlocks 65536 0 = some b :=
    getBlockScan_hit hlt hfree' (le_refl 0) hb₀ (by simp only [numBlocks] at hlt; omega) hmin'
  refine ⟨b, ?_, hb₀, hlt, hfree', hmin', rfl⟩
  simp [getBlock, hscan, hb₀]

/-- Where none is free, `get_block` does not return. -/
theorem getBlock_of_full {s : FS} (h : ¬ HasFreeBlock s) :
    getBlock s = .error .noReturn := by
  have hfull : ∀ j, 0 ≤ j → j < numBlocks → s.diskBlocks j ≠ FREE :=
    fun j h₀ h₁ hf => h ⟨j, h₀, h₁, hf⟩
  cases hscan : getBlockScan s.diskBlocks 65536 0 with
  | none => simp [getBlock, hscan]
  | some b =>
      have hb := getBlockScan_full hfull (by decide) hscan
      simp [getBlock, hscan, hb]

/-- **What `get_block` does.** -/
theorem getBlock_outcome (s : FS) :
    OkUnless .noReturn (getBlock s) fun r => Taken s r.1 r.2 := by
  by_cases h : HasFreeBlock s
  · obtain ⟨b, hok, htaken⟩ := getBlock_of_free h
    exact Or.inr ⟨_, hok, htaken⟩
  · exact Or.inl (getBlock_of_full h)

/-- Taking a block changes its mark only. -/
theorem Taken.keeps {s t : FS} {b : Int} (h : Taken s b t) : Keeps s t := by
  rw [h.state]
  exact keeps_setUsed s b ALLOCD

private theorem openSingle_keeps (ino : Int) (s : FS) :
    OkUnless .noReturn (openSingle ino s) fun r => Keeps s r.2 := by
  unfold openSingle
  split
  · refine (getBlock_outcome s).bind ?_
    rintro ⟨b, t⟩ ht
    exact OkUnless.pure (ht.keeps.trans (keeps_setBlocks t ino 10 b))
  · exact OkUnless.pure (Keeps.refl s)

private theorem openDouble_keeps (env : Env) (ino : Int) (s : FS) :
    OkUnless .noReturn (openDouble env ino s) fun r => Keeps s r.2 := by
  unfold openDouble
  split
  · refine (getBlock_outcome s).bind ?_
    rintro ⟨b, t⟩ ht
    exact OkUnless.pure
      ((ht.keeps.trans (keeps_setBlocks t ino 11 b)).trans (keeps_write _ _ _))
  · exact OkUnless.pure (Keeps.refl s)

private theorem openSub_keeps (ino : Int) (k : Nat) (buf : Block) (s : FS) :
    OkUnless .noReturn (openSub ino k buf s) fun r => Keeps s r.2.2 := by
  unfold openSub
  split
  · refine (getBlock_outcome s).bind ?_
    rintro ⟨b, t⟩ ht
    exact OkUnless.pure (ht.keeps.trans (keeps_write _ _ _))
  · exact OkUnless.pure (Keeps.refl s)

/-- **`set_block_index`** leaves names, handles and attributes alone. -/
theorem setBlockIndex_keeps (env : Env) (ino n b : Int) (s : FS) :
    OkUnless .noReturn (setBlockIndex env ino n b s) (Keeps s) := by
  unfold setBlockIndex
  split_ifs
  · exact OkUnless.pure (keeps_setBlocks s ino n b)
  · refine (openSingle_keeps ino s).bind ?_
    rintro ⟨buf, t⟩ ht
    exact OkUnless.pure (ht.trans (keeps_write _ _ _))
  · refine (openDouble_keeps env ino s).bind ?_
    rintro ⟨buf, t⟩ ht
    refine (openSub_keeps ino _ buf t).bind ?_
    rintro ⟨sub, buf', u⟩ hu
    exact OkUnless.pure ((ht.trans hu).trans (keeps_write _ _ _))
  · exact OkUnless.pure (Keeps.refl s)

/-- Beyond `Keeps`, the link count of one inode went from `n` to `f n`, and
sizes and block counts may differ. -/
structure Relinks (s t : FS) (ino : Int) (f : Int → Int) : Prop where
  names : t.nameTable = s.nameTable
  opens : t.openFiles = s.openFiles
  avail : ∀ j, (t.inodeTable j).avail = (s.inodeTable j).avail
  mode : ∀ j, (t.inodeTable j).stat.stMode = (s.inodeTable j).stat.stMode
  nlink : (t.inodeTable ino).stat.stNlink = f (s.inodeTable ino).stat.stNlink
  nlink_ne : ∀ j, j ≠ ino → (t.inodeTable j).stat.stNlink = (s.inodeTable j).stat.stNlink
  system : t.systemBlock = s.systemBlock

/-- No link count changes. -/
theorem Keeps.relinks {s t : FS} (h : Keeps s t) (ino : Int) : Relinks s t ino id :=
  ⟨h.names, h.opens, h.avail, fun j => by rw [h.stat], by rw [h.stat]; rfl,
    fun j _ => by rw [h.stat], h.system⟩

/-- A change of sizes, followed by one of the link count. -/
theorem Relinks.trans_id {s t u : FS} {ino : Int} {f : Int → Int}
    (h : Relinks s t ino id) (h' : Relinks t u ino f) : Relinks s u ino f :=
  ⟨h'.names.trans h.names, h'.opens.trans h.opens,
    fun j => (h'.avail j).trans (h.avail j), fun j => (h'.mode j).trans (h.mode j),
    by rw [h'.nlink, h.nlink]; rfl,
    fun j hj => (h'.nlink_ne j hj).trans (h.nlink_ne j hj), h'.system.trans h.system⟩

/-- An assignment to `stat` that keeps the mode. -/
theorem relinks_modStat (s : FS) (ino : Int) {g : Stat → Stat} {f : Int → Int}
    (hmode : ∀ st, (g st).stMode = st.stMode) (hlink : ∀ st, (g st).stNlink = f st.stNlink) :
    Relinks s (s.modStat ino g) ino f := by
  refine ⟨rfl, rfl, fun j => by simp, fun j => ?_, by simp [hlink], fun j hj => ?_, rfl⟩
  · by_cases h : j = ino
    · subst j
      simp [hmode]
    · rw [FS.modStat_inodeTable_ne s ino g h]
  · rw [FS.modStat_inodeTable_ne s ino g hj]

/-- An assignment to `stat` at the end. -/
theorem Relinks.modStat {s t : FS} {ino : Int} {g : Stat → Stat} {f : Int → Int}
    (h : Relinks s t ino id) (hmode : ∀ st, (g st).stMode = st.stMode)
    (hlink : ∀ st, (g st).stNlink = f st.stNlink) : Relinks s (t.modStat ino g) ino f :=
  h.trans_id (relinks_modStat t ino hmode hlink)

/-- A growing directory leaves names, handles and attributes alone. -/
theorem growDir_keeps (env : Env) (cwd i size : Int) (buf : Nat → UInt8) (s : FS) :
    OkUnless .noReturn (growDir env cwd i size buf s) (Keeps s) := by
  unfold growDir
  split
  · refine (getBlock_outcome s).bind ?_
    rintro ⟨b, t⟩ ht
    refine (setBlockIndex_keeps env cwd _ b t).bind ?_
    intro u hu
    exact OkUnless.pure ((ht.keeps.trans hu).trans (keeps_write u b _))
  · exact OkUnless.pure (Keeps.refl s)

/-- An entry that has been appended was put behind a text with an end. -/
theorem appendEntry_ok {env : Env} {cwd : Int} {entry : Path} {s t : FS} :
    appendEntry env cwd entry s = .ok t ↔
      (textEnd s cwd).2 < 512 ∧ putEntry env cwd entry s = .ok t := by
  unfold appendEntry
  split
  · rename_i hend
    exact (and_iff_right hend).symm
  · rename_i hend
    exact iff_of_false nofun fun h => hend h.1

/-- What holds after the entry has been put there. -/
theorem appendEntry_post {env : Env} {cwd : Int} {entry : Path} {s : FS} {P : FS → Prop}
    (h : Post (putEntry env cwd entry s) P) : Post (appendEntry env cwd entry s) P :=
  fun t ht => h t (appendEntry_ok.mp ht).2

/-- The same, where the call may not return. -/
theorem appendEntry_outcome {env : Env} {cwd : Int} {entry : Path} {s : FS} {P : FS → Prop}
    (h : OkUnless .noReturn (putEntry env cwd entry s) P) :
    OkUnless .noReturn (appendEntry env cwd entry s) P := by
  unfold appendEntry
  split
  · exact h
  · exact Or.inl rfl

/-- A new entry adds a link to the directory. -/
theorem appendEntry_relinks (env : Env) (cwd : Int) (entry : Path) (s : FS) :
    OkUnless .noReturn (appendEntry env cwd entry s) fun t =>
      Relinks s t cwd fun n => toU64 (n + 1) := by
  refine appendEntry_outcome ?_
  unfold putEntry
  generalize textEnd s cwd = textPos
  refine (growDir_keeps env cwd _ _ _ _).bind ?_
  intro t ht
  exact OkUnless.pure ((((keeps_write s _ _).trans ht).relinks cwd).modStat
    (fun _ => rfl) (fun _ => rfl))

/-- Writing the text back leaves the tables alone. -/
theorem storeText_keeps (cwd blocks : Int) (text : Path) (s : FS) :
    Keeps s (storeText cwd blocks text s) := by
  unfold storeText
  split
  · exact Keeps.refl s
  · exact keeps_write s _ _

/-- A shrinking directory leaves names, handles and attributes alone. -/
theorem shrinkDir_keeps (env : Env) (cwd size resize blocks : Int) (s : FS) :
    OkUnless .noReturn (shrinkDir env cwd size resize blocks s) (Keeps s) := by
  unfold shrinkDir
  split
  · exact (setBlockIndex_keeps env cwd _ _ _).imp fun u hu =>
      (keeps_setUsed s _ _).trans hu
  · exact OkUnless.pure (Keeps.refl s)

/-- An entry that is removed takes a link from the directory. -/
theorem removeEntry_relinks (env : Env) (cwd : Int) (entry : Path) (s : FS) :
    Post (removeEntry env cwd entry s) fun t =>
      Relinks s t cwd fun n => toU64 (n - 1) := by
  unfold removeEntry
  dsimp only
  split
  · exact Post.error _
  · refine (shrinkDir_keeps env cwd _ _ _ _).post.bind ?_
    intro t ht
    exact Post.pure ((((storeText_keeps cwd _ _ s).trans ht).relinks cwd).modStat
      (fun _ => rfl) (fun _ => rfl))

private theorem growLoop_relinks (env : Env) (ino : Int) (n : Nat) (i : Int) (s : FS) :
    OkUnless .noReturn (growLoop env ino n i s) fun r => Relinks s r.2 ino id := by
  induction n generalizing i s with
  | zero => exact OkUnless.pure ((Keeps.refl s).relinks ino)
  | succ n ih =>
      unfold growLoop
      refine (getBlock_outcome s).bind ?_
      rintro ⟨b, t⟩ ht
      dsimp only
      split_ifs
      · exact OkUnless.pure (ht.keeps.relinks ino)
      · exact OkUnless.pure (ht.keeps.relinks ino)
      · refine (setBlockIndex_keeps env ino _ b t).bind ?_
        intro u hu
        refine (ih (i + 1) _).imp ?_
        rintro ⟨r, v⟩ hv
        refine Relinks.trans_id ?_ hv
        exact ((ht.keeps.trans hu).relinks ino).modStat (fun _ => rfl) (fun _ => rfl)

private theorem growFile_relinks (env : Env) (ino total : Int) (s : FS) :
    OkUnless .noReturn (growFile env ino total s) fun r => Relinks s r.2 ino id := by
  unfold growFile
  dsimp only
  split
  · exact growLoop_relinks env ino _ _ s
  · exact OkUnless.pure ((Keeps.refl s).relinks ino)

/-- Writing the buffer back leaves the tables alone. -/
theorem writeBack_keeps (ino start : Int) (buf : Nat → UInt8) (n i : Nat) (s : FS) :
    Keeps s (writeBack ino start buf n i s) := by
  induction n generalizing i s with
  | zero => exact Keeps.refl s
  | succ n ih => exact (keeps_write s _ _).trans (ih (i + 1) _)

private theorem writeData_relinks (ino : Int) (buf : Nat → UInt8) (size : Nat) (offset : Int)
    (s : FS) : Post (writeData ino buf size offset s) fun r => Relinks s r.2 ino id := by
  unfold writeData
  dsimp only
  split
  · exact Post.error _
  · refine Post.pure ?_
    dsimp only
    exact ((writeBack_keeps _ _ _ _ _ s).relinks ino).modStat (fun _ => rfl) (fun _ => rfl)

/-- **`sfs_write`** leaves names, handles and link counts alone. -/
theorem sfsWrite_relinks (env : Env) (fh : Int) (buf : Nat → UInt8) (size : Nat)
    (offset : Int) (s : FS) :
    Post (sfsWrite env fh buf size offset s) fun r =>
      Relinks s r.2 (s.openFiles (handleIndex fh)).stIno id := by
  have hsame : Relinks s s (s.openFiles (handleIndex fh)).stIno id :=
    (Keeps.refl s).relinks _
  unfold sfsWrite
  dsimp only
  split_ifs
  · exact Post.ok hsame
  · exact Post.ok hsame
  · exact Post.ok hsame
  · refine (growFile_relinks env _ _ s).post.bind ?_
    rintro ⟨r, t⟩ ht
    dsimp only
    split_ifs
    · exact Post.pure ht
    · exact (writeData_relinks _ buf size offset t).imp fun _ hu => ht.trans_id hu

end Sfs
