import CS416.Sfs.AgreedCalls

/-!
# Names on states that agree

The calls that enter and delete names, and the ones on handles, do the same in
two states that agree.  With the write this makes all calls: `exec_agree`.
-/

namespace Sfs

open CInt Outcome

/-- The same entries of `disk_blocks`. -/
def SameUsed (used used' : Int → Int) : Prop := ∀ b, 0 ≤ b → b < numBlocks → used' b = used b

section Free

variable {used used' : Int → Int} {d d' : Disk} {buf : Block} {blocks blocks' : Int → Int}
  {n k : Nat} {s s' : FS} {ino m : Int}

/-- The same mark is set in both tables. -/
theorem SameUsed.update (h : SameUsed used used') (b v : Int) :
    SameUsed (Function.update used b v) (Function.update used' b v) := by
  intro c h₀ h₁
  by_cases hc : c = b
  · rw [hc, Function.update_self, Function.update_self]
  · rw [Function.update_of_ne hc, Function.update_of_ne hc]
    exact h c h₀ h₁

private theorem freeRun_agree (h : SameUsed used used') :
    SameUsed (freeRun buf n k used) (freeRun buf n k used') := by
  induction n generalizing k used used' with
  | zero => exact h
  | succ n ih =>
      rw [freeRun, freeRun]
      split
      · exact ih (h.update _ _)
      · exact h

private theorem freeSubs_agree (h : SameUsed used used')
    (hdisk : ∀ j, k ≤ j → j < k + n → blockRead d' (buf.short j) = blockRead d (buf.short j)) :
    SameUsed (freeSubs d buf n k used) (freeSubs d' buf n k used') := by
  induction n generalizing k used used' with
  | zero => exact h
  | succ n ih =>
      rw [freeSubs, freeSubs, hdisk k (le_refl k) (by omega)]
      split
      · exact ih ((freeRun_agree h).update _ _) fun j h₀ h₁ => hdisk j (by omega) (by omega)
      · exact h

private theorem freeDirect_agree (h : SameUsed used used')
    (hblocks : ∀ j < n, blocks' (j : Nat) = blocks (j : Nat)) :
    SameUsed (freeDirect blocks n used) (freeDirect blocks' n used') := by
  induction n with
  | zero => exact h
  | succ n ih =>
      rw [freeDirect, freeDirect, hblocks n (by omega)]
      exact (ih fun j hj => hblocks j (by omega)).update _ _

/-- **The same blocks of an inode are freed.**  Its index blocks are read in front of the
reserved area. -/
theorem freeBlocks_agree (h : Agree s s') (hlow : RefsLow s ino)
    (hi₀ : 0 ≤ ino) (hi₁ : ino < maxNodes) :
    SameUsed (freeBlocks s.disk (s.inodeTable ino).blocks s.diskBlocks)
      (freeBlocks s'.disk (s'.inodeTable ino).blocks s'.diskBlocks) := by
  have hblocks := (h.node ino hi₀ hi₁).blocks
  have hdouble : SameUsed (freeDouble s.disk (s.inodeTable ino).blocks s.diskBlocks)
      (freeDouble s'.disk (s'.inodeTable ino).blocks s'.diskBlocks) := by
    unfold freeDouble
    rw [hblocks 11 (by decide) (by decide), h.read hlow.double]
    split
    · rename_i hthere
      exact (freeSubs_agree h.used fun j _ hj =>
        h.read (hlow.sub (by omega) (by omega))).update _ _
    · exact h.used
  have hsingle : SameUsed (freeSingle s.disk (s.inodeTable ino).blocks
      (freeDouble s.disk (s.inodeTable ino).blocks s.diskBlocks))
      (freeSingle s'.disk (s'.inodeTable ino).blocks
        (freeDouble s'.disk (s'.inodeTable ino).blocks s'.diskBlocks)) := by
    unfold freeSingle
    rw [hblocks 10 (by decide) (by decide), h.read hlow.single]
    split
    · exact (freeRun_agree hdouble).update _ _
    · exact hdouble
  exact freeDirect_agree hsingle fun j hj => hblocks j (by omega) (by omega)

/-- **`free_inode`** in both states. -/
theorem freeInode_agree (h : Agree s s') (hlow : RefsLow s ino)
    (hi₀ : 0 ≤ ino) (hi₁ : ino < maxNodes) : Agree (freeInode ino s) (freeInode ino s') := by
  have hdrop := h.modStat ino fun st => { st with stNlink := toU64 (st.stNlink - 1) }
  have hused := freeBlocks_agree h hlow hi₀ hi₁
  unfold freeInode
  dsimp only
  rw [FS.modStat_stat_self, FS.modStat_stat_self, (h.node ino hi₀ hi₁).stat]
  split
  · exact hdrop
  · refine Agree.modInode { hdrop with used := ?_ } fun _ _ => ⟨rfl, rfl, fun j hj₀ hj₁ => ?_⟩
    · rw [FS.modStat_blocks, FS.modStat_blocks]
      exact hused
    · dsimp only
      rw [FS.modStat_blocks, FS.modStat_blocks, (h.node ino hi₀ hi₁).blocks j hj₀ hj₁]

private theorem freeMapping_agree (h : Agree s s') : Agree (freeMapping m s) (freeMapping m s') :=
  h.setName fun _ _ => rfl

end Free

section Remove

variable {strict : Prop} {A held : Set Int} {s s' t : FS} {env : Env} {cwd blocks : Int}
  {text entry : Path}

/-- The first ten logical blocks are entries of the inode. -/
theorem directIndex_agree (h : Agree s s') (hi₀ : 0 ≤ cwd) (hi₁ : cwd < maxNodes)
    (h₀ : 0 ≤ blocks) (h₁ : blocks < 10) :
    getBlockIndex s'.disk (s'.inodeTable cwd) blocks =
      getBlockIndex s.disk (s.inodeTable cwd) blocks := by
  rw [getBlockIndex, getBlockIndex, if_pos h₁, if_pos h₁]
  exact (h.node cwd hi₀ hi₁).blocks blocks h₀ (by omega)

/-- The text that `sfs_unlink` and `sfs_rmdir` read. -/
theorem dirString_agree (h : Agree s s') (hlow : RefsLow s cwd) (hi₀ : 0 ≤ cwd)
    (hi₁ : cwd < maxNodes) : dirString env s' cwd blocks = dirString env s cwd blocks := by
  have hidx : getBlockIndex s.disk (s.inodeTable cwd) 0 = (s.inodeTable cwd).blocks 0 :=
    if_pos (by decide)
  rw [dirString, dirString, directIndex_agree h hi₀ hi₁ (le_refl 0) (by decide), hidx,
    h.read (hlow.direct (le_refl 0) (by decide))]

/-- The text is written back alike. -/
theorem storeText_agree (h : Agree s s') (hi₀ : 0 ≤ cwd) (hi₁ : cwd < maxNodes) :
    Agree (storeText cwd blocks text s) (storeText cwd blocks text s') := by
  unfold storeText
  split
  · exact h
  · rw [directIndex_agree h hi₀ hi₁ (le_refl 0) (by decide)]
    exact h.write _

/-- A directory shrinks alike in both states. -/
theorem shrinkDir_agree {size resize : Int} (h : Agree s s') (hi₀ : 0 ≤ cwd)
    (hi₁ : cwd < maxNodes) (h₀ : 0 ≤ blocks) (h₁ : blocks < 10)
    (hshrink : shrinkDir env cwd size resize blocks s = .ok t) :
    ∃ t', shrinkDir env cwd size resize blocks s' = .ok t' ∧ Agree t t' := by
  unfold shrinkDir at hshrink ⊢
  split at hshrink
  · rename_i hless
    rw [setBlockIndex, if_pos h₁] at hshrink
    cases hshrink
    rw [if_pos hless, setBlockIndex, if_pos h₁, directIndex_agree h hi₀ hi₁ h₀ h₁]
    exact ⟨_, rfl, h.setUsed.setBlocks _ _ _⟩
  · rename_i hless
    cases hshrink
    rw [if_neg hless]
    exact ⟨s', rfl, h⟩

/-- **An entry is deleted alike.** -/
theorem removeEntry_agree (h : Agree s s') (hlow : RefsLow s cwd) (hi₀ : 0 ≤ cwd)
    (hi₁ : cwd < maxNodes) (hremove : removeEntry env cwd entry s = .ok t) :
    ∃ t', removeEntry env cwd entry s' = .ok t' ∧ Agree t t' := by
  unfold removeEntry at hremove ⊢
  dsimp only at hremove ⊢
  rw [(h.node cwd hi₀ hi₁).stat, dirString_agree h hlow hi₀ hi₁]
  split at hremove
  · cases hremove
  · rename_i hresize
    rw [if_neg hresize]
    obtain ⟨u, hshrink, hret⟩ := bind_ok.mp hremove
    cases hret
    have hnonneg : 0 ≤ dirBlocks (toInt (s.inodeTable cwd).stat.stSize) := by
      obtain hn | hn := dirBlocks_cases (toInt (s.inodeTable cwd).stat.stSize) <;> omega
    obtain ⟨u', hshrink', hagree⟩ := shrinkDir_agree (storeText_agree h hi₀ hi₁) hi₀ hi₁
      hnonneg (dirBlocks_lt _) hshrink
    rw [hshrink', ok_bind]
    exact ⟨_, rfl, hagree.modStat _ _⟩

end Remove

section Lookup

variable {s s' : FS} {path : Path} {m k : Int}

/-- A path is found in the table, if at all. -/
theorem pathLookup_lt (s : FS) (path : Path) : pathLookup s path < maxLink := by
  by_cases h : 0 ≤ pathLookup s path
  · exact (pathLookup_spec h).1
  · exact lt_trans (not_le.mp h) (by decide)

/-- An entry has the same inode in both states. -/
theorem inoOf_agree (h : Agree s s') (hm : Entry s m) : (s'.nameTable m).stIno = inoOf s m := by
  rw [h.names m hm.1 hm.2.1]
  rfl

/-- The lookup of a directory that the other side has as well. -/
theorem parentIno_agree (h : Agree s s') (ht : Tree s) (hk : Entry s k)
    (hkp : IsParent (pathOf s k) path) :
    (s'.nameTable (pathLookup s' (getCwdPath path))).stIno = inoOf s k := by
  rw [pathLookup_agree h, hkp.getCwdPath_eq, ht.lookup hk]
  exact inoOf_agree h hk

end Lookup

section Delete

variable {strict : Prop} {rule : SizeRule} {s s' t u : FS} {env : Env} {path : Path}
  {r m k : Int}

/-- The reserved area depends on the marks only. -/
theorem Reserved.congr (h : Reserved s) (hsystem : t.systemBlock = s.systemBlock)
    (hused : t.diskBlocks = s.diskBlocks) : Reserved t where
  system := hsystem.trans h.system
  free c hc hlt := by
    rw [hused]
    exact h.free c (by rw [← hsystem]; exact hc) hlt

private theorem Reserved.freesOnly (h : Reserved s) (hfrees : FreesOnly s t) : Reserved t where
  system := hfrees.system.trans h.system
  free c hc hlt := hfrees.used.free (h.free c (by rw [← hfrees.system]; exact hc) hlt)

/-- Deleting an entry, and giving up the inode and the name. -/
theorem erase_agree (h : Agree s s') (hb : Blocks strict rule s) (ht : Tree s)
    (hres : Reserved s) (hm : Entry s m) (hk : Entry s k) (hkd : IsDir s k)
    (hremove : removeEntry env (inoOf s k) (dirEntry (getName path) (inoOf s m))
      { s with cwdInode := inoOf s k } = .ok u) :
    ∃ u', removeEntry env (inoOf s k) (dirEntry (getName path) (inoOf s m))
        { s' with cwdInode := inoOf s k } = .ok u' ∧
      Agree (freeMapping m (freeInode (inoOf s m) u))
        (freeMapping m (freeInode (inoOf s m) u')) := by
  obtain ⟨hk₀, hk₁, hkA⟩ := ht.dir_allocated hk
  obtain ⟨hm₀, hm₁, hmA⟩ := ht.dir_allocated hm
  have hcwd : Blocks strict rule { s with cwdInode := inoOf s k } := hb.same rfl rfl rfl
  have hlow : RefsLow { s with cwdInode := inoOf s k } (inoOf s k) := fun sl =>
    hres.refsLow hb.books (ht.dir_allocated hk) sl
  obtain ⟨u', hremove', hagree⟩ := removeEntry_agree (h.setCwd _ _) hlow hk₀ hk₁ hremove
  have hrel := removeEntry_relinks env (inoOf s k) _ _ u hremove
  have hub := (hcwd.remove env ⟨hk₀, hk₁, hkA⟩ (not_isFile_of_isDir hkd) u hremove).1
  have hures : Reserved u := by
    refine Reserved.freesOnly (s := { s with cwdInode := inoOf s k }) (hres.congr rfl rfl) ?_
    exact removeEntry_freesOnly env _ _ _ u hremove
  have hmu : inoOf s m ∈ allocated u := ⟨hm₀, hm₁, by rw [hrel.avail]; exact hmA⟩
  exact ⟨u', hremove', freeMapping_agree
    (freeInode_agree hagree (hures.refsLow hub.books hmu) hm₀ hm₁)⟩

/-- **`sfs_unlink` does the same on both sides.** -/
theorem sfsUnlink_agree (h : Agree s s') (hb : Blocks strict rule s) (ht : Tree s)
    (hres : Reserved s) (hfuse : FuseOk s (.unlink path))
    (hunlink : sfsUnlink env path s = .ok (r, t)) :
    ∃ t', sfsUnlink env path s' = .ok (r, t') ∧ Agree t t' := by
  obtain ⟨m, k, u, hm, rfl, hreg, ⟨hk, hkd, hkp⟩, hr, hremove, hru⟩ :=
    sfsUnlink_cases ht hfuse _ hunlink
  obtain ⟨u', hremove', hagree⟩ := erase_agree h hb ht hres hm hk hkd hremove
  cases hr
  cases hru
  refine ⟨_, ?_, hagree⟩
  unfold sfsUnlink
  dsimp only
  rw [parentIno_agree h ht hk hkp, pathLookup_agree h, ht.lookup hm, if_neg (not_lt.mpr hm.1),
    inoOf_agree h hm, hremove', ok_bind]
  rfl

/-- **`sfs_rmdir` does the same on both sides.** -/
theorem sfsRmdir_agree (h : Agree s s') (hb : Blocks strict rule s) (ht : Tree s)
    (hres : Reserved s) (hfuse : FuseOk s (.rmdir path))
    (hrmdir : sfsRmdir env path s = .ok (r, t)) :
    ∃ t', sfsRmdir env path s' = .ok (r, t') ∧ Agree t t' := by
  obtain ⟨m, k, hm, rfl, _, ⟨hk, hkd, hkp⟩, hcases⟩ := sfsRmdir_cases ht hfuse _ hrmdir
  obtain ⟨hi₀, hi₁, _⟩ := ht.dir_allocated hm
  unfold sfsRmdir
  dsimp only
  rw [parentIno_agree h ht hk hkp, pathLookup_agree h, ht.lookup hm, if_neg (not_lt.mpr hm.1),
    inoOf_agree h hm, (h.node _ hi₀ hi₁).stat]
  rcases hcases with ⟨hlinks, hr, hru⟩ | ⟨u, hlinks, hr, hremove, hru⟩
  · cases hr
    cases hru
    rw [if_pos hlinks]
    exact ⟨_, rfl, h.setCwd _ _⟩
  · obtain ⟨u', hremove', hagree⟩ := erase_agree h hb ht hres hm hk hkd hremove
    cases hr
    cases hru
    rw [if_neg hlinks, hremove', ok_bind]
    exact ⟨_, rfl, hagree⟩

end Delete

section Enter

variable {strict : Prop} {rule : SizeRule} {s s' t u v w w' : FS} {env : Env} {path : Path}
  {mode : Nat} {fi fi' r i k m fh b : Int} {st : Stat}

private theorem enterName_agree (h : Agree u w) (path : Path) :
    Agree (enterName m i path u) (enterName m i path w) := by
  refine Agree.setCwd ?_ _ _
  exact h.setName fun h₀ h₁ => by rw [h.names m h₀ h₁]

/-- The parent is found behind the new name too. -/
theorem Entered.lookup (he : Entered s w m i k path) (ht : Tree s) :
    pathLookup w (getCwdPath path) = k ∧ (w.nameTable k).stIno = inoOf s k := by
  obtain ⟨hk, _, hkp⟩ := he.parent
  have hkm : k ≠ m := by
    intro heq
    have hfree := he.slot.2.2
    rw [← heq, hk.2.2] at hfree
    exact absurd hfree (by decide)
  have hname : w.nameTable k = s.nameTable k := by rw [he.names, Function.update_of_ne hkm]
  refine ⟨?_, by rw [hname]; rfl⟩
  rw [hkp.getCwdPath_eq]
  refine pathLookup_eq hk.1 hk.2.1 (by rw [hname]; rfl) fun j hj₀ hj₁ hj => ?_
  by_cases hjm : j = m
  · rw [hjm, he.names, Function.update_self] at hj
    exact absurd hj.symm hkp.ne
  · rw [he.names, Function.update_of_ne hjm] at hj
    have hentry := ht.entry_of_path hj₀ hj₁ (by rw [pathOf, hj]; exact ht.path_ne k hk)
    exact ht.path_inj j k hentry hk hj

/-- Both sides find the same parent. -/
theorem Entered.cwd_agree (he : Entered s (enterName m i path u) m i k path) (ht : Tree s)
    (h : Agree (enterName m i path u) (enterName m i path w)) :
    (enterName m i path w).cwdInode = inoOf s k := by
  obtain ⟨hlook, hino⟩ := he.lookup ht
  have hcwd : (enterName m i path w).cwdInode = ((enterName m i path w).nameTable
      (pathLookup (enterName m i path w) (getCwdPath path))).stIno := rfl
  rw [hcwd, pathLookup_agree h, hlook, h.names k he.parent.1.1 he.parent.1.2.1, hino]

/-- The directory can take the entry where it could before the name was entered. -/
theorem entered_fits {size : Int} (he : Entered s v m i k path) (hp : Prepared s u i)
    (ht : Tree s) (hblocks : ∀ j, j ≠ i → (v.inodeTable j).blocks = (s.inodeTable j).blocks)
    (hdisk : SameDisk s v) (hb : Blocks strict rule s)
    (hfit : DirFits strict s (inoOf s k) size) :
    inoOf s k ∈ allocated v ∧ DirFits strict v (inoOf s k) size := by
  have hA := ht.dir_allocated he.parent.1
  have hki : inoOf s k ≠ i := by
    intro heq
    rw [heq] at hA
    exact not_mem_allocated hp.free hA
  exact ⟨⟨hA.1, hA.2.1, by rw [he.avail_ne _ hki]; exact hA.2.2⟩,
    (hfit.congr (hblocks _ hki) (by rw [he.stat_ne _ hki]) fun p =>
      hdisk.ref hb.books (x := (inoOf s k, p)) hA).2⟩

/-- The entry of a new name is appended to the same directory. -/
theorem newEntry_agree (h : Agree v w) (hv : Blocks strict rule v) (hres : Reserved v)
    (hp : Prepared s u i) (he : Entered s v m i k path) (ht : Tree s)
    (hblocks : ∀ j, j ≠ i → (v.inodeTable j).blocks = (s.inodeTable j).blocks)
    (hdisk : SameDisk s v) (hb : Blocks strict rule s)
    (hfit : DirFits strict s (inoOf s k) ((dirEntry (getName path) i).length + 1))
    (happend : appendEntry env (inoOf s k) (dirEntry (getName path) i) v = .ok t)
    (hroom : HasRoom t) :
    ∃ t', appendEntry env (inoOf s k) (dirEntry (getName path) i) w = .ok t' ∧ Agree t t' := by
  obtain ⟨hAv, hfit'⟩ := entered_fits he hp ht hblocks hdisk hb hfit
  exact appendEntry_agree h hv.books hAv hres hAv.1 hAv.2.1 hfit' happend hroom

/-- The new inode of `sfs_create`, set up. -/
theorem newFile_setup (fh : Int) (st : Stat) (hget : getInode s = (i, v)) (hfree : HasFreeInode s)
    (hreg : isRegMode st.stMode = true) (hlink : st.stNlink = 1) (hsize : st.stSize = 0)
    (hcount : st.stBlocks = 0) :
    Prepared s ((v.setOpen fh ⟨1, i, 0⟩).modStat i fun _ => st) i ∧
      NewFile s ((v.setOpen fh ⟨1, i, 0⟩).modStat i fun _ => st) i fh ∧
      v.systemBlock = s.systemBlock := by
  obtain ⟨j, hj, h₀, h₁, havail⟩ := getInode_of_free hfree
  obtain ⟨rfl, rfl⟩ := Prod.mk.inj (hget.symm.trans hj)
  refine ⟨⟨⟨h₀, h₁⟩, havail, rfl, by simp, fun j hj => ?_, fun j hj => ?_, fun hd => ?_⟩,
    ⟨rfl, rfl, rfl, fun j hj => ?_, fun j hj₀ hj₁ => ?_, by simpa using hlink,
      by simpa using hsize, by simpa using hcount, by simpa using hreg⟩, rfl⟩
  · simp [FS.modInode_inodeTable_ne _ _ _ hj]
  · simp [FS.modStat_inodeTable_ne _ _ _ hj, FS.modInode_inodeTable_ne _ _ _ hj]
  · simp [not_isDir_of_isReg hreg] at hd
  · simp [FS.modInode_inodeTable_ne _ _ _ hj]
  · simp [hj₀, hj₁]

/-- **`sfs_create` does the same on both sides.** -/
theorem sfsCreate_agree (h : Agree s s') (hb : Blocks strict rule s) (ht : Tree s)
    (hres : Reserved s) (hfuse : FuseOk s (.create path mode))
    (hok : BlockOk strict rule s (.create path mode))
    (hcreate : sfsCreate env path mode fi s = .ok (r, fi', t)) (hroom : HasRoom t) :
    ∃ t', sfsCreate env path mode fi s' = .ok (r, fi', t') ∧ Agree t t' := by
  obtain ⟨hfits, hreg, ⟨k, hk⟩, hfree⟩ := hfuse
  unfold sfsCreate at hcreate ⊢
  rw [pathLookup_agree h, getFh_agree h]
  by_cases hl : pathLookup s path > 0
  · rw [if_pos hl] at hcreate ⊢
    cases hcreate
    exact ⟨s', rfl, h⟩
  rw [if_neg hl] at hcreate ⊢
  have hnode := getInode_agree h
  generalize hget : getInode s = x at hcreate hnode
  generalize getInode s' = x' at hnode ⊢
  obtain ⟨i, v⟩ := x
  obtain ⟨j, v'⟩ := x'
  obtain ⟨hj, hagree⟩ := hnode
  cases hj
  obtain ⟨hp, hn, hsys⟩ := newFile_setup (handleIndex (toU64 (getFh s)))
    (Stat.mk mode 1 env.uid env.gid 0 0 env.atime env.mtime env.ctime) hget hfree hreg
    rfl rfl rfl
  have hset := (hagree.setOpen (handleIndex (toU64 (getFh s))) ⟨1, i, 0⟩).modStat i
    fun _ => Stat.mk mode 1 env.uid env.gid 0 0 env.atime env.mtime env.ctime
  dsimp only at hcreate hp hn hset ⊢
  generalize hu : (v.setOpen _ _).modStat i _ = u at hcreate hp hn hset
  generalize (v'.setOpen _ _).modStat i _ = u' at hset ⊢
  have hures : Reserved u := hres.congr (by rw [← hu]; exact hsys) hn.used
  obtain ⟨hub, _, hneg⟩ := hb.newFile hp hn
  have hmap := getMapping_agree hset
  rw [hmap.1]
  rcases getMapping_cases u with ⟨m, hm, hm₀, hm₁, hmfree⟩ | hm
  · rw [hm] at hcreate hmap ⊢
    dsimp only at hcreate hmap ⊢
    generalize (getMapping u').2 = w at hmap ⊢
    rw [if_neg (not_lt.mpr hm₀), if_neg (not_not.mpr hfits)] at hcreate ⊢
    have he := ht.entered hp hk (ht.fresh_of_lookup ⟨k, hk⟩ hl) hm₀ hm₁ hmfree
    have hfit := hok (pathLookup_new ⟨k, hk⟩ he.fresh ht)
      (by rw [← getMapping_congr hp.names, hm]; exact hm₀) k hk.1 hk.2.2
    rw [newEntry, hget] at hfit
    have henter := enterName_agree (m := m) (i := i) hmap.2 path
    rw [he.cwd_agree ht henter]
    rw [he.cwd] at hcreate
    obtain ⟨t₀, happend, hret⟩ := bind_ok.mp hcreate
    cases hret
    obtain ⟨t', happend', hagree'⟩ := newEntry_agree henter (hub.same rfl rfl rfl)
      (hures.congr rfl rfl) hp he ht hn.blocks_ne (.of_eq hn.disk) hb hfit
      happend hroom
    rw [happend', ok_bind]
    exact ⟨t', rfl, hagree'⟩
  · rw [hm] at hcreate hmap ⊢
    dsimp only at hcreate hmap ⊢
    rw [if_pos (by decide)] at hcreate ⊢
    cases hcreate
    have hlow : RefsLow u i := fun sl => lt_trans (hneg sl) hures.system_pos
    exact ⟨_, rfl, (freeInode_agree hmap.2 hlow hp.range.1
      hp.range.2).setOpen _ _⟩

private theorem FS.write_cwdInode (s : FS) (n : Int) (blk : Block) :
    (s.write n blk).cwdInode = s.cwdInode := rfl

private theorem refs_enterName (m i : Int) (path : Path) (s : FS) (e : PathMap) (x : Int × Slot) :
    refs (enterName m i path (s.setName m e)) x = refs s x := rfl

/-- The new inode of `sfs_mkdir`, with its first block. -/
theorem newDir_setup (hget : getInode s = (i, v)) (hfree : HasFreeInode s)
    (hlink : st.stNlink = 2) (hsize : st.stSize = 512) (hcount : st.stBlocks = 1)
    (hb : Taken (v.modStat i fun _ => st) b w) :
    Prepared s (w.setBlocks i 0 b) i ∧ NewDir s (w.setBlocks i 0 b) i b := by
  obtain ⟨j, hj, h₀, h₁, havail⟩ := getInode_of_free hfree
  obtain ⟨rfl, rfl⟩ := Prod.mk.inj (hget.symm.trans hj)
  have hfree' := hb.free
  obtain rfl := hb.state
  refine ⟨⟨⟨h₀, h₁⟩, havail, rfl, by simp, fun j hj => ?_, fun j hj => ?_,
      fun _ => by simpa using hlink⟩,
    ⟨rfl, rfl, rfl, ⟨hb.nonneg, hb.lt, hfree'⟩, fun j hj => ?_, fun j hj₀ hj₁ => ?_,
      by simpa using hlink, by simpa using hsize, by simpa using hcount⟩⟩
  · simp [FS.modInode_inodeTable_ne _ _ _ hj]
  · simp [FS.modStat_inodeTable_ne _ _ _ hj, FS.modInode_inodeTable_ne _ _ _ hj]
  · rw [FS.setBlocks_inodeTable_ne _ _ _ _ hj]
    simp [FS.modInode_inodeTable_ne _ _ _ hj]
  · by_cases hj : j = 0
    · simp [hj]
    · simp [hj, hj₀, hj₁]

/-- **`sfs_mkdir` does the same on both sides.** -/
theorem sfsMkdir_agree (h : Agree s s') (hb : Blocks strict rule s) (ht : Tree s)
    (hres : Reserved s) (hfuse : FuseOk s (.mkdir path mode))
    (hok : BlockOk strict rule s (.mkdir path mode))
    (hmkdir : sfsMkdir env path mode s = .ok (r, t)) (hroom : HasRoom t) :
    ∃ t', sfsMkdir env path mode s' = .ok (r, t') ∧ Agree t t' := by
  obtain ⟨hfits, ⟨k, hk⟩, hfree⟩ := hfuse
  unfold sfsMkdir at hmkdir ⊢
  rw [pathLookup_agree h]
  by_cases hl : pathLookup s path > 0
  · rw [if_pos hl] at hmkdir ⊢
    cases hmkdir
    exact ⟨s', rfl, h⟩
  rw [if_neg hl] at hmkdir ⊢
  have hnode := getInode_agree h
  generalize hget : getInode s = x at hmkdir hnode
  generalize getInode s' = x' at hnode ⊢
  obtain ⟨i, v⟩ := x
  obtain ⟨j, v'⟩ := x'
  obtain ⟨hj, hagree⟩ := hnode
  cases hj
  have hset := hagree.modStat i fun _ => Stat.mk (mode ||| S_IFDIR) 2 env.uid env.gid
    512 1 env.atime env.mtime env.ctime
  dsimp only at hmkdir hset ⊢
  obtain ⟨y, hblock, hrest⟩ := bind_ok.mp hmkdir
  obtain ⟨b, w⟩ := y
  obtain ⟨hblock', hw, htaken⟩ := getBlock_agree hset hblock
  obtain ⟨hp, hn⟩ := newDir_setup hget hfree rfl rfl rfl htaken
  have hfront : TakesFront s w := by
    refine htaken.front.before ?_ ?_ <;>
      obtain ⟨j, hj, _⟩ := getInode_of_free hfree <;>
      obtain ⟨rfl, rfl⟩ := Prod.mk.inj (hget.symm.trans hj) <;> rfl
  have hu := hw.setBlocks i 0 b
  rw [hblock', ok_bind]
  dsimp only at hrest ⊢
  obtain ⟨hub, hrefs, hfirst⟩ := hb.newDir hp hn
  have hfront' : TakesFront s (w.setBlocks i 0 b) := hfront.congr rfl rfl
  generalize w.setBlocks i 0 b = u at hrest hp hn hu hub hrefs hfirst hfront'
  generalize ((v'.modStat i _).setUsed b ALLOCD).setBlocks i 0 b = u' at hu ⊢
  have hmap := getMapping_agree hu
  rw [hmap.1]
  rcases getMapping_cases u with ⟨m, hm, hm₀, hm₁, hmfree⟩ | hm
  · rw [hm] at hrest hmap ⊢
    dsimp only at hrest hmap ⊢
    generalize (getMapping u').2 = w' at hmap ⊢
    rw [if_neg (not_lt.mpr hm₀), if_neg (not_not.mpr hfits)] at hrest ⊢
    have he := ht.entered hp hk (ht.fresh_of_lookup ⟨k, hk⟩ hl) hm₀ hm₁ hmfree
    have hfit := hok (pathLookup_new ⟨k, hk⟩ he.fresh ht)
      (by rw [← getMapping_congr hp.names, hm]; exact hm₀) k hk.1 hk.2.2
    rw [newEntry, hget] at hfit
    have henter := enterName_agree (m := m) (i := i) hmap.2 path
    have hub' := hub.same (t := enterName m i path (u.setName m
      { u.nameTable m with avail := ALLOCD })) rfl rfl rfl
    have hindex : getBlockIndex (enterName m i path (u.setName m
        { u.nameTable m with avail := ALLOCD })).disk ((enterName m i path (u.setName m
          { u.nameTable m with avail := ALLOCD })).inodeTable i) 0 = b := hfirst
    have hindex' := directIndex_agree henter hp.range.1 hp.range.2 (le_refl 0) (by decide)
    rw [hindex] at hindex' hrest
    rw [hindex']
    rw [FS.write_cwdInode, he.cwd] at hrest
    rw [FS.write_cwdInode, he.cwd_agree ht henter]
    obtain ⟨t₀, happend, hret⟩ := bind_ok.mp hrest
    cases hret
    have hv := hub'.writeData ⟨hp.range.1, hp.range.2, he.avail⟩ (isIndex_dataSlot 0)
      (textBlock (dirHeader i (inoOf s k)))
    rw [refs_enterName, hfirst] at hv
    have hroom' := (appendEntry_front env _ _ _ _ happend).room hroom
    have hures := hres.step (Or.inl (hfront'.congr rfl rfl)) hroom'
    have hdisk : SameDisk s ((enterName m i path
        (u.setName m { u.nameTable m with avail := ALLOCD })).write b
          (textBlock (dirHeader i (inoOf s k)))) :=
      (SameDisk.of_eq hn.disk).write hn.block.1 hn.block.2.2 _
    obtain ⟨t', happend', hagree'⟩ := newEntry_agree
      (henter.write (textBlock (dirHeader i (inoOf s k)))) hv (hures.congr rfl rfl) hp
      (he.write b _) ht hn.blocks_ne hdisk hb hfit happend hroom
    rw [happend', ok_bind]
    exact ⟨t', rfl, hagree'⟩
  · rw [hm] at hrest hmap ⊢
    dsimp only at hrest hmap ⊢
    rw [if_pos (by decide)] at hrest ⊢
    cases hrest
    have hroom' : HasRoom u :=
      (TakesFront.same (freeInode_linked hn.nlink).1
        fun c _ => congrFun (freeInode_linked hn.nlink).2 c).room hroom
    have hures := hres.step (Or.inl hfront') hroom'
    exact ⟨_, rfl, freeInode_agree hmap.2
      (hures.refsLow hub.books ⟨hp.range.1, hp.range.2, hp.avail⟩) hp.range.1 hp.range.2⟩

end Enter

end Sfs
