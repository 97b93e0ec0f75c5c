import CS416.Sfs.Append
import CS416.Sfs.Isolation

/-!
# What a call leaves of the files

A file stays through a call when its blocks, their contents and its size are
the same afterwards.  The calls on names and directories leave every file that
is still in use, and `sfs_create` adds one without bytes; `sfs_write` leaves
the files behind other inodes.
-/

namespace Sfs

open CInt Outcome

/-- The file `j` has the same blocks with the same contents, and its size. -/
structure KeepsFile (s t : FS) (j : Int) : Prop where
  ref : ∀ sl, refs t (j, sl) = refs s (j, sl)
  disk : ∀ sl, 0 ≤ refs s (j, sl) → t.disk (refs s (j, sl)) = s.disk (refs s (j, sl))
  size : (t.inodeTable j).stat.stSize = (s.inodeTable j).stat.stSize
  count : (t.inodeTable j).stat.stBlocks = (s.inodeTable j).stat.stBlocks

/-- The file `j` of the state `t` is a file of the state `s`. -/
def FileStays (s t : FS) (j : Int) : Prop := j ∈ allocated s ∧ IsFile s j ∧ KeepsFile s t j

section KeepsFile

variable {s t u v : FS} {A : Set Int} {i j cwd b : Int} {w : List UInt8}

theorem KeepsFile.refl (s : FS) (j : Int) : KeepsFile s s j :=
  ⟨fun _ => rfl, fun _ _ => rfl, rfl, rfl⟩

/-- One call after another. -/
theorem KeepsFile.trans (h : KeepsFile s v j) (h' : KeepsFile v t j) : KeepsFile s t j := by
  refine ⟨fun sl => (h'.ref sl).trans (h.ref sl), fun sl h₀ => ?_, h'.size.trans h.size,
    h'.count.trans h.count⟩
  have hrefs := h.ref sl
  have hdisk := h'.disk sl (by rw [hrefs]; exact h₀)
  rw [hrefs] at hdisk
  exact hdisk.trans (h.disk sl h₀)

/-- A block map, its blocks and the attributes make a file. -/
theorem KeepsFile.of_blocks (hblocks : (t.inodeTable j).blocks = (s.inodeTable j).blocks)
    (hdisk : ∀ sl, 0 ≤ refs s (j, sl) → t.disk (refs s (j, sl)) = s.disk (refs s (j, sl)))
    (hstat : (t.inodeTable j).stat = (s.inodeTable j).stat) : KeepsFile s t j :=
  ⟨refs_congr hblocks hdisk, hdisk, by rw [hstat], by rw [hstat]⟩

/-- The inode and the disk are the same. -/
theorem KeepsFile.of_node (hnode : t.inodeTable j = s.inodeTable j) (hdisk : t.disk = s.disk) :
    KeepsFile s t j :=
  .of_blocks (by rw [hnode]) (fun _ _ => by rw [hdisk]) (by rw [hnode])

/-- **A file that stays holds the same bytes.** -/
theorem KeepsFile.holds (h : KeepsFile s t j) (hw : Holds s j w) (hlimit : w.length ≤ 568320) :
    Holds t j w := by
  refine ⟨h.size.trans hw.size, h.count.trans hw.count, fun sl => ?_, fun n k hk hlt => ?_⟩
  · rw [h.ref]
    exact hw.shape sl
  · have h₀ : 0 ≤ refs s (j, dataSlot n) := by
      rw [hw.shape, rank_dataSlot (by omega)]
      unfold blocksOf
      omega
    rw [h.ref, h.disk _ h₀]
    exact hw.data n k hk hlt

/-- A file without blocks and bytes. -/
theorem holds_nil (hneg : ∀ sl, refs s (j, sl) < 0) (hsize : (s.inodeTable j).stat.stSize = 0)
    (hcount : (s.inodeTable j).stat.stBlocks = 0) : Holds s j [] := by
  refine ⟨hsize, hcount, fun sl => ?_, fun n k _ hlt => ?_⟩
  · have := hneg sl
    simp only [List.length_nil, Nat.cast_zero, blocksOf]
    omega
  · simp at hlt

/-- Blocks of different inodes are different. -/
theorem Books.other_ne {strict : Prop} {held : Set Int} (h : Books strict A held s)
    (hi : i ∈ A) (hj : j ∈ A) (hne : j ≠ i) {sl sl' : Slot} (h₀ : 0 ≤ refs s (j, sl)) :
    refs s (i, sl') ≠ refs s (j, sl) := by
  refine h.ref_ne (x := (j, sl)) (y := (i, sl')) hj hi ?_ h₀
  intro heq
  exact hne (Prod.mk.inj heq).1.symm

/-- Extending a directory leaves the other inodes. -/
theorem Extends.keepsFile {strict : Prop} {n : Nat} {blk : Block}
    (hbooks : Books strict (allocated s) ∅ s) (h : Extends (allocated s) s t cwd n blk)
    (hcwd : cwd ∈ allocated s) (hj : j ∈ allocated s) (hne : j ≠ cwd) : KeepsFile s t j := by
  refine ⟨fun sl => h.refs_ne (j, sl) hj hne, fun sl h₀ => ?_, by rw [h.stat_ne j hne],
    by rw [h.stat_ne j hne]⟩
  refine h.disk _ h₀ (hbooks.used_of_ref (x := (j, sl)) hj h₀) ?_
  intro sl' _
  exact hbooks.other_ne hcwd hj hne h₀

/-- Reducing a directory leaves the other inodes. -/
theorem Reduces.keepsFile {strict : Prop} {n : Nat} {blk : Block}
    (hbooks : Books strict (allocated s) ∅ s) (h : Reduces (allocated s) s t cwd n blk)
    (hcwd : cwd ∈ allocated s) (hj : j ∈ allocated s) (hne : j ≠ cwd) : KeepsFile s t j := by
  refine ⟨fun sl => h.refs_ne (j, sl) hj hne, fun sl h₀ => ?_, by rw [h.stat_ne j hne],
    by rw [h.stat_ne j hne]⟩
  exact h.disk _ (hbooks.other_ne hcwd hj hne h₀)

/-- A write leaves the files behind other inodes. -/
theorem Wrote.keepsFile {strict : Prop} {B m size : Nat} {offset : Int}
    {buf : Nat → UInt8} (h : Wrote A s u v t i B m buf size offset) (hi : i ∈ A)
    (ht : Books strict A ∅ t) (hj : j ∈ A) (hne : j ≠ i) : KeepsFile s t j := by
  have hstat := h.stat_ne hne
  refine ⟨fun sl => h.refs_ne (x := (j, sl)) hj hne, fun sl h₀ => ?_, by rw [hstat], by rw [hstat]⟩
  exact h.disk_other hi ht (x := (j, sl)) hj hne h₀

/-- The tables and the disk are the same. -/
theorem FileStays.of_tables (hnode : t.inodeTable = s.inodeTable) (hdisk : t.disk = s.disk)
    (hj : j ∈ allocated t) (hfile : IsFile t j) : FileStays s t j := by
  refine ⟨?_, ?_, .of_node (by rw [hnode]) hdisk⟩
  · rw [allocated, hnode] at hj
    exact hj
  · rw [IsFile, hnode] at hfile
    exact hfile

/-- The file stays, and is kept by what follows. -/
theorem FileStays.trans (h : FileStays s v j) (h' : KeepsFile v t j) : FileStays s t j :=
  ⟨h.1, h.2.1, h.2.2.trans h'⟩

/-- A link less leaves the inode that is still in use. -/
theorem freeInode_stays (hj : j ∈ allocated (freeInode i s)) (hfile : IsFile (freeInode i s) j) :
    FileStays s (freeInode i s) j := by
  by_cases hji : j = i
  · subst hji
    rcases freeInode_cases j s with ⟨_, heq⟩ | ⟨_, hfree, _⟩
    · rw [heq] at hj hfile ⊢
      rw [IsFile, FS.modStat_stat_self] at hfile
      refine ⟨⟨hj.1, hj.2.1, ?_⟩, hfile, fun sl => refs_modStat s j _ (j, sl), fun _ _ => rfl,
        by rw [FS.modStat_stat_self], by rw [FS.modStat_stat_self]⟩
      rw [← hj.2.2, FS.modStat_avail]
    · exact absurd hj (not_mem_allocated hfree)
  · have hnode := (freeInode_names i s).2.2 j hji
    refine ⟨⟨hj.1, hj.2.1, by rw [← hnode]; exact hj.2.2⟩, ?_,
      .of_node hnode (freeInode_frame i s).1⟩
    rw [IsFile, ← hnode]
    exact hfile

end KeepsFile

section Names

variable {strict : Prop} {rule : SizeRule} {s t u v : FS} {env : Env} {path entry : Path}
  {mode : Nat} {r fi fh i j k m b : Int}

/-- The inode that is set up was in no file's way. -/
theorem Prepared.stays (h : Blocks strict rule s) (hp : Prepared s u i)
    (hblocks : ∀ j, j ≠ i → (u.inodeTable j).blocks = (s.inodeTable j).blocks)
    (hnode : v.inodeTable = u.inodeTable)
    (hdisk : SameDisk s v)
    (hj : j ∈ allocated v) (hfile : IsFile v j) (hne : j ≠ i) : FileStays s v j := by
  have hjs : j ∈ allocated s := by
    refine ⟨hj.1, hj.2.1, ?_⟩
    rw [← hp.avail_ne j hne, ← hnode]
    exact hj.2.2
  refine ⟨hjs, ?_, .of_blocks ?_ (fun sl _ => ?_) ?_⟩
  · rw [IsFile, ← hp.stat_ne j hne, ← hnode]
    exact hfile
  · rw [hnode, hblocks j hne]
  · exact hdisk.ref h.books (x := (j, sl)) hjs
  · rw [hnode, hp.stat_ne j hne]

/-- **The directory that takes a name** is no file, and the files stay. -/
theorem enter_files (ht : Tree s) (h : Blocks strict rule s) (he : Entered s v m i k path)
    (hv : Blocks strict rule v)
    (hblocks : ∀ j, j ≠ i → (v.inodeTable j).blocks = (s.inodeTable j).blocks)
    (hdisk : SameDisk s v)
    (hfit : DirFits strict s (inoOf s k) ((dirEntry (getName path) i).length + 1))
    (happ : appendEntry env (inoOf s k) (dirEntry (getName path) i) v = .ok t)
    (hj : j ∈ allocated t) (hfile : IsFile t j) : FileStays v t j := by
  obtain ⟨hk, hkd, _⟩ := he.parent
  have hA := ht.dir_allocated hk
  have hki : inoOf s k ≠ i := by
    intro heq
    rw [heq] at hA
    exact not_mem_allocated he.node.2.2 hA
  have hcwd : inoOf s k ∈ allocated v :=
    ⟨hA.1, hA.2.1, by rw [he.avail_ne _ hki]; exact hA.2.2⟩
  have hdir : ¬ IsFile v (inoOf s k) := by
    rw [IsFile, he.stat_ne _ hki]
    exact not_isFile_of_isDir hkd
  have hfit' := (hfit.congr (hblocks _ hki) (by rw [he.stat_ne _ hki]) fun p =>
    hdisk.ref h.books (x := (inoOf s k, p)) hA).2
  obtain ⟨_, hext⟩ := (hv.append env hcwd hdir hfit').post _ happ
  have hjv : j ∈ allocated v := by
    rw [← allocated_congr hext.avail]
    exact hj
  have hne : j ≠ inoOf s k := by
    rintro rfl
    refine hdir ?_
    rw [IsFile, ← hext.mode]
    exact hfile
  refine ⟨hjv, ?_, hext.keepsFile hv.books hcwd hjv hne⟩
  rw [IsFile, ← hext.stat_ne j hne]
  exact hfile

/-- **`sfs_create` leaves the files**, and adds one without bytes when it succeeds. -/
theorem sfsCreate_files (h : Blocks strict rule s) (ht : Tree s)
    (hfuse : FuseOk s (.create path mode)) (hok : BlockOk strict rule s (.create path mode))
    (hcr : sfsCreate env path mode fi s = .ok (r, fh, t)) (hj : j ∈ allocated t)
    (hfile : IsFile t j) : FileStays s t j ∨ r = 0 ∧ j = (getInode s).1 ∧ Holds t j [] := by
  obtain ⟨_, hts⟩ | ⟨u, i, fh', hp, hn, _, hts⟩ | ⟨u, m, i, k, fh', hp, hn, he, hm, hi, hr, happ⟩ :=
    sfsCreate_cases ht hfuse _ hcr
  · obtain rfl : t = s := hts
    exact Or.inl ⟨hj, hfile, .refl t j⟩
  · obtain rfl : t = freeFh fh' (freeInode i u) := hts
    have hjf : j ∈ allocated (freeInode i u) := hj
    -- the inode had one link, and is given up
    have hne : j ≠ i := by
      rintro rfl
      rcases freeInode_cases j u with ⟨hlink, _⟩ | ⟨_, hfree, _⟩
      · rw [hn.nlink] at hlink
        exact absurd hlink (by decide)
      · exact not_mem_allocated hfree hjf
    obtain ⟨hju, hfu, hsame⟩ := freeInode_stays hjf hfile
    have hstays := hp.stays h hn.blocks_ne rfl (.of_eq hn.disk) hju hfu hne
    exact Or.inl (hstays.trans (hsame.trans (.of_node rfl rfl)))
  · obtain ⟨hu, _, hneg⟩ := h.newFile hp hn
    have hv := hu.same (t := enterName m i path
      (u.setName m { u.nameTable m with avail := ALLOCD })) rfl rfl rfl
    have hfit := hok (pathLookup_new hfuse.2.2.1 he.fresh ht) (hm ▸ he.slot.1) k he.parent.1
      he.parent.2.2
    rw [newEntry, ← hi] at hfit
    obtain ⟨hjv, hfv, hsame⟩ := enter_files ht h he hv hn.blocks_ne
      (.of_eq hn.disk) hfit happ hj hfile
    by_cases hji : j = i
    · subst hji
      have hnew : Holds u j [] := holds_nil hneg hn.size hn.count
      have hentered : KeepsFile u (enterName m j path
        (u.setName m { u.nameTable m with avail := ALLOCD })) j := .of_node rfl rfl
      exact Or.inr ⟨hr, hi, hsame.holds (hentered.holds hnew (by decide)) (by decide)⟩
    · have hstays : FileStays s (enterName m i path
          (u.setName m { u.nameTable m with avail := ALLOCD })) j :=
        hp.stays h hn.blocks_ne rfl (.of_eq hn.disk) hjv hfv hji
      exact Or.inl (hstays.trans hsame)

/-- The new inode of `sfs_mkdir`. -/
theorem sfsMkdir_node (hfree : HasFreeInode s) (hl : ¬ pathLookup s path > 0)
    (hmk : sfsMkdir env path mode s = .ok (r, t)) :
    (t.inodeTable (getInode s).1).avail = ALLOCD ∧
      (t.inodeTable (getInode s).1).stat.stMode = mode ||| S_IFDIR := by
  obtain ⟨i, hget, _⟩ := getInode_of_free hfree
  unfold sfsMkdir at hmk
  rw [if_neg hl] at hmk
  simp only [hget] at hmk ⊢
  generalize hw : (s.modInode i _).modStat i _ = w at hmk
  have hset : (w.inodeTable i).avail = ALLOCD ∧
      (w.inodeTable i).stat.stMode = mode ||| S_IFDIR ∧ (w.inodeTable i).stat.stNlink = 2 := by
    rw [← hw]
    simp
  obtain ⟨⟨b, v⟩, hb, hmk⟩ := bind_ok.mp hmk
  dsimp only at hmk
  have hkeeps := ((getBlock_outcome w).post _ hb).keeps.trans (keeps_setBlocks v i 0 b)
  generalize v.setBlocks i 0 b = u at hkeeps hmk
  rw [← hkeeps.avail i, ← hkeeps.stat i] at hset
  have hmap : (getMapping u).2.inodeTable = u.inodeTable := by
    rcases getMapping_cases u with ⟨m, hmap, _⟩ | hmap
    · rw [hmap]
      rfl
    · rw [hmap]
  rw [← hmap] at hset
  split at hmk
  · obtain ⟨_, rfl⟩ := Prod.mk.inj (Except.ok.inj hmk)
    rcases freeInode_cases i (getMapping u).2 with ⟨_, heq⟩ | ⟨hlink, _⟩
    · rw [heq, FS.modStat_avail, FS.modStat_stat_self]
      exact ⟨hset.1, hset.2.1⟩
    · rw [hset.2.2] at hlink
      exact absurd (by decide) hlink
  split at hmk
  · cases hmk
  · obtain ⟨v', happ, heq⟩ := bind_ok.mp hmk
    obtain ⟨_, rfl⟩ := Prod.mk.inj (Except.ok.inj heq)
    have hrel := (appendEntry_relinks env _ _ _).post _ happ
    rw [hrel.avail, hrel.mode]
    exact ⟨hset.1, hset.2.1⟩

/-- **`sfs_mkdir` leaves the files.** -/
theorem sfsMkdir_files (h : Blocks strict rule s) (ht : Tree s)
    (hfuse : FuseOk s (.mkdir path mode)) (hok : BlockOk strict rule s (.mkdir path mode))
    (hmode : isDirMode (mode ||| S_IFDIR) = true)
    (hmk : sfsMkdir env path mode s = .ok (r, t)) (hj : j ∈ allocated t)
    (hfile : IsFile t j) : FileStays s t j := by
  by_cases hl : pathLookup s path > 0
  · rw [sfsMkdir, if_pos hl] at hmk
    obtain ⟨_, rfl⟩ := Prod.mk.inj (Except.ok.inj hmk)
    exact ⟨hj, hfile, .refl s j⟩
  obtain ⟨havail, hdir⟩ := sfsMkdir_node hfuse.2.2 hl hmk
  have hne : j ≠ (getInode s).1 := by
    rintro rfl
    rw [IsFile, hdir, hmode] at hfile
    cases hfile
  obtain ⟨i, hget, _, _, hi⟩ := getInode_of_free hfuse.2.2
  have hnew : (s.inodeTable (getInode s).1).avail = FREE := by
    rw [hget]
    exact hi
  obtain ⟨_, hts⟩ | ⟨u, i', b, hp, hn, _, hts⟩ | ⟨u, m, i', k, b, hp, hn, he, hm, hi', _, happ⟩ :=
    sfsMkdir_cases ht hfuse _ hmk
  · obtain rfl : t = s := hts
    exact ⟨hj, hfile, .refl t j⟩
  · obtain rfl : t = freeInode i' u := hts
    have hi' : (getInode s).1 = i' := by
      by_contra hother
      rw [(freeInode_names i' u).2.2 _ hother, hp.avail_ne _ hother, hnew] at havail
      exact absurd havail (by decide)
    rw [hi'] at hne
    obtain ⟨hju, hfu, hsame⟩ := freeInode_stays hj hfile
    have hstays := hp.stays h hn.blocks_ne rfl (.of_eq hn.disk) hju hfu hne
    exact hstays.trans hsame
  · obtain ⟨hu, _, hfirst⟩ := h.newDir hp hn
    generalize hw : enterName m i' path
      (u.setName m { u.nameTable m with avail := ALLOCD }) = w at he happ
    have hwnode : w.inodeTable = u.inodeTable := by rw [← hw]; rfl
    have hwdisk : w.disk = u.disk := by rw [← hw]; rfl
    have hwused : w.diskBlocks = u.diskBlocks := by rw [← hw]; rfl
    have hwB := hu.same hwnode hwused hwdisk
    have hiw : i' ∈ allocated w := ⟨hp.range.1, hp.range.2, he.avail⟩
    have hv := hwB.writeData hiw (isIndex_dataSlot 0) (textBlock (dirHeader i' (inoOf s k)))
    have hb : refs w (i', dataSlot 0) = b := by rw [refs, hwnode, hwdisk, ← refs, hfirst]
    rw [hb] at hv
    have hdisk : SameDisk s (w.write b (textBlock (dirHeader i' (inoOf s k)))) :=
      (SameDisk.of_eq (hwdisk.trans hn.disk)).write hn.block.1 hn.block.2.2 _
    have hfit := hok (pathLookup_new hfuse.2.1 he.fresh ht) (hm ▸ he.slot.1) k he.parent.1
      he.parent.2.2
    rw [newEntry, ← hi'] at hfit
    have hblocks : ∀ j, j ≠ i' →
        ((w.write b (textBlock (dirHeader i' (inoOf s k)))).inodeTable j).blocks =
          (s.inodeTable j).blocks := by
      intro j hj
      rw [FS.write_inodeTable, hwnode, hn.blocks_ne j hj]
    obtain ⟨hjv, hfv, hsame⟩ := enter_files ht h (he.write b _) hv hblocks hdisk hfit happ hj hfile
    have hstays : FileStays s (w.write b (textBlock (dirHeader i' (inoOf s k)))) j :=
      hp.stays h hn.blocks_ne hwnode hdisk hjv hfv (hi' ▸ hne)
    exact hstays.trans hsame

/-- **Giving a name up leaves the files.** -/
theorem erase_files (h : Blocks strict rule s) (ht : Tree s) (hk : Entry s k) (hkd : IsDir s k)
    (hu : removeEntry env (inoOf s k) entry { s with cwdInode := inoOf s k } = .ok u)
    (hj : j ∈ allocated (freeMapping m (freeInode i u)))
    (hfile : IsFile (freeMapping m (freeInode i u)) j) :
    FileStays s (freeMapping m (freeInode i u)) j := by
  have hs : Blocks strict rule { s with cwdInode := inoOf s k } := h.same rfl rfl rfl
  obtain ⟨_, hred⟩ := hs.remove env (ht.dir_allocated hk) (not_isFile_of_isDir hkd) u hu
  obtain ⟨hju, hfu, hsame⟩ := freeInode_stays (s := u) (i := i) hj hfile
  have hjs : j ∈ allocated s := by
    rw [allocated_congr hred.avail] at hju
    exact hju
  have hne : j ≠ inoOf s k := by
    rintro rfl
    refine not_isFile_of_isDir hkd ?_
    rw [IsFile, hred.mode] at hfu
    exact hfu
  have hfs : IsFile s j := by
    rw [IsFile, hred.stat_ne j hne] at hfu
    exact hfu
  have hred' : KeepsFile { s with cwdInode := inoOf s k } u j :=
    hred.keepsFile hs.books (ht.dir_allocated hk) hjs hne
  have hcwd : KeepsFile s { s with cwdInode := inoOf s k } j := .of_node rfl rfl
  exact ⟨hjs, hfs, hcwd.trans (hred'.trans (hsame.trans (.of_node rfl rfl)))⟩

/-- `sfs_unlink` leaves the other files alone. -/
theorem sfsUnlink_files (h : Blocks strict rule s) (ht : Tree s)
    (hfuse : FuseOk s (.unlink path)) (hun : sfsUnlink env path s = .ok (r, t))
    (hj : j ∈ allocated t) (hfile : IsFile t j) : FileStays s t j := by
  obtain ⟨m, k, u, _, _, _, ⟨hk, hkd, _⟩, _, hu, hts⟩ := sfsUnlink_cases ht hfuse _ hun
  obtain rfl : t = freeMapping m (freeInode (inoOf s m) u) := hts
  exact erase_files h ht hk hkd hu hj hfile

/-- `sfs_rmdir` leaves the files alone. -/
theorem sfsRmdir_files (h : Blocks strict rule s) (ht : Tree s)
    (hfuse : FuseOk s (.rmdir path)) (hrm : sfsRmdir env path s = .ok (r, t))
    (hj : j ∈ allocated t) (hfile : IsFile t j) : FileStays s t j := by
  obtain ⟨m, k, _, _, _, ⟨hk, hkd, _⟩, ⟨_, _, hts⟩ | ⟨u, _, _, hu, hts⟩⟩ :=
    sfsRmdir_cases ht hfuse _ hrm
  · obtain rfl : t = { s with cwdInode := inoOf s k } := hts
    exact .of_tables rfl rfl hj hfile
  · obtain rfl : t = freeMapping m (freeInode (inoOf s m) u) := hts
    exact erase_files h ht hk hkd hu hj hfile

end Names

end Sfs
