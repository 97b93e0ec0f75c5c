import CS416.Sfs.WriteLimit

/-!
# Calls on full tables

`sfs_create` and `sfs_mkdir` test the result of `get_mapping` only.  With no
free entry in `name_table` `sfs_create` takes back what it has done, while
`sfs_mkdir` keeps the block that it has marked.  With no free inode both work
on `inode_table[-1]`, which is modelled as a slot in front of the table.
-/

namespace Sfs

open CInt Search Outcome

/-- `get_inode`, `get_mapping` or `get_block` finds its table full. -/
def TableFull (s : FS) : Prop := ¬ HasFreeInode s ∨ ¬ HasFreeName s ∨ ¬ HasFreeBlock s

/-- The tables and the texts of the directories are as before. -/
structure Unchanged (s t : FS) : Prop where
  inodes : ∀ i, 0 ≤ i → i < maxNodes → t.inodeTable i = s.inodeTable i
  names : ∀ m, 0 ≤ m → m < maxLink → t.nameTable m = s.nameTable m
  opens : ∀ fh, 0 ≤ fh → fh < maxLink → t.openFiles fh = s.openFiles fh
  marks : ∀ b, 0 ≤ b → b < numBlocks → t.diskBlocks b = s.diskBlocks b
  texts : ∀ i, 0 ≤ i → i < maxNodes → textOf t i = textOf s i

/-- `sfs_create` returns a negative error and leaves everything as it was. -/
def CreateRefused (env : Env) (path : Path) (mode : Nat) (fi : Int) (s : FS) : Prop :=
  ∃ r fh t, sfsCreate env path mode fi s = .ok (r, fh, t) ∧ r < 0 ∧ Unchanged s t

/-- `sfs_mkdir` returns a negative error and leaves everything as it was. -/
def MkdirRefused (env : Env) (path : Path) (mode : Nat) (s : FS) : Prop :=
  ∃ r t, sfsMkdir env path mode s = .ok (r, t) ∧ r < 0 ∧ Unchanged s t

/-- A slot of `inode_table` as `get_inode` and `free_inode` leave it. -/
def Inode.cleared (nd : Inode) : Inode :=
  ⟨FREE, Stat.zero, fun j => if 0 ≤ j ∧ j < 12 then -1 else nd.blocks j⟩

/-- No name is free, the inode and the handle that `sfs_create` takes are blank, and
`free_inode` on `inode_table[-1]` frees no block in use. -/
structure CleanUndo (s : FS) : Prop where
  names : ¬ HasFreeName s
  node : 0 ≤ (getInode s).1 →
    s.inodeTable (getInode s).1 = (s.inodeTable (getInode s).1).cleared
  handle : 0 ≤ getFh s → s.openFiles (getFh s) = ⟨0, -1, 0⟩
  marks : (getInode s).1 < 0 → ∀ b, 0 ≤ b → b < numBlocks →
    freeBlocks s.disk (s.inodeTable (-1)).blocks s.diskBlocks b = s.diskBlocks b

/-- What `sfs_create` leaves when it finds no free name. -/
structure Undone (s t : FS) : Prop where
  names : t.nameTable = s.nameTable
  disk : t.disk = s.disk
  opens : t.openFiles = Function.update s.openFiles (getFh s) ⟨0, -1, 0⟩
  node_ne : ∀ j, j ≠ (getInode s).1 → t.inodeTable j = s.inodeTable j
  node : 0 ≤ (getInode s).1 →
    t.inodeTable (getInode s).1 = (s.inodeTable (getInode s).1).cleared
  marks : 0 ≤ (getInode s).1 → ∀ b, 0 ≤ b → t.diskBlocks b = s.diskBlocks b
  marks_none : (getInode s).1 < 0 →
    t.diskBlocks = freeBlocks s.disk (s.inodeTable (-1)).blocks s.diskBlocks

section Calls

variable {s t : FS} {env : Env} {path : Path} {mode : Nat} {fi : Int}

private theorem getInode_full (h : ¬ HasFreeInode s) : getInode s = (-1, s) := by
  unfold getInode
  split
  · rename_i i hfind
    obtain ⟨h₀, h₁, hp, _⟩ := findFrom_some hfind
    exact absurd ⟨i, h₀, by simpa using h₁, by simpa using hp⟩ h
  · rfl

private theorem getMapping_full (h : ¬ HasFreeName s) : getMapping s = (-1, s) := by
  rcases getMapping_cases s with ⟨m, _, hm⟩ | hfull
  · exact absurd ⟨m, hm⟩ h
  · exact hfull

/-- `free_inode` with one link left. -/
theorem freeInode_one {ino : Int} (h : (s.inodeTable ino).stat.stNlink = 1) :
    (freeInode ino s).diskBlocks = freeBlocks s.disk (s.inodeTable ino).blocks s.diskBlocks ∧
      (freeInode ino s).disk = s.disk ∧
      (freeInode ino s).inodeTable ino = ⟨FREE, Stat.zero,
        fun j => if 0 ≤ j ∧ j < 10 then -1 else (s.inodeTable ino).blocks j⟩ := by
  have hlast : ¬ (0 : Int) < toU64 (1 - 1) := by decide
  unfold freeInode
  dsimp only
  rw [FS.modStat_stat_self, h]
  dsimp only
  rw [if_neg hlast, FS.modInode_diskBlocks, FS.modInode_inodeTable_self, FS.modStat_blocks]
  exact ⟨rfl, rfl, by simp⟩

/-- `get_inode` has returned `i` and left the state `v`. -/
structure GotInode (s : FS) (i : Int) (v : FS) : Prop where
  range : -1 ≤ i ∧ i < maxNodes
  names : v.nameTable = s.nameTable
  opens : v.openFiles = s.openFiles
  disk : v.disk = s.disk
  used : v.diskBlocks = s.diskBlocks
  node_ne : ∀ j, j ≠ i → v.inodeTable j = s.inodeTable j
  blocks : 0 ≤ i → (v.inodeTable i).blocks = (s.inodeTable i).cleared.blocks
  none : i < 0 → i = -1 ∧ v = s

/-- What `get_inode` returns, and what it leaves. -/
theorem getInode_spec (s : FS) : GotInode s (getInode s).1 (getInode s).2 := by
  by_cases hfree : HasFreeInode s
  · obtain ⟨i, hget, h₀, h₁, _⟩ := getInode_of_free hfree
    rw [hget]
    exact
      { range := ⟨by omega, h₁⟩
        names := rfl
        opens := rfl
        disk := rfl
        used := rfl
        node_ne := fun j hj => by
          dsimp only
          rw [FS.modInode_inodeTable_ne _ _ _ hj]
        blocks := fun _ => by
          dsimp only
          rw [FS.modInode_inodeTable_self]
          rfl
        none := fun hneg => absurd h₀ (not_le.mpr hneg) }
  · rw [getInode_full hfree]
    exact ⟨⟨le_refl (-1), (by decide : (-1 : Int) < maxNodes)⟩, rfl, rfl, rfl, rfl,
      fun _ _ => rfl, fun h => absurd h (by simp),
      fun _ => ⟨rfl, rfl⟩⟩

/-- **`sfs_create` without a free name.** -/
theorem sfsCreate_full (env : Env) (mode : Nat) (fi : Int) (hnew : pathLookup s path < 0)
    (hname : ¬ HasFreeName s) :
    ∃ t, sfsCreate env path mode fi s = .ok (-ENOMEM, toU64 (getFh s), t) ∧ Undone s t := by
  have hgot := getInode_spec s
  have hindex : toInt (toU64 (getFh s)) = getFh s := by
    rw [← handleIndex_getFh, handleIndex_toU64_getFh]
  unfold sfsCreate
  rw [if_neg (show ¬ pathLookup s path > 0 by omega)]
  dsimp only
  rw [handleIndex_toU64_getFh]
  generalize hu : ((getInode s).2.setOpen _ _).modStat (getInode s).1 _ = u
  have hulink : (u.inodeTable (getInode s).1).stat.stNlink = 1 := by
    rw [← hu, FS.modStat_stat_self]
  have hublocks : (u.inodeTable (getInode s).1).blocks =
      ((getInode s).2.inodeTable (getInode s).1).blocks := by
    rw [← hu, FS.modStat_blocks]
    rfl
  have hunode : ∀ j, j ≠ (getInode s).1 → u.inodeTable j = s.inodeTable j := by
    intro j hj
    rw [← hu, FS.modStat_inodeTable_ne _ _ _ hj]
    exact hgot.node_ne j hj
  have hunames : u.nameTable = s.nameTable := by
    rw [← hu]
    exact hgot.names
  have hudisk : u.disk = s.disk := by
    rw [← hu]
    exact hgot.disk
  have huused : u.diskBlocks = s.diskBlocks := by
    rw [← hu]
    exact hgot.used
  have huopens : u.openFiles =
      Function.update s.openFiles (getFh s) ⟨1, (getInode s).1, 0⟩ := by
    rw [← hu, ← hgot.opens]
    rfl
  have hfull : getMapping u = (-1, u) := by
    apply getMapping_full
    unfold HasFreeName
    rw [hunames]
    exact hname
  obtain ⟨hfnames, hfopens, hfnode⟩ := freeInode_names (getInode s).1 u
  obtain ⟨hfused, hfdisk, hfself⟩ := freeInode_one hulink
  rw [hublocks, hudisk, huused] at hfused
  rw [hublocks] at hfself
  rw [hfull]
  dsimp only
  rw [if_pos (by decide)]
  refine ⟨_, rfl, ?_⟩
  exact
    { names := hfnames.trans hunames
      disk := hfdisk.trans hudisk
      opens := by
        rw [freeFh, FS.setOpen_openFiles, hfopens, huopens, hindex, Function.update_idem]
      node_ne := fun j hj => (hfnode j hj).trans (hunode j hj)
      node := fun h₀ => by
        rw [freeFh, FS.setOpen_inodeTable, hfself, hgot.blocks h₀]
        simp only [Inode.cleared, Inode.mk.injEq, true_and]
        funext j
        split_ifs with hlow hall
        · rfl
        · omega
        · rfl
        · rfl
      marks := fun h₀ b hb => by
        have hnone : NoBlocks (getInode s).2 (getInode s).1 := fun j hj₀ hj₁ => by
          rw [hgot.blocks h₀]
          exact if_pos ⟨hj₀, hj₁⟩
        rw [freeFh, FS.setOpen_diskBlocks, hfused]
        apply freeBlocks_of_ne _ hb
        intro sl hsl
        have hneg := hnone.refs_neg sl
        rw [refs, hgot.disk] at hneg
        rw [hneg] at hsl
        exact absurd hsl (by decide)
      marks_none := fun hneg => by
        obtain ⟨hi, hv⟩ := hgot.none hneg
        rw [freeFh, FS.setOpen_diskBlocks, hfused, hv, hi] }

/-- What `sfs_create` returns for a new path is not negative while a name is free. -/
theorem sfsCreate_result (hnew : pathLookup s path < 0) (hname : HasFreeName s) :
    Post (sfsCreate env path mode fi s) fun r => r.1 = 0 := by
  have hgot := getInode_spec s
  unfold sfsCreate
  rw [if_neg (show ¬ pathLookup s path > 0 by omega)]
  dsimp only
  generalize hu : ((getInode s).2.setOpen _ _).modStat (getInode s).1 _ = u
  have hunames : u.nameTable = s.nameTable := by
    rw [← hu]
    exact hgot.names
  obtain ⟨m, hget, h₀, _⟩ := getMapping_of_free hname
  have hmap : (getMapping u).1 = m := by rw [getMapping_congr hunames, hget]
  rw [hmap, if_neg (show ¬ m < 0 by omega)]
  split
  · exact Post.error _
  · intro r hr
    obtain ⟨t, _, heq⟩ := bind_ok.mp hr
    cases heq
    rfl

/-- The directory texts of two states with the same inode and disk. -/
theorem textOf_congr {i : Int} (hnode : t.inodeTable i = s.inodeTable i)
    (hdisk : t.disk = s.disk) : textOf t i = textOf s i := by
  have hend : textEnd t i = textEnd s i := by
    unfold textEnd
    rw [hnode]
    exact textEndFrom_congr _ _ fun _ _ _ => by rw [hdisk]
  have hbyte : dirByte t i = dirByte s i := by
    funext p
    rw [dirByte, dirByte, hnode, hdisk]
  rw [textOf, textOf, hend, hbyte]

/-- **`sfs_create` refuses without a trace** if it finds no free name and nothing to undo. -/
theorem createRefused_iff (env : Env) (mode : Nat) (fi : Int) (hnew : pathLookup s path < 0) :
    CreateRefused env path mode fi s ↔ CleanUndo s := by
  by_cases hname : HasFreeName s
  · constructor
    · intro hrefused
      obtain ⟨r, fh, t, hcr, hneg, _⟩ := hrefused
      have hzero : r = 0 := sfsCreate_result hnew hname _ hcr
      omega
    · intro hclean
      exact absurd hname hclean.names
  obtain ⟨u, heq, hu⟩ := sfsCreate_full env mode fi hnew hname
  have hino := (getInode_spec s).range.2
  have hfh := getFh_range s
  constructor
  · intro hrefused
    obtain ⟨r, fh, t, hcr, _, hsame⟩ := hrefused
    obtain rfl : u = t := by
      rw [heq] at hcr
      cases hcr
      rfl
    exact
      { names := hname
        node := fun h₀ => (hsame.inodes _ h₀ hino).symm.trans (hu.node h₀)
        handle := fun h₀ => by
          rw [← hsame.opens _ h₀ hfh.2, hu.opens, Function.update_self]
        marks := fun hneg b h₀ h₁ => by rw [← hu.marks_none hneg, hsame.marks b h₀ h₁] }
  · intro hclean
    have hinodes : ∀ i, 0 ≤ i → u.inodeTable i = s.inodeTable i := by
      intro i h₀
      by_cases hi : i = (getInode s).1
      · subst i
        rw [hu.node h₀, ← hclean.node h₀]
      · exact hu.node_ne i hi
    refine ⟨_, _, u, heq, by decide, ?_⟩
    exact
      { inodes := fun i h₀ _ => hinodes i h₀
        names := fun m _ _ => by rw [hu.names]
        opens := fun fh h₀ _ => by
          rw [hu.opens]
          by_cases hj : fh = getFh s
          · subst fh
            rw [Function.update_self, hclean.handle h₀]
          · rw [Function.update_of_ne hj]
        marks := fun b h₀ h₁ => by
          rcases lt_or_ge (getInode s).1 0 with hneg | hpos
          · rw [hu.marks_none hneg, hclean.marks hneg b h₀ h₁]
          · exact hu.marks hpos b h₀
        texts := fun i h₀ _ => textOf_congr (hinodes i h₀) hu.disk }

/-- **`sfs_mkdir` never refuses without a trace**: the block that it marks stays marked. -/
theorem not_mkdirRefused (env : Env) (mode : Nat) (hnew : pathLookup s path < 0) :
    ¬ MkdirRefused env path mode s := by
  intro hrefused
  obtain ⟨r, t, hmk, hneg, hsame⟩ := hrefused
  have hgot := getInode_spec s
  unfold sfsMkdir at hmk
  rw [if_neg (show ¬ pathLookup s path > 0 by omega)] at hmk
  dsimp only at hmk
  generalize hv : (getInode s).2.modStat (getInode s).1 _ = v at hmk
  have hused : v.diskBlocks = s.diskBlocks := by
    rw [← hv]
    exact hgot.used
  have hlink : (v.inodeTable (getInode s).1).stat.stNlink = 2 := by
    rw [← hv, FS.modStat_stat_self]
  obtain ⟨⟨b, u⟩, hget, hrest⟩ := bind_ok.mp hmk
  have htaken := (getBlock_outcome v).post _ hget
  dsimp only at hrest htaken
  rcases getMapping_cases (u.setBlocks (getInode s).1 0 b) with ⟨m, hmap, h₀, _⟩ | hfull
  · -- with a free name the call does not return an error
    rw [hmap] at hrest
    dsimp only at hrest
    rw [if_neg (show ¬ m < 0 by omega)] at hrest
    split at hrest
    · cases hrest
    · obtain ⟨w, _, heq⟩ := bind_ok.mp hrest
      cases heq
      exact absurd hneg (by decide)
  · rw [hfull] at hrest
    dsimp only at hrest
    rw [if_pos (by decide)] at hrest
    cases hrest
    -- one of the two links is left, so nothing is given up
    have hkept : (freeInode (getInode s).1 (u.setBlocks (getInode s).1 0 b)).diskBlocks =
        u.diskBlocks := by
      rcases freeInode_cases (getInode s).1 (u.setBlocks (getInode s).1 0 b) with
        ⟨_, heq⟩ | ⟨hlast, _⟩
      · rw [heq]
        rfl
      · rw [FS.setBlocks_stat, htaken.state, FS.setUsed_inodeTable, hlink] at hlast
        exact absurd (by decide) hlast
    have hmark := hsame.marks b htaken.nonneg htaken.lt
    rw [hkept, htaken.state, FS.setUsed_diskBlocks, Function.update_self, ← hused,
      htaken.free] at hmark
    exact absurd hmark (by decide)

/-- **What full tables lead to.**  In every state `sfs_mkdir` of a new path fails to refuse
cleanly, and `sfs_create` refuses cleanly if it finds no free name and nothing to undo. -/
theorem full_tables_refused_iff (hnew : pathLookup s path < 0) :
    (∀ env mode, ¬ MkdirRefused env path mode s) ∧
      ∀ env mode fi, CreateRefused env path mode fi s ↔ CleanUndo s :=
  ⟨fun env mode => not_mkdirRefused env mode hnew,
    fun env mode fi => createRefused_iff env mode fi hnew⟩

/-- A file named by a number beyond the root's 127 files. -/
def lastName : Path := slash :: showInt 127

/-- **A run that fills the tables**: 127 files in the root take all inodes and all names. -/
theorem filled_reachable : ∃ s, Reached FuseOk s ∧ ¬ HasFreeInode s ∧ ¬ HasFreeName s ∧
    HasParent s lastName ∧ NewPath s lastName := by
  obtain ⟨s, hs, _⟩ := rootFiles_numberNames (le_refl 127)
  have hlen : (numberNames 127).length = 127 := by
    rw [numberNames, List.length_map, List.length_range]
  refine ⟨s, hs.reached, ?_, ?_, ?_, ?_⟩
  · intro hfree
    obtain ⟨i, h₀, h₁, hi⟩ := hfree
    have hlast := (hs.inodes i h₀ h₁).mp hi
    rw [hlen] at hlast
    simp only [maxNodes] at h₁
    omega
  · intro hfree
    obtain ⟨m, h₀, h₁, hm⟩ := hfree
    have hlast := (hs.slots m h₀ h₁).mp hm
    rw [hlen] at hlast
    simp only [maxLink] at h₁
    omega
  · exact ⟨0, hs.tree.root.1, hs.tree.root.2.2,
      isParent_name hs (showInt_ne_nil 127) (slash_notMem_showInt 127)⟩
  · apply hs.newPath (showInt_ne_nil 127)
    intro hmem
    obtain ⟨k, hk, heq⟩ := List.mem_map.mp hmem
    have hk' := showInt_inj heq
    rw [List.mem_range] at hk
    omega

/-- On the filled tables both statements apply to a new file. -/
theorem full_tables_refused_filled : ∃ s, Reached FuseOk s ∧ TableFull s ∧
    (∀ env mode, ¬ MkdirRefused env lastName mode s) ∧
      ∀ env mode fi, CreateRefused env lastName mode fi s ↔ CleanUndo s := by
  obtain ⟨s, hreach, hinode, _, hpar, hnew⟩ := filled_reachable
  have hlook := pathLookup_new hpar hnew (reached_tree hreach)
  exact ⟨s, hreach, Or.inl hinode, full_tables_refused_iff hlook⟩

/-- Handle 0 is open on inode 1, which has 1111 blocks and size 0. -/
structure Overfull (s : FS) : Prop where
  reached : Reached FuseOk s
  handle : (s.openFiles (handleIndex 0)).stIno = 1
  size : (s.inodeTable 1).stat.stSize = 0
  count : (s.inodeTable 1).stat.stBlocks = 1111

private theorem reached_written {buf : Nat → UInt8} {size : Nat} {fh offset r : Int}
    (h : Reached FuseOk s)
    (hwrite : sfsWrite env fh buf size offset s = .ok (r, t)) : Reached FuseOk t :=
  h.next (c := .write fh buf size offset) ⟨trivial, env, r, hwrite⟩

/-- Writes of 1112 blocks take one block each, until none is left. -/
theorem Overfull.fill (h : Overfull s) :
    ∃ t, Reached FuseOk t ∧ ¬ HasFreeBlock t ∧ t.nameTable = s.nameTable := by
  induction hcount : (unmarked s).ncard using Nat.strong_induction_on generalizing s with
  | _ n ih =>
      by_cases hfree : HasFreeBlock s
      · obtain ⟨b, hwrite, hfewer⟩ := sfsWrite_leaks zeroEnv (fun _ => 0) (by decide) h.handle
          (by decide) h.size h.count (show 1 ≤ 569344 by decide) (by decide) hfree
        have hnext : Overfull (s.setUsed b ALLOCD) :=
          { reached := reached_written h.reached hwrite
            handle := h.handle
            size := h.size
            count := h.count }
        obtain ⟨t, ht, hfull, hnames⟩ := ih _ (by omega) hnext rfl
        exact ⟨t, ht, hfull, hnames⟩
      · exact ⟨s, h.reached, hfree, rfl⟩

/-- **A run that fills the disk**, with one file. -/
theorem fullDisk_reachable : ∃ s, Reached FuseOk s ∧ ¬ HasFreeBlock s ∧ HasFreeName s ∧
    HasParent s (rootPath letterB) ∧ NewPath s (rootPath letterB) := by
  obtain ⟨s, hs, hino, _, hsize, hcount⟩ := newFile_root
  obtain ⟨u, hwrite, husize, hucount⟩ := sfsWrite_limit zeroEnv (fun _ => 0) (by decide) hino
    (by decide) hsize hcount (show 568832 < 569344 by decide) (by decide) (hs.free.mono (by decide))
  have hkeeps := sfsWrite_relinks zeroEnv 0 (fun _ => 0) 569344 0 s _ hwrite
  have hreach : Reached FuseOk s := hs.reached.mono fun _ _ _ hstep => ⟨hstep.1.1, hstep.2⟩
  have hover : Overfull u :=
    { reached := reached_written hreach hwrite
      handle := by rw [hkeeps.opens]; exact hino
      size := husize
      count := hucount }
  obtain ⟨t, ht, hfull, hnames⟩ := hover.fill
  have hnames' : t.nameTable = s.nameTable := hnames.trans hkeeps.names
  obtain ⟨hentry, hroot, hdir⟩ := (reached_tree ht).root
  refine ⟨t, ht, hfull, ?_, ?_, ?_⟩
  · obtain ⟨m, h₀, h₁, hm⟩ := (hs.room (by decide)).name
    exact ⟨m, h₀, h₁, by rw [hnames']; exact hm⟩
  · refine ⟨0, hentry, hdir, ?_⟩
    rw [hroot]
    exact ⟨List.cons_ne_nil _ _, [letterB], by decide, by decide, rfl⟩
  · intro m hm hpath
    unfold Entry at hm
    unfold pathOf at hpath
    rw [hnames'] at hm hpath
    exact hs.newPath (by decide) (by decide) m hm hpath

/-- `create` on a disk without a free block is not refused. -/
theorem full_disk_create_accepted :
    ¬ ∀ s path, Reached FuseOk s → TableFull s → HasParent s path → NewPath s path →
      ∀ env mode fi, isRegMode mode = true →
        CreateRefused env path mode fi s ∧ MkdirRefused env path mode s := by
  intro hclaim
  obtain ⟨s, hreach, hfull, hname, hpar, hnew⟩ := fullDisk_reachable
  have hlook := pathLookup_new hpar hnew (reached_tree hreach)
  have hboth := hclaim s _ hreach (Or.inr (Or.inr hfull)) hpar hnew zeroEnv 0o100644 0 (by decide)
  exact ((createRefused_iff zeroEnv 0o100644 0 hlook).mp hboth.1).names hname

end Calls

end Sfs
