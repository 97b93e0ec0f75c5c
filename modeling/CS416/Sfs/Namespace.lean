import CS416.Sfs.Tree

/-!
# The tree along runs

What FUSE asks of a call, and what each call does to the tree: `sfs_create`
and `sfs_mkdir` insert a leaf or change nothing the tree sees, `sfs_unlink`
and `sfs_rmdir` erase one.
-/

namespace Sfs

open CInt Search Outcome

/-- The type bits of a regular file. -/
abbrev S_IFREG : Nat := 0o100000

/-- `S_ISREG` -/
def isRegMode (mode : Nat) : Bool := mode &&& S_IFMT = S_IFREG

def IsReg (s : FS) (m : Int) : Prop :=
  isRegMode (s.inodeTable (inoOf s m)).stat.stMode = true

instance (s : FS) (m : Int) : Decidable (IsReg s m) :=
  inferInstanceAs (Decidable (_ = true))

/-- The parent of `path` exists and is a directory. -/
def HasParent (s : FS) (path : Path) : Prop :=
  ∃ k, Entry s k ∧ IsDir s k ∧ IsParent (pathOf s k) path

/-- `inode_table` is not exhausted. -/
def HasFreeInode (s : FS) : Prop :=
  ∃ i, 0 ≤ i ∧ i < maxNodes ∧ (s.inodeTable i).avail = FREE

/-- The calls that the FUSE layer can make in the state `s`. -/
def FuseOk (s : FS) : Call → Prop
  | .create path mode =>
      PathFits path ∧ isRegMode mode = true ∧ HasParent s path ∧ HasFreeInode s
  | .mkdir path _ => PathFits path ∧ HasParent s path ∧ HasFreeInode s
  | .unlink path => ∃ m, Entry s m ∧ pathOf s m = path ∧ IsReg s m
  | .rmdir path => path ≠ [slash] ∧ ∃ m, Entry s m ∧ pathOf s m = path ∧ IsDir s m
  | _ => True

/-- The root is in place and an inode is free: a one-letter name in the root can
be created. -/
def RootReady (s : FS) (c : UInt8) : Prop :=
  (Entry s 0 ∧ pathOf s 0 = [slash] ∧ IsDir s 0) ∧ (s.inodeTable 127).avail = FREE ∧
    c ≠ slash ∧ c ≠ percent

instance (s : FS) (c : UInt8) : Decidable (RootReady s c) :=
  inferInstanceAs (Decidable ((_ ∧ _ ∧ _) ∧ _ ∧ _ ∧ _))

/-- The root is in place and an inode is free: the name can be created in the root. -/
def NameReady (s : FS) (name : Path) : Prop :=
  (Entry s 0 ∧ pathOf s 0 = [slash] ∧ IsDir s 0) ∧ (s.inodeTable 127).avail = FREE ∧
    name ≠ [] ∧ slash ∉ name ∧ PathFits (slash :: name)

instance (s : FS) (name : Path) : Decidable (NameReady s name) :=
  inferInstanceAs (Decidable ((_ ∧ _ ∧ _) ∧ _ ∧ _ ∧ _ ∧ _))

/-- FUSE can create a name in the root, as a file or a directory. -/
theorem fuseOk_name (s : FS) (name : Path) (h : NameReady s name) :
    FuseOk s (.create (slash :: name) 0o100644) ∧ FuseOk s (.mkdir (slash :: name) 0o755) := by
  obtain ⟨⟨hentry, hpath, hdir⟩, hfree, hne, hslash, hfits⟩ := h
  have hpar : HasParent s (slash :: name) := by
    refine ⟨0, hentry, hdir, ?_, name, hne, hslash, ?_⟩
    · rw [hpath]
      decide
    · rw [hpath]
      rfl
  have hinode : HasFreeInode s := ⟨127, by decide, by decide, hfree⟩
  exact ⟨⟨hfits, by decide, hpar, hinode⟩, ⟨hfits, hpar, hinode⟩⟩

/-- FUSE can create a one-letter name in the root. -/
theorem fuseOk_root (s : FS) (c : UInt8) (h : RootReady s c) :
    FuseOk s (.create (rootPath c) 0o100644) ∧ FuseOk s (.mkdir (rootPath c) 0o755) := by
  obtain ⟨hroot, hfree, hslash, hpercent⟩ := h
  have hfits : PathFits (rootPath c) :=
    ⟨by simp [rootPath, maxPathLen], by simpa [rootPath] using ⟨by decide, Ne.symm hpercent⟩⟩
  exact fuseOk_name s [c] ⟨hroot, hfree, by simp, by simpa using Ne.symm hslash, hfits⟩

/-- A regular mode is no directory's. -/
theorem not_isDir_of_isReg {mode : Nat} (h : isRegMode mode = true) :
    isDirMode mode = false := by
  simp only [isRegMode, isDirMode, decide_eq_true_eq, decide_eq_false_iff_not] at h ⊢
  rw [h]
  decide

/-- `get_inode` marks the lowest free inode and clears its block map. -/
theorem getInode_of_free {s : FS} (h : HasFreeInode s) :
    ∃ i, getInode s = (i, s.modInode i fun nd =>
        { nd with
          avail := ALLOCD
          blocks := fun j => if 0 ≤ j ∧ j < 12 then -1 else nd.blocks j }) ∧
      0 ≤ i ∧ i < maxNodes ∧ (s.inodeTable i).avail = FREE := by
  obtain ⟨j, hj₀, hj₁, hj⟩ := h
  obtain ⟨i, hfind⟩ := findFrom_isSome (p := fun i => (s.inodeTable i).avail = FREE)
    (n := maxNodes.toNat) hj₀ (by simpa using hj₁) (by simpa using hj)
  obtain ⟨h₀, h₁, hfree, _⟩ := findFrom_some hfind
  refine ⟨i, ?_, h₀, by simpa using h₁, by simpa using hfree⟩
  rw [getInode, hfind]

/-- `get_mapping` marks a free entry, or finds none. -/
theorem getMapping_cases (s : FS) :
    (∃ m, getMapping s = (m, s.setName m { s.nameTable m with avail := ALLOCD }) ∧
      0 ≤ m ∧ m < maxLink ∧ (s.nameTable m).avail = FREE) ∨ getMapping s = (-1, s) := by
  cases hfind : findFrom (fun i => (s.nameTable i).avail = FREE) maxLink.toNat 0 with
  | none =>
      right
      rw [getMapping, hfind]
  | some m =>
      left
      obtain ⟨h₀, h₁, hfree, _⟩ := findFrom_some hfind
      refine ⟨m, ?_, h₀, by simpa using h₁, by simpa using hfree⟩
      rw [getMapping, hfind]

/-- `get_fh` returns an index of the table, or -1. -/
theorem getFh_range (s : FS) : -1 ≤ getFh s ∧ getFh s < maxLink := by
  unfold getFh
  cases hfind : findFrom (fun i => (s.openFiles i).stIno < 0) maxLink.toNat 0 with
  | none => decide
  | some fh =>
      obtain ⟨h₀, h₁, _, _⟩ := findFrom_some hfind
      refine ⟨by rw [Option.getD_some]; omega, by simpa using h₁⟩

/-- As an index and as the argument of `free_fh` the field holds the same handle. -/
theorem handleIndex_getFh (s : FS) :
    handleIndex (toU64 (getFh s)) = toInt (toU64 (getFh s)) := by
  have hrange := getFh_range s
  simp only [maxLink] at hrange
  rw [handleIndex, toInt64_toU64 (by omega) (by omega), toInt_toU64 (by omega) (by omega)]

/-- `get_mapping` looks at the names only. -/
theorem getMapping_congr {s t : FS} (h : t.nameTable = s.nameTable) :
    (getMapping t).1 = (getMapping s).1 := by
  unfold getMapping
  rw [h]
  split <;> rfl

/-- Before the name is entered: a free inode `i` has been set up, and nothing
else that the tree sees has changed. -/
structure Prepared (s u : FS) (i : Int) : Prop where
  range : 0 ≤ i ∧ i < maxNodes
  free : (s.inodeTable i).avail = FREE
  names : u.nameTable = s.nameTable
  avail : (u.inodeTable i).avail = ALLOCD
  avail_ne : ∀ j, j ≠ i → (u.inodeTable j).avail = (s.inodeTable j).avail
  stat_ne : ∀ j, j ≠ i → (u.inodeTable j).stat = (s.inodeTable j).stat
  nlink_dir : isDirMode (u.inodeTable i).stat.stMode = true →
    (u.inodeTable i).stat.stNlink = 2

/-- After the name has been entered, before the parent is updated. -/
structure Entered (s u : FS) (m i k : Int) (path : Path) : Prop where
  slot : 0 ≤ m ∧ m < maxLink ∧ (s.nameTable m).avail = FREE
  node : 0 ≤ i ∧ i < maxNodes ∧ (s.inodeTable i).avail = FREE
  parent : Entry s k ∧ IsDir s k ∧ IsParent (pathOf s k) path
  fresh : ∀ j, Entry s j → pathOf s j ≠ path
  names : u.nameTable = Function.update s.nameTable m ⟨ALLOCD, i, path⟩
  cwd : u.cwdInode = inoOf s k
  avail : (u.inodeTable i).avail = ALLOCD
  avail_ne : ∀ j, j ≠ i → (u.inodeTable j).avail = (s.inodeTable j).avail
  stat_ne : ∀ j, j ≠ i → (u.inodeTable j).stat = (s.inodeTable j).stat
  nlink_dir : isDirMode (u.inodeTable i).stat.stMode = true →
    (u.inodeTable i).stat.stNlink = 2

section Enter

variable {s u t : FS} {m i k : Int} {path : Path}

/-- A new inode without a name leaves the tree as it is. -/
theorem Prepared.sameTree (h : Tree s) (hp : Prepared s u i) : SameTree s u := by
  refine ⟨hp.names, fun m hm => ?_⟩
  have hne : inoOf s m ≠ i := by
    rintro rfl
    have hfree := hp.free
    rw [h.ino_avail m hm] at hfree
    exact absurd hfree (by decide)
  exact ⟨hp.avail_ne _ hne, by rw [hp.stat_ne _ hne], by rw [hp.stat_ne _ hne]⟩

/-- A path that is not in the table beyond the root is new. -/
theorem Tree.fresh_of_lookup (h : Tree s) (hpar : HasParent s path)
    (hl : ¬ pathLookup s path > 0) : ∀ j, Entry s j → pathOf s j ≠ path := by
  rintro j hj rfl
  obtain ⟨k, _, _, hkp⟩ := hpar
  rw [h.lookup hj] at hl
  have hj₀ : j = 0 := by
    have := hj.1
    omega
  subst j
  exact hkp.ne_root h.root.2.1

/-- A path that is looked up as new has no entry. -/
theorem pathLookup_new (hpar : HasParent s path)
    (hfresh : ∀ j, Entry s j → pathOf s j ≠ path) (ht : Tree s) : pathLookup s path < 0 := by
  obtain ⟨k, _, _, hkp⟩ := hpar
  by_contra hl
  obtain ⟨hentry, hpath⟩ := ht.lookup_entry hkp.ne_nil (not_lt.mp hl)
  exact hfresh _ hentry hpath

/-- **A name is entered** below its parent. -/
theorem Tree.entered (h : Tree s) (hp : Prepared s u i)
    (hpar : Entry s k ∧ IsDir s k ∧ IsParent (pathOf s k) path)
    (hfresh : ∀ j, Entry s j → pathOf s j ≠ path)
    (h₀ : 0 ≤ m) (h₁ : m < maxLink) (hm : (u.nameTable m).avail = FREE) :
    Entered s (enterName m i path (u.setName m { u.nameTable m with avail := ALLOCD }))
      m i k path := by
  have hfree : (s.nameTable m).avail = FREE := by rw [← hp.names]; exact hm
  have hkm : k ≠ m := by
    rintro rfl
    rw [hpar.1.2.2] at hfree
    exact absurd hfree (by decide)
  refine
    { slot := ⟨h₀, h₁, hfree⟩
      node := ⟨hp.range.1, hp.range.2, hp.free⟩
      parent := hpar
      fresh := hfresh
      names := by simp [enterName, hp.names]
      cwd := ?_
      avail := hp.avail
      avail_ne := hp.avail_ne
      stat_ne := hp.stat_ne
      nlink_dir := hp.nlink_dir }
  -- the parent is looked up in the table that already has the new entry
  have hlook : pathLookup ((u.setName m { u.nameTable m with avail := ALLOCD }).setName m
      ⟨ALLOCD, i, path⟩) (getCwdPath path) = k := by
    rw [hpar.2.2.getCwdPath_eq]
    refine pathLookup_eq hpar.1.1 hpar.1.2.1 (by simp [hkm, hp.names, pathOf]) ?_
    intro j hj₀ hj₁ hj
    by_cases hjm : j = m
    · subst j
      have heq : path = pathOf s k := by simpa using hj
      exact absurd heq.symm hpar.2.2.ne
    · have heq : pathOf s j = pathOf s k := by simpa [hjm, hp.names, pathOf] using hj
      exact h.path_inj j k (h.entry_of_path hj₀ hj₁ (heq ▸ h.path_ne k hpar.1)) hpar.1 heq
  simp only [enterName, FS.setName_nameTable, Function.update_self]
  rw [hlook]
  simp [hkm, hp.names, inoOf]

/-- The parent gains a link, and the leaf is in. -/
theorem Tree.inserts (h : Tree s) (he : Entered s u m i k path)
    (hr : Relinks u t u.cwdInode fun n => toU64 (n + 1)) : Tree.Inserts s t m i k path := by
  obtain ⟨hk, hkd, hkp⟩ := he.parent
  have hki : inoOf s k ≠ i := by
    intro heq
    have hfree := he.node.2.2
    rw [← heq, h.ino_avail k hk] at hfree
    exact absurd hfree (by decide)
  have hcwd := he.cwd
  refine
    { slot := he.slot
      node := he.node
      parent := he.parent
      fresh := he.fresh
      names := hr.names.trans he.names
      avail := (hr.avail i).trans he.avail
      avail_ne := fun j hj => (hr.avail j).trans (he.avail_ne j hj)
      mode_ne := fun j hj => by rw [hr.mode j, he.stat_ne j hj]
      nlink_dir := fun hd => ?_
      nlink_parent := ?_
      nlink_ne := fun j hj hjk => by
        rw [hr.nlink_ne j (by rw [hcwd]; exact hjk), he.stat_ne j hj] }
  · rw [hr.nlink_ne i (by rw [hcwd]; exact Ne.symm hki)]
    exact he.nlink_dir (by rw [← hr.mode i]; exact hd)
  · have hlink := hr.nlink
    have hbound := h.nlink_bounds hk hkd
    rw [hcwd] at hlink
    rw [hlink, he.stat_ne _ hki]
    exact toU64_of_range (by omega) (by omega)

end Enter

/-- The new inode of `sfs_create`, open on the handle `fh`. -/
structure NewFile (s u : FS) (i fh : Int) : Prop where
  opens : u.openFiles = Function.update s.openFiles fh ⟨1, i, 0⟩
  disk : u.disk = s.disk
  used : u.diskBlocks = s.diskBlocks
  blocks_ne : ∀ j, j ≠ i → (u.inodeTable j).blocks = (s.inodeTable j).blocks
  blocks : ∀ j, 0 ≤ j → j < 12 → (u.inodeTable i).blocks j = -1
  nlink : (u.inodeTable i).stat.stNlink = 1
  size : (u.inodeTable i).stat.stSize = 0
  count : (u.inodeTable i).stat.stBlocks = 0
  mode : isRegMode (u.inodeTable i).stat.stMode = true

/-- The new inode of `sfs_mkdir`, with its first block `b`. -/
structure NewDir (s u : FS) (i b : Int) : Prop where
  opens : u.openFiles = s.openFiles
  disk : u.disk = s.disk
  used : u.diskBlocks = Function.update s.diskBlocks b ALLOCD
  block : 0 ≤ b ∧ b < numBlocks ∧ s.diskBlocks b = FREE
  blocks_ne : ∀ j, j ≠ i → (u.inodeTable j).blocks = (s.inodeTable j).blocks
  blocks : ∀ j, 0 ≤ j → j < 12 → (u.inodeTable i).blocks j = if j = 0 then b else -1
  nlink : (u.inodeTable i).stat.stNlink = 2
  size : (u.inodeTable i).stat.stSize = 512
  count : (u.inodeTable i).stat.stBlocks = 1

section Calls

variable {s : FS} {env : Env} {path : Path} {mode : Nat} {fi : Int}

/-- What `sfs_create` does with a path that is not found. -/
theorem sfsCreate_eq (env : Env) (fi : Int) (h : Tree s) (hok : FuseOk s (.create path mode))
    (hl : ¬ pathLookup s path > 0) :
    (∃ u i, Prepared s u i ∧ NewFile s u i (toInt (toU64 (getFh s))) ∧ (getMapping s).1 < 0 ∧
      sfsCreate env path mode fi s =
        .ok (-ENOMEM, toU64 (getFh s), freeFh (toU64 (getFh s)) (freeInode i u))) ∨
    ∃ u m i k, Prepared s u i ∧ NewFile s u i (handleIndex (toU64 (getFh s))) ∧
      Entered s (enterName m i path (u.setName m { u.nameTable m with avail := ALLOCD }))
        m i k path ∧ m = (getMapping s).1 ∧ i = (getInode s).1 ∧
      sfsCreate env path mode fi s = do
        let t ← appendEntry env (inoOf s k) (dirEntry (getName path) i)
          (enterName m i path (u.setName m { u.nameTable m with avail := ALLOCD }))
        return (0, toU64 (getFh s), t) := by
  obtain ⟨hfits, hreg, hpar, hfree⟩ := hok
  obtain ⟨i, hget, h₀, h₁, hi⟩ := getInode_of_free hfree
  unfold sfsCreate
  rw [if_neg hl]
  simp only [hget]
  generalize hu : ((s.modInode i _).setOpen _ _).modStat i _ = u
  have hprep : Prepared s u i := by
    subst u
    refine ⟨⟨h₀, h₁⟩, hi, rfl, by simp, fun j hj => ?_, fun j hj => ?_, fun hd => ?_⟩
    · simp [FS.modInode_inodeTable_ne _ _ _ hj]
    · simp [FS.modStat_inodeTable_ne _ _ _ hj, FS.modInode_inodeTable_ne _ _ _ hj]
    · simp [not_isDir_of_isReg hreg] at hd
  have hnew : NewFile s u i (handleIndex (toU64 (getFh s))) := by
    subst u
    refine ⟨rfl, rfl, rfl, fun j hj => ?_, fun j hj₀ hj₁ => ?_, by simp, by simp, by simp,
      by simpa using hreg⟩
    · simp [FS.modInode_inodeTable_ne _ _ _ hj]
    · simp [hj₀, hj₁]
  have hsame : (getMapping u).1 = (getMapping s).1 := getMapping_congr hprep.names
  rcases getMapping_cases u with ⟨m, hmap, hm₀, hm₁, hm⟩ | hmap
  · rw [hmap] at hsame ⊢
    dsimp only at hsame ⊢
    rw [if_neg (show ¬ m < 0 by omega), if_neg (not_not.mpr hfits)]
    obtain ⟨k, hk⟩ := hpar
    have he := h.entered hprep hk (h.fresh_of_lookup ⟨k, hk⟩ hl) hm₀ hm₁ hm
    refine Or.inr ⟨u, m, i, k, hprep, hnew, he, hsame, rfl, ?_⟩
    rw [he.cwd]
  · rw [hmap] at hsame ⊢
    dsimp only at hsame ⊢
    rw [if_pos (by decide)]
    rw [handleIndex_getFh] at hnew
    refine Or.inl ⟨u, i, hprep, hnew, ?_, rfl⟩
    rw [← hsame]
    decide

/-- The three ways `sfs_create` returns. -/
theorem sfsCreate_cases (h : Tree s) (hok : FuseOk s (.create path mode)) :
    Post (sfsCreate env path mode fi s) fun r =>
      r.1 = -EEXIST ∧ r.2.2 = s ∨
      (∃ u i fh, Prepared s u i ∧ NewFile s u i (toInt fh) ∧ r.1 = -ENOMEM ∧
        r.2.2 = freeFh fh (freeInode i u)) ∨
      ∃ u m i k fh, Prepared s u i ∧ NewFile s u i (handleIndex fh) ∧ Entered s (enterName m i path
          (u.setName m { u.nameTable m with avail := ALLOCD })) m i k path ∧
        m = (getMapping s).1 ∧ i = (getInode s).1 ∧ r.1 = 0 ∧
        appendEntry env (inoOf s k) (dirEntry (getName path) i)
          (enterName m i path (u.setName m { u.nameTable m with avail := ALLOCD })) =
            .ok r.2.2 := by
  intro r hr
  by_cases hl : pathLookup s path > 0
  · rw [sfsCreate, if_pos hl] at hr
    cases hr
    exact Or.inl ⟨rfl, rfl⟩
  right
  rcases sfsCreate_eq env fi h hok hl with
    ⟨u, i, hp, hn, _, heq⟩ | ⟨u, m, i, k, hp, hn, he, hm, hi, heq⟩
  · rw [heq] at hr
    cases hr
    exact Or.inl ⟨u, i, _, hp, hn, rfl, rfl⟩
  · rw [heq] at hr
    obtain ⟨t, ht, hrt⟩ := bind_ok.mp hr
    cases hrt
    exact Or.inr ⟨u, m, i, k, _, hp, hn, he, hm, hi, rfl, ht⟩

/-- What `sfs_mkdir` does with a path that is not found. -/
theorem sfsMkdir_eq (env : Env) (h : Tree s) (hok : FuseOk s (.mkdir path mode))
    (hl : ¬ pathLookup s path > 0) :
    sfsMkdir env path mode s = .error .noReturn ∧ ¬ HasFreeBlock s ∨
    (∃ u i b, Prepared s u i ∧ NewDir s u i b ∧ (getMapping s).1 < 0 ∧
      sfsMkdir env path mode s = .ok (-ENOMEM, freeInode i u)) ∨
    ∃ u m i k b, Prepared s u i ∧ NewDir s u i b ∧
      Entered s (enterName m i path (u.setName m { u.nameTable m with avail := ALLOCD }))
        m i k path ∧ m = (getMapping s).1 ∧ i = (getInode s).1 ∧
      sfsMkdir env path mode s = do
        let t ← appendEntry env (inoOf s k) (dirEntry (getName path) i)
          ((enterName m i path (u.setName m { u.nameTable m with avail := ALLOCD })).write b
            (textBlock (dirHeader i (inoOf s k))))
        return (0, t) := by
  obtain ⟨hfits, hpar, hfree⟩ := hok
  obtain ⟨i, hget, h₀, h₁, hi⟩ := getInode_of_free hfree
  unfold sfsMkdir
  rw [if_neg hl]
  simp only [hget]
  generalize hw : (s.modInode i _).modStat i _ = w
  have hwused : w.diskBlocks = s.diskBlocks := by
    subst w
    rfl
  by_cases hblock : HasFreeBlock w
  swap
  · rw [getBlock_of_full hblock]
    refine Or.inl ⟨rfl, ?_⟩
    unfold HasFreeBlock at hblock ⊢
    rwa [← hwused]
  obtain ⟨b, hget', hv⟩ := getBlock_of_free hblock
  rw [hget', ok_bind]
  dsimp only
  generalize hu : (w.setUsed b ALLOCD).setBlocks i 0 b = u
  have hprep : Prepared s u i := by
    subst u w
    refine ⟨⟨h₀, h₁⟩, hi, rfl, by simp, fun j hj => ?_, fun j hj => ?_, by simp⟩
    · simp [FS.modInode_inodeTable_ne _ _ _ hj]
    · simp [FS.modStat_inodeTable_ne _ _ _ hj, FS.modInode_inodeTable_ne _ _ _ hj]
  have hnew : NewDir s u i b := by
    subst u
    have hbfree := hv.free
    rw [hwused] at hbfree
    subst w
    refine ⟨rfl, rfl, rfl, ⟨hv.nonneg, hv.lt, hbfree⟩, fun j hj => ?_, fun j hj₀ hj₁ => ?_,
      by simp, by simp, by simp⟩
    · rw [FS.setBlocks_inodeTable_ne _ _ _ _ hj]
      simp [FS.modInode_inodeTable_ne _ _ _ hj]
    · by_cases hj : j = 0
      · simp [hj]
      · simp [hj, hj₀, hj₁]
  right
  have hsame : (getMapping u).1 = (getMapping s).1 := getMapping_congr hprep.names
  rcases getMapping_cases u with ⟨m, hmap, hm₀, hm₁, hm⟩ | hmap
  · rw [hmap] at hsame ⊢
    dsimp only at hsame ⊢
    rw [if_neg (show ¬ m < 0 by omega), if_neg (not_not.mpr hfits)]
    obtain ⟨k, hk⟩ := hpar
    have he := h.entered hprep hk (h.fresh_of_lookup ⟨k, hk⟩ hl) hm₀ hm₁ hm
    have hblock : (u.inodeTable i).blocks 0 = b := by
      simpa using hnew.blocks 0 (le_refl 0) (by decide)
    have hindex : getBlockIndex (enterName m i path
        (u.setName m { u.nameTable m with avail := ALLOCD })).disk
        ((enterName m i path
          (u.setName m { u.nameTable m with avail := ALLOCD })).inodeTable i) 0 = b := by
      rw [getBlockIndex, if_pos (by decide)]
      exact hblock
    have hcwd := he.cwd
    refine Or.inr ⟨u, m, i, k, b, hprep, hnew, he, hsame, rfl, ?_⟩
    rw [hindex, he.cwd]
    simp [FS.write, hcwd]
  · rw [hmap] at hsame ⊢
    dsimp only at hsame ⊢
    rw [if_pos (by decide)]
    refine Or.inl ⟨u, i, b, hprep, hnew, ?_, rfl⟩
    rw [← hsame]
    decide

/-- The three ways `sfs_mkdir` returns. -/
theorem sfsMkdir_cases (h : Tree s) (hok : FuseOk s (.mkdir path mode)) :
    Post (sfsMkdir env path mode s) fun r =>
      r.1 = -EEXIST ∧ r.2 = s ∨
      (∃ u i b, Prepared s u i ∧ NewDir s u i b ∧ r.1 = -ENOMEM ∧ r.2 = freeInode i u) ∨
      ∃ u m i k b, Prepared s u i ∧ NewDir s u i b ∧ Entered s (enterName m i path
          (u.setName m { u.nameTable m with avail := ALLOCD })) m i k path ∧
        m = (getMapping s).1 ∧ i = (getInode s).1 ∧ r.1 = 0 ∧
        appendEntry env (inoOf s k) (dirEntry (getName path) i)
          ((enterName m i path (u.setName m { u.nameTable m with avail := ALLOCD })).write b
            (textBlock (dirHeader i (inoOf s k)))) = .ok r.2 := by
  intro r hr
  by_cases hl : pathLookup s path > 0
  · rw [sfsMkdir, if_pos hl] at hr
    cases hr
    exact Or.inl ⟨rfl, rfl⟩
  right
  rcases sfsMkdir_eq env h hok hl with ⟨heq, _⟩ | ⟨u, i, b, hp, hn, _, heq⟩ |
    ⟨u, m, i, k, b, hp, hn, he, hm, hi, heq⟩
  · rw [heq] at hr
    cases hr
  · rw [heq] at hr
    cases hr
    exact Or.inl ⟨u, i, b, hp, hn, rfl, rfl⟩
  · rw [heq] at hr
    obtain ⟨t, ht, hrt⟩ := bind_ok.mp hr
    cases hrt
    exact Or.inr ⟨u, m, i, k, b, hp, hn, he, hm, hi, rfl, ht⟩

/-- The lookups of `sfs_unlink` and `sfs_rmdir`. -/
theorem Tree.lookup_parent (h : Tree s) {m : Int} (hm : Entry s m)
    (hne : pathOf s m ≠ [slash]) :
    pathLookup s (pathOf s m) = m ∧ ∃ k, Entry s k ∧ IsDir s k ∧
      IsParent (pathOf s k) (pathOf s m) ∧
      (s.nameTable (pathLookup s (getCwdPath (pathOf s m)))).stIno = inoOf s k := by
  obtain ⟨k, hk, hkd, hkp⟩ := h.parent m hm hne
  refine ⟨h.lookup hm, k, hk, hkd, hkp, ?_⟩
  rw [hkp.getCwdPath_eq, h.lookup hk, inoOf]

/-- What `sfs_unlink` does with a file. -/
theorem sfsUnlink_cases (h : Tree s) (hok : FuseOk s (.unlink path)) :
    Post (sfsUnlink env path s) fun r =>
      ∃ m k u, Entry s m ∧ pathOf s m = path ∧ IsReg s m ∧
        (Entry s k ∧ IsDir s k ∧ IsParent (pathOf s k) path) ∧ r.1 = 0 ∧
        removeEntry env (inoOf s k) (dirEntry (getName path) (inoOf s m))
          { s with cwdInode := inoOf s k } = .ok u ∧
        r.2 = freeMapping m (freeInode (inoOf s m) u) := by
  obtain ⟨m, hm, rfl, hreg⟩ := hok
  have hne : pathOf s m ≠ [slash] := by
    intro heq
    have hm₀ : m = 0 := h.path_inj m 0 hm h.root.1 (heq.trans h.root.2.1.symm)
    have hd := h.root.2.2
    rw [← hm₀, IsDir, not_isDir_of_isReg hreg] at hd
    cases hd
  obtain ⟨hl, k, hk, hkd, hkp, hcwd⟩ := h.lookup_parent hm hne
  have hm₀ := hm.1
  unfold sfsUnlink
  simp only [hl, hcwd]
  rw [if_neg (show ¬ m < 0 by omega)]
  intro r hr
  obtain ⟨u, hu, hru⟩ := bind_ok.mp hr
  cases hru
  exact ⟨m, k, u, hm, rfl, hreg, ⟨hk, hkd, hkp⟩, rfl, hu, rfl⟩

/-- What `sfs_rmdir` does with an entry other than the root. -/
theorem sfsRmdir_entry (h : Tree s) {m : Int} (hm : Entry s m) (hne : pathOf s m ≠ [slash]) :
    Post (sfsRmdir env (pathOf s m) s) fun r =>
      ∃ k, (Entry s k ∧ IsDir s k ∧ IsParent (pathOf s k) (pathOf s m)) ∧
        (2 < (s.inodeTable (inoOf s m)).stat.stNlink ∧ r.1 = -ENOTEMPTY ∧
          r.2 = { s with cwdInode := inoOf s k } ∨
        ∃ u, ¬ 2 < (s.inodeTable (inoOf s m)).stat.stNlink ∧ r.1 = 0 ∧
          removeEntry env (inoOf s k) (dirEntry (getName (pathOf s m)) (inoOf s m))
            { s with cwdInode := inoOf s k } = .ok u ∧
          r.2 = freeMapping m (freeInode (inoOf s m) u)) := by
  obtain ⟨hl, k, hk, hkd, hkp, hcwd⟩ := h.lookup_parent hm hne
  have hm₀ := hm.1
  unfold sfsRmdir
  simp only [hl, hcwd]
  rw [if_neg (show ¬ m < 0 by omega)]
  intro r hr
  refine ⟨k, ⟨hk, hkd, hkp⟩, ?_⟩
  split at hr
  · rename_i hlt
    cases hr
    exact Or.inl ⟨hlt, rfl, rfl⟩
  · rename_i hle
    obtain ⟨u, hu, hru⟩ := bind_ok.mp hr
    cases hru
    exact Or.inr ⟨u, hle, rfl, hu, rfl⟩

/-- What `sfs_rmdir` does with a directory. -/
theorem sfsRmdir_cases (h : Tree s) (hok : FuseOk s (.rmdir path)) :
    Post (sfsRmdir env path s) fun r =>
      ∃ m k, Entry s m ∧ pathOf s m = path ∧ IsDir s m ∧
        (Entry s k ∧ IsDir s k ∧ IsParent (pathOf s k) path) ∧
        (2 < (s.inodeTable (inoOf s m)).stat.stNlink ∧ r.1 = -ENOTEMPTY ∧
          r.2 = { s with cwdInode := inoOf s k } ∨
        ∃ u, ¬ 2 < (s.inodeTable (inoOf s m)).stat.stNlink ∧ r.1 = 0 ∧
          removeEntry env (inoOf s k) (dirEntry (getName path) (inoOf s m))
            { s with cwdInode := inoOf s k } = .ok u ∧
          r.2 = freeMapping m (freeInode (inoOf s m) u)) := by
  obtain ⟨hne, m, hm, rfl, hd⟩ := hok
  refine (sfsRmdir_entry h hm hne).imp ?_
  intro r hr
  obtain ⟨k, hpar, hcases⟩ := hr
  exact ⟨m, k, hm, rfl, hd, hpar, hcases⟩

end Calls

/-- `free_inode` touches one inode and `disk_blocks`. -/
theorem freeInode_names (ino : Int) (s : FS) :
    (freeInode ino s).nameTable = s.nameTable ∧ (freeInode ino s).openFiles = s.openFiles ∧
      ∀ j, j ≠ ino → (freeInode ino s).inodeTable j = s.inodeTable j := by
  unfold freeInode
  dsimp only
  split
  · exact ⟨rfl, rfl, fun j hj => FS.modStat_inodeTable_ne s ino _ hj⟩
  · refine ⟨rfl, rfl, fun j hj => ?_⟩
    rw [FS.modInode_inodeTable_ne _ _ _ hj]
    exact FS.modStat_inodeTable_ne s ino
      (fun st => { st with stNlink := toU64 (st.stNlink - 1) }) hj

section TreeSteps

variable {s t : FS} {env : Env} {path : Path} {mode : Nat} {fi : Int}

/-- Undoing the setup of an inode that has no name. -/
theorem Prepared.undo (h : Tree s) {u : FS} {i : Int} (hp : Prepared s u i)
    (hnames : t.nameTable = u.nameTable)
    (hnode : ∀ j, j ≠ i → t.inodeTable j = u.inodeTable j) : SameTree s t := by
  obtain ⟨hun, hun'⟩ := hp.sameTree h
  refine ⟨hnames.trans hun, fun m hm => ?_⟩
  have hne : inoOf s m ≠ i := by
    rintro rfl
    have hfree := hp.free
    rw [h.ino_avail m hm] at hfree
    exact absurd hfree (by decide)
  rw [hnode _ hne]
  exact hun' m hm

/-- **`sfs_create` on the tree.** -/
theorem sfsCreate_tree (h : Tree s) (hok : FuseOk s (.create path mode)) :
    Post (sfsCreate env path mode fi s) fun r =>
      SameTree s r.2.2 ∧ r.1 < 0 ∨ r.1 = 0 ∧ ∃ k, Tree.Inserts s r.2.2 (getMapping s).1
        (getInode s).1 k path := by
  refine (sfsCreate_cases h hok).imp ?_
  rintro ⟨r, fh, t⟩ (⟨hr, ht⟩ | ⟨u, i, fh', hp, _, hr, ht⟩ |
    ⟨u, m, i, k, fh', hp, _, he, hm, hi, hr, ht⟩) <;> dsimp only at hr ht ⊢ <;> subst hr
  · subst t
    exact Or.inl ⟨⟨rfl, fun _ _ => ⟨rfl, rfl, rfl⟩⟩, by decide⟩
  · subst t
    obtain ⟨hnames, _, hnode⟩ := freeInode_names i u
    exact Or.inl ⟨hp.undo h hnames hnode, by decide⟩
  · have hrel := (appendEntry_relinks env (inoOf s k) _ _).post _ ht
    rw [← he.cwd] at hrel
    subst m i
    exact Or.inr ⟨rfl, k, h.inserts he hrel⟩

/-- **`sfs_mkdir` on the tree.** -/
theorem sfsMkdir_tree (h : Tree s) (hok : FuseOk s (.mkdir path mode)) :
    Post (sfsMkdir env path mode s) fun r =>
      SameTree s r.2 ∧ r.1 < 0 ∨ r.1 = 0 ∧ ∃ k, Tree.Inserts s r.2 (getMapping s).1
        (getInode s).1 k path := by
  refine (sfsMkdir_cases h hok).imp ?_
  rintro ⟨r, t⟩ (⟨hr, ht⟩ | ⟨u, i, b, hp, _, hr, ht⟩ |
    ⟨u, m, i, k, b, hp, _, he, hm, hi, hr, ht⟩) <;> dsimp only at hr ht ⊢ <;> subst hr
  · subst t
    exact Or.inl ⟨⟨rfl, fun _ _ => ⟨rfl, rfl, rfl⟩⟩, by decide⟩
  · subst t
    obtain ⟨hnames, _, hnode⟩ := freeInode_names i u
    exact Or.inl ⟨hp.undo h hnames hnode, by decide⟩
  · have hrel := (appendEntry_relinks env (inoOf s k) _ _).post _ ht
    subst m i
    have hrel' : Relinks (enterName _ _ path _) t (inoOf s k) _ :=
      Relinks.trans_id ((keeps_write _ b (textBlock (dirHeader _ (inoOf s k)))).relinks _) hrel
    rw [← he.cwd] at hrel'
    exact Or.inr ⟨rfl, k, h.inserts he hrel'⟩

/-- Deleting the entry of the leaf `m` from its parent and giving up the inode. -/
theorem Tree.erases (h : Tree s) {u : FS} {m k : Int} (hm : Entry s m)
    (hpar : Entry s k ∧ IsDir s k ∧ IsParent (pathOf s k) (pathOf s m))
    (hleaf : children s (pathOf s m) = ∅)
    (hr : Relinks s u (inoOf s k) fun n => toU64 (n - 1)) :
    Tree.Erases s (freeMapping m (freeInode (inoOf s m) u)) m k := by
  obtain ⟨hk, hkd, hkp⟩ := hpar
  obtain ⟨hnames, _, hnode⟩ := freeInode_names (inoOf s m) u
  have hkm : inoOf s k ≠ inoOf s m := fun heq => by
    have := h.ino_inj k m hk hm heq
    subst this
    exact hkp.ne rfl
  refine
    { entry := hm
      parent := ⟨hk, hkd, hkp⟩
      leaf := hleaf
      names := by simp [freeMapping, hnames, hr.names]
      avail_ne := fun j hj => ?_
      mode_ne := fun j hj => ?_
      nlink_parent := ?_
      nlink_ne := fun j hj hjk => ?_ }
  · rw [freeMapping, FS.setName_inodeTable, hnode j hj, hr.avail]
  · rw [freeMapping, FS.setName_inodeTable, hnode j hj, hr.mode]
  · have hbound := h.nlink_bounds hk hkd
    rw [freeMapping, FS.setName_inodeTable, hnode _ hkm, hr.nlink]
    exact toU64_of_range (by omega) (by omega)
  · rw [freeMapping, FS.setName_inodeTable, hnode j hj, hr.nlink_ne j hjk]

/-- A regular file is the parent of nothing. -/
theorem Tree.leaf_of_isReg (h : Tree s) {m : Int} (hm : Entry s m) (hreg : IsReg s m) :
    children s (pathOf s m) = ∅ := by
  rw [Set.eq_empty_iff_forall_notMem]
  rintro j ⟨hj, hp⟩
  obtain ⟨k, hk, hkd, hkp⟩ := h.parent j hj hp.ne_root
  have hkm := h.path_inj k m hk hm (hkp.unique hp)
  subst k
  rw [IsDir, not_isDir_of_isReg hreg] at hkd
  cases hkd

/-- **`sfs_unlink` on the tree.** -/
theorem sfsUnlink_tree (h : Tree s) (hok : FuseOk s (.unlink path)) :
    Post (sfsUnlink env path s) fun r =>
      ∃ m k, pathOf s m = path ∧ Tree.Erases s r.2 m k := by
  refine (sfsUnlink_cases h hok).imp ?_
  rintro ⟨r, t⟩ ⟨m, k, u, hm, rfl, hreg, hpar, _, hu, rfl⟩
  have hrel := removeEntry_relinks env _ _ _ _ hu
  exact ⟨m, k, rfl, h.erases hm hpar (h.leaf_of_isReg hm hreg)
    ⟨hrel.names, hrel.opens, hrel.avail, hrel.mode, hrel.nlink, hrel.nlink_ne, hrel.system⟩⟩

/-- **`sfs_rmdir` on the tree.** -/
theorem sfsRmdir_tree (h : Tree s) (hok : FuseOk s (.rmdir path)) :
    Post (sfsRmdir env path s) fun r =>
      SameTree s r.2 ∧ r.1 = -ENOTEMPTY ∨
      ∃ m k, pathOf s m = path ∧ Tree.Erases s r.2 m k := by
  refine (sfsRmdir_cases h hok).imp ?_
  rintro ⟨r, t⟩ ⟨m, k, hm, rfl, hd, hpar, ⟨_, hr, rfl⟩ | ⟨u, hle, _, hu, rfl⟩⟩
  · exact Or.inl ⟨⟨rfl, fun _ _ => ⟨rfl, rfl, rfl⟩⟩, hr⟩
  · have hleaf : children s (pathOf s m) = ∅ := by
      rw [Set.eq_empty_iff_forall_notMem]
      exact fun j hj => hle (h.nlink_of_child hm hd hj.1 hj.2)
    have hrel := removeEntry_relinks env _ _ _ _ hu
    exact Or.inr ⟨m, k, rfl, h.erases hm hpar hleaf
      ⟨hrel.names, hrel.opens, hrel.avail, hrel.mode, hrel.nlink, hrel.nlink_ne, hrel.system⟩⟩

end TreeSteps

end Sfs
