import CS416.Sfs.Accounting
import CS416.Sfs.Lookup

/-!
# Making and removing again

A directory starts with two links, and `sfs_rmdir` gives its inode up through
`free_inode`, which drops one link and keeps an inode that has links left.  So
each pair of `sfs_mkdir` and `sfs_rmdir` leaves an inode in use that has no name.
-/

namespace Sfs

open CInt Search Outcome

/-- The same inodes, names and blocks are in use. -/
structure SameInUse (s t : FS) : Prop where
  inodes : allocated t = allocated s
  names : ∀ m, Entry t m ↔ Entry s m
  blocks : marked t = marked s

section Mkdir

variable {s t u : FS} {env env' : Env} {path : Path} {mode : Nat}

/-- After `sfs_mkdir` the new entry names the new inode, which has two links. -/
theorem sfsMkdir_entered (h : Tree s) (hok : FuseOk s (.mkdir path mode))
    (hmk : sfsMkdir env path mode s = .ok (0, t)) :
    ∃ m, Tree t ∧ Entry t m ∧ pathOf t m = path ∧ path ≠ [slash] ∧
      inoOf t m ∉ allocated s ∧ inoOf t m ∈ allocated t ∧
      (t.inodeTable (inoOf t m)).stat.stNlink = 2 := by
  have htree : Tree t := h.exec hok ⟨env, 0, hmk⟩
  rcases sfsMkdir_cases h hok _ hmk with ⟨hr, _⟩ | ⟨_, _, _, _, _, hr, _⟩ |
    ⟨v, m, i, k, b, hp, hn, he, _, _, _, happend⟩
  · cases hr
  · cases hr
  have hrel := (appendEntry_relinks env (inoOf s k) _ _).post _ happend
  have hnames : t.nameTable = Function.update s.nameTable m ⟨ALLOCD, i, path⟩ :=
    hrel.names.trans he.names
  have hino : inoOf t m = i := by rw [inoOf, hnames, Function.update_self]
  have hki : i ≠ inoOf s k := by
    intro heq
    apply not_mem_allocated hp.free
    rw [heq]
    exact h.dir_allocated he.parent.1
  refine ⟨m, htree, ?_, ?_, he.parent.2.2.ne_root, ?_, ?_, ?_⟩
  · refine ⟨he.slot.1, he.slot.2.1, ?_⟩
    rw [hnames, Function.update_self]
  · rw [pathOf, hnames, Function.update_self]
  · rw [hino]
    exact not_mem_allocated hp.free
  · rw [hino]
    refine ⟨hp.range.1, hp.range.2, ?_⟩
    rw [hrel.avail]
    exact he.avail
  · rw [hino, hrel.nlink_ne i hki]
    exact hn.nlink

/-- `sfs_rmdir` keeps an inode of two links. -/
theorem sfsRmdir_keeps_inode (h : Tree t) {m : Int} (hm : Entry t m)
    (hne : pathOf t m ≠ [slash]) (hlink : (t.inodeTable (inoOf t m)).stat.stNlink = 2)
    (hrm : sfsRmdir env (pathOf t m) t = .ok (0, u)) : inoOf t m ∈ allocated u := by
  obtain ⟨k, ⟨hk, _, hkp⟩, hcases⟩ := sfsRmdir_entry h hm hne _ hrm
  rcases hcases with ⟨_, hr, _⟩ | ⟨v, _, _, hremove, hu⟩
  · cases hr
  dsimp only at hu
  have hrel := removeEntry_relinks env _ _ _ _ hremove
  have hkm : inoOf t m ≠ inoOf t k := by
    intro heq
    have hmk := h.ino_inj m k hm hk heq
    exact hkp.ne (by rw [hmk])
  have hlink' : (v.inodeTable (inoOf t m)).stat.stNlink = 2 := by
    rw [hrel.nlink_ne _ hkm]
    exact hlink
  obtain ⟨h₀, h₁⟩ := h.ino_range m hm
  refine ⟨h₀, h₁, ?_⟩
  rw [hu]
  rcases freeInode_cases (inoOf t m) v with ⟨_, hkeep⟩ | ⟨hzero, _⟩
  · rw [freeMapping, FS.setName_inodeTable, hkeep, FS.modStat_avail, hrel.avail]
    exact h.ino_avail m hm
  · rw [hlink'] at hzero
    exact absurd (by decide) hzero

/-- The inode of a directory that is made and removed stays in use. -/
theorem mkdir_rmdir_inode (h : Tree s) (hok : FuseOk s (.mkdir path mode))
    (hmk : sfsMkdir env path mode s = .ok (0, t))
    (hrm : sfsRmdir env' path t = .ok (0, u)) : allocated u ≠ allocated s := by
  obtain ⟨m, htree, hm, rfl, hne, hfree, _, hlink⟩ := sfsMkdir_entered h hok hmk
  intro heq
  apply hfree
  rw [← heq]
  exact sfsRmdir_keeps_inode htree hm hne hlink hrm

/-- **No pair of `sfs_mkdir` and `sfs_rmdir` gives all resources back.** -/
theorem mkdir_rmdir_leaks (h : Reached FuseOk s) (hok : FuseOk s (.mkdir path mode))
    (hmk : sfsMkdir env path mode s = .ok (0, t)) :
    ¬ ∃ env' u, sfsRmdir env' path t = .ok (0, u) ∧ SameInUse s u := by
  intro hback
  obtain ⟨env', u, hrm, hsame⟩ := hback
  exact mkdir_rmdir_inode (reached_tree h) hok hmk hrm hsame.inodes

/-- The result of `mkdir /a` on a fresh mount is 0. -/
theorem mkdir_firstMount :
    ∃ t, sfsMkdir zeroEnv (rootPath letterA) 0o755 firstMount = .ok (0, t) :=
  ok_of_result (by decide +kernel)

/-- `mkdir /a` on a first mount, which no `rmdir` takes back. -/
theorem mkdir_rmdir_leaks_root :
    ∃ t, sfsMkdir zeroEnv (rootPath letterA) 0o755 firstMount = .ok (0, t) ∧
      ¬ ∃ env' u, sfsRmdir env' (rootPath letterA) t = .ok (0, u) ∧ SameInUse firstMount u := by
  obtain ⟨t, hmk⟩ := mkdir_firstMount
  exact ⟨t, hmk, mkdir_rmdir_leaks (reached_firstMount FuseOk)
    (fuseOk_root _ letterA (by decide +kernel)).2 hmk⟩

/-- `mkdir /a; rmdir /a` on a fresh mount leaves inode 1 in use. -/
theorem removed_directory_stays :
    ¬ ∀ s, Reached FuseOk s → ∀ env path mode t, FuseOk s (.mkdir path mode) →
      sfsMkdir env path mode s = .ok (0, t) →
      ∃ env' u, sfsRmdir env' path t = .ok (0, u) ∧ SameInUse s u := by
  intro hclaim
  have hok := (fuseOk_root firstMount letterA (by decide +kernel)).2
  obtain ⟨t, hmk⟩ := mkdir_firstMount
  obtain ⟨env', u, hrm, hsame⟩ := hclaim firstMount (reached_firstMount FuseOk) zeroEnv
    (rootPath letterA) 0o755 t hok hmk
  exact mkdir_rmdir_inode (fresh_tree fresh_firstMount) hok hmk hrm hsame.inodes

end Mkdir

end Sfs
