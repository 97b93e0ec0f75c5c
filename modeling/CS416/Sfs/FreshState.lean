import CS416.Sfs.Namespace

/-!
# The state after a first mount

`sfs_init` leaves one inode, one name and one block in use: the root
directory, whose block holds the entries `.` and `..`.
-/

namespace Sfs

open CInt Search Outcome CString

/-- What `sfs_init` leaves in the tables and on the disk. -/
structure FreshState (s : FS) : Prop where
  root_name : s.nameTable 0 = ⟨ALLOCD, 0, [slash]⟩
  names : ∀ m, 1 ≤ m → m < maxLink → s.nameTable m = ⟨FREE, 0, []⟩
  root_avail : (s.inodeTable 0).avail = ALLOCD
  root_mode : (s.inodeTable 0).stat.stMode = 0o040777
  root_nlink : (s.inodeTable 0).stat.stNlink = 2
  root_size : (s.inodeTable 0).stat.stSize = 9
  root_count : (s.inodeTable 0).stat.stBlocks = 1
  root_blocks : ∀ j, 0 ≤ j → j < 12 →
    (s.inodeTable 0).blocks j = if j = 0 then 0 else -1
  inodes : ∀ i, 1 ≤ i → i < maxNodes → s.inodeTable i = ⟨FREE, Stat.zero, fun _ => 0⟩
  used : ∀ b, 0 ≤ b → b < numBlocks → s.diskBlocks b = if b = 0 then ALLOCD else FREE
  opens : ∀ fh, 0 ≤ fh → fh < maxLink → (s.openFiles fh).stIno = -1
  text : ∀ j, j < 9 → (s.disk 0).byte j = (dirHeader 0 0 ++ [0]).getD j 0
  system : s.systemBlock = numBlocks - reserveBlocks

/-- The first inode that is taken is 0. -/
theorem getInode_first {u : FS} (h : (u.inodeTable 0).avail = FREE) :
    getInode u = (0, u.modInode 0 fun nd =>
      { nd with
        avail := ALLOCD
        blocks := fun j => if 0 ≤ j ∧ j < 12 then -1 else nd.blocks j }) := by
  rw [getInode, findFrom_eq_some (k := 0) (le_refl 0) (by decide) (by simpa using h)
    fun j h₀ h₁ => by omega]

/-- The first name that is taken is 0. -/
theorem getMapping_first {u : FS} (h : (u.nameTable 0).avail = FREE) :
    getMapping u = (0, u.setName 0 { u.nameTable 0 with avail := ALLOCD }) := by
  rw [getMapping, findFrom_eq_some (k := 0) (le_refl 0) (by decide) (by simpa using h)
    fun j h₀ h₁ => by omega]

/-- The first block that is taken is 0. -/
theorem getBlock_first {u : FS} (h : u.diskBlocks 0 = FREE) :
    getBlock u = .ok (0, u.setUsed 0 ALLOCD) := by
  obtain ⟨b, hb, htaken⟩ := getBlock_of_free (s := u) ⟨0, le_refl 0, by decide, h⟩
  have hb₀ : b = 0 := by
    by_contra hne
    exact htaken.least 0 (le_refl 0) (by have := htaken.nonneg; omega) h
  rw [hb, hb₀]

/-- **What a first mount sets up.** -/
theorem sfsInitFresh_spec {env : Env} {s₀ s : FS} (h : sfsInitFresh env s₀ = .ok s) :
    FreshState s := by
  unfold sfsInitFresh at h
  -- inode 0, entry 0 and block 0 are the first free ones
  rw [getInode_first (u := clearTables s₀) (by simp [clearTables])] at h
  dsimp only at h
  rw [getMapping_first (by simp [closeAll, clearTables])] at h
  dsimp only at h
  rw [getBlock_first (by simp [closeAll, clearTables])] at h
  cases h
  constructor
  case root_name => simp
  case names =>
    intro m h₀ h₁
    simp [closeAll, clearTables, show m ≠ 0 by omega, show 0 ≤ m by omega, h₁]
  case root_avail => simp [closeAll]
  case root_mode => simp [closeAll]
  case root_nlink => simp [closeAll]
  case root_size => simp [closeAll]
  case root_count => simp [closeAll]
  case root_blocks =>
    intro j h₀ h₁
    by_cases hj : j = 0
    · simp [closeAll, hj]
    · simp [closeAll, hj, h₀, h₁]
  case inodes =>
    intro i h₀ h₁
    have hi : i ≠ 0 := by omega
    simp [FS.modStat_inodeTable_ne, FS.setBlocks_inodeTable_ne, FS.modInode_inodeTable_ne,
      closeAll, clearTables, hi, show 0 ≤ i by omega, h₁]
  case used =>
    intro b h₀ h₁
    by_cases hb : b = 0
    · simp [hb]
    · simp [closeAll, clearTables, hb, h₀, h₁]
  case opens =>
    intro fh h₀ h₁
    simp [closeAll, h₀, h₁]
  case system => rfl
  case text =>
    intro j hj
    have hlen : (dirHeader 0 0).length = 8 := by decide
    have hself : ∀ (d : Disk) (b : Block), blockWrite d 0 b 0 = b := fun d b => by
      simp [blockWrite]
    simp only [FS.modStat_disk, FS.write_disk]
    rw [hself, Block.byte_ofFn _ (by omega)]
    by_cases hj₈ : j < 8
    · rw [if_pos hj₈, List.getD_append _ _ _ _ (hlen ▸ hj₈)]
    · obtain rfl : j = 8 := by omega
      simp only [if_neg hj₈, if_true]
      decide

/-- At first the root is the only entry. -/
theorem FreshState.entry_iff {s : FS} (h : FreshState s) (m : Int) : Entry s m ↔ m = 0 := by
  constructor
  · rintro ⟨h₀, h₁, ha⟩
    by_contra hm
    rw [h.names m (by omega) h₁] at ha
    exact absurd ha (by decide)
  · rintro rfl
    refine ⟨le_refl 0, by decide, ?_⟩
    rw [h.root_name]

/-- The tree of a first mount is the root alone. -/
theorem FreshState.tree {s : FS} (h : FreshState s) : Tree s := by
  have hentry := h.entry_iff
  have hpath : pathOf s 0 = [slash] := by rw [pathOf, h.root_name]
  have hino : inoOf s 0 = 0 := by rw [inoOf, h.root_name]
  have hdir : IsDir s 0 := by
    rw [IsDir, hino, h.root_mode]
    decide
  have hchild : children s [slash] = ∅ := by
    rw [Set.eq_empty_iff_forall_notMem]
    rintro j ⟨hj, hp⟩
    rw [(hentry j).mp hj, hpath] at hp
    exact hp.ne rfl
  constructor
  case avail_name =>
    intro m h₀ h₁
    by_cases hm : m = 0
    · rw [hm, h.root_name]
      exact Or.inr rfl
    · rw [h.names m (by omega) h₁]
      exact Or.inl rfl
  case free_path =>
    intro m h₀ h₁ hf
    by_cases hm : m = 0
    · rw [hm, h.root_name] at hf
      exact absurd hf (by decide)
    · rw [pathOf, h.names m (by omega) h₁]
  case root => exact ⟨(hentry 0).mpr rfl, hpath, hdir⟩
  all_goals simp only [hentry]
  case path_ne =>
    rintro m rfl
    rw [hpath]
    decide
  case path_inj =>
    rintro m n rfl rfl _
    rfl
  case ino_range =>
    rintro m rfl
    rw [hino]
    decide
  case ino_avail =>
    rintro m rfl
    rw [hino, h.root_avail]
  case ino_inj =>
    rintro m n rfl rfl _
    rfl
  case parent =>
    rintro m rfl hne
    exact absurd hpath hne
  case nlink =>
    rintro m rfl _
    rw [hino, h.root_nlink, hpath, hchild]
    simp

/-- A first mount sets that state up. -/
theorem fresh_state {s : FS} (h : Fresh s) : FreshState s := by
  obtain ⟨env, s₀, hinit⟩ := h
  exact sfsInitFresh_spec hinit

/-- Its names are a tree. -/
theorem fresh_tree {s : FS} (h : Fresh s) : Tree s := (fresh_state h).tree

section Runs

variable {s t : FS} {c : Call}

/-- `sfs_open` changes the handles only. -/
theorem sfsOpen_frame (path : Path) (fi : Int) (s : FS) :
    (sfsOpen path fi s).2.2.nameTable = s.nameTable ∧
      (sfsOpen path fi s).2.2.inodeTable = s.inodeTable ∧
      (sfsOpen path fi s).2.2.diskBlocks = s.diskBlocks ∧
      (sfsOpen path fi s).2.2.disk = s.disk := by
  unfold sfsOpen
  dsimp only
  split_ifs <;> exact ⟨rfl, rfl, rfl, rfl⟩

/-- `sfs_open` as a call. -/
theorem exec_open {env : Env} {path : Path} {r : Int}
    (h : exec env (.openFile path) s = .ok (r, t)) : (sfsOpen path 0 s).2.2 = t := by
  have hpair : (Except.ok ((sfsOpen path 0 s).1, (sfsOpen path 0 s).2.2) :
      Except Stop (Int × FS)) = .ok (r, t) := h
  rw [Except.ok.injEq, Prod.mk.injEq] at hpair
  exact hpair.2

/-- The call enters a new name. -/
def Enters (c : Call) (path : Path) : Prop :=
  ∃ mode, c = .create path mode ∨ c = .mkdir path mode

/-- **One call on the tree**: it changes nothing, or inserts a leaf at the
lowest free slot of each table, or erases a leaf. -/
theorem exec_tree (h : Tree s) (hok : FuseOk s c) (hret : Returns s c t) :
    SameTree s t ∨
      (∃ path k, Enters c path ∧
        Tree.Inserts s t (getMapping s).1 (getInode s).1 k path) ∨
      ∃ m k, Tree.Erases s t m k := by
  obtain ⟨env, r, hexec⟩ := hret
  have hsame : SameTree s s := ⟨rfl, fun _ _ => ⟨rfl, rfl, rfl⟩⟩
  cases c with
  | create path mode =>
      obtain ⟨⟨r', fh, u⟩, hu, heq⟩ := bind_ok.mp hexec
      cases heq
      rcases sfsCreate_tree h hok _ hu with ⟨hs, _⟩ | ⟨_, k, hins⟩
      · exact Or.inl hs
      · exact Or.inr (Or.inl ⟨path, k, ⟨mode, Or.inl rfl⟩, hins⟩)
  | mkdir path mode =>
      rcases sfsMkdir_tree h hok _ hexec with ⟨hs, _⟩ | ⟨_, k, hins⟩
      · exact Or.inl hs
      · exact Or.inr (Or.inl ⟨path, k, ⟨mode, Or.inr rfl⟩, hins⟩)
  | openFile path =>
      obtain ⟨hnames, hnodes, _, _⟩ := sfsOpen_frame path 0 s
      rw [← exec_open hexec]
      exact Or.inl ⟨hnames, fun m _ => by rw [hnodes]; exact ⟨rfl, rfl, rfl⟩⟩
  | write fh buf size offset =>
      exact Or.inl (sfsWrite_relinks env fh buf size offset s _ hexec).sameTree
  | read fh size offset =>
      obtain ⟨r', _, heq⟩ := bind_ok.mp hexec
      cases heq
      exact Or.inl hsame
  | release fh =>
      cases hexec
      exact Or.inl ⟨rfl, fun _ _ => ⟨rfl, rfl, rfl⟩⟩
  | unlink path =>
      obtain ⟨m, k, _, her⟩ := sfsUnlink_tree h hok _ hexec
      exact Or.inr (Or.inr ⟨m, k, her⟩)
  | rmdir path =>
      rcases sfsRmdir_tree h hok _ hexec with ⟨hs, _⟩ | ⟨m, k, _, her⟩
      · exact Or.inl hs
      · exact Or.inr (Or.inr ⟨m, k, her⟩)

/-- Every call that FUSE makes keeps the tree. -/
theorem Tree.exec (h : Tree s) (hok : FuseOk s c) (hret : Returns s c t) : Tree t := by
  rcases exec_tree h hok hret with hs | ⟨_, _, _, hins⟩ | ⟨_, _, her⟩
  · exact h.congr hs
  · exact h.insert hins
  · exact h.erase her

/-- **The names are a tree along every run.** -/
theorem reached_tree (h : Reached FuseOk s) : Tree s :=
  h.invariant (fun _ hs => fresh_tree hs) fun _ _ _ _ htree hstep =>
    htree.exec hstep.1 hstep.2

/-- **The name table is a tree along every run, and the emptiness test of
`sfs_rmdir` is exact.** -/
theorem name_table_is_tree (h : Reached FuseOk s) :
    (∀ m n, Entry s m → Entry s n → pathOf s m = pathOf s n → m = n) ∧
    (∀ m, Entry s m → 0 ≤ inoOf s m ∧ inoOf s m < maxNodes ∧
      (s.inodeTable (inoOf s m)).avail = ALLOCD) ∧
    (∀ m n, Entry s m → Entry s n → inoOf s m = inoOf s n → m = n) ∧
    (∀ m, Entry s m → pathOf s m ≠ [slash] →
      ∃ k, Entry s k ∧ IsDir s k ∧ IsParent (pathOf s k) (pathOf s m)) ∧
    (∀ m, Entry s m → IsDir s m →
      (s.inodeTable (inoOf s m)).stat.stNlink = 2 + (children s (pathOf s m)).ncard) ∧
    ∀ m, Entry s m → IsDir s m → ∀ env,
      ((∃ t, sfsRmdir env (pathOf s m) s = .ok (-ENOTEMPTY, t)) ↔
        ∃ n, Entry s n ∧ IsParent (pathOf s m) (pathOf s n)) ∧
      ∀ r t, pathOf s m ≠ [slash] → sfsRmdir env (pathOf s m) s = .ok (r, t) →
        ∀ n, Entry t n → pathOf t n ≠ [slash] →
          ∃ k, Entry t k ∧ IsDir t k ∧ IsParent (pathOf t k) (pathOf t n) := by
  have htree := reached_tree h
  refine ⟨htree.path_inj, fun m hm => ⟨(htree.ino_range m hm).1, (htree.ino_range m hm).2,
    htree.ino_avail m hm⟩, htree.ino_inj, htree.parent, htree.nlink, ?_⟩
  intro m hm hd env
  refine ⟨?_, ?_⟩
  · rw [← htree.nlink_iff hm hd]
    have hl := htree.lookup hm
    have hm₀ := hm.1
    unfold sfsRmdir
    simp only [hl]
    rw [if_neg (show ¬ m < 0 by omega)]
    constructor
    · rintro ⟨t, ht⟩
      split at ht
      · assumption
      · obtain ⟨u, _, heq⟩ := bind_ok.mp ht
        exact absurd heq (by simp [pure, Except.pure])
    · intro hlt
      exact ⟨_, if_pos hlt⟩
  · intro r t hne hexec
    exact (htree.exec (c := .rmdir (pathOf s m)) ⟨hne, m, hm, rfl, hd⟩ ⟨env, r, hexec⟩).parent

/-- The tree after `mkdir /a` has the two directories. -/
theorem name_table_is_tree_mkdir :
    ∃ s, Entry s 1 ∧ IsDir s 1 ∧ ∀ env,
      ((∃ t, sfsRmdir env (pathOf s 1) s = .ok (-ENOTEMPTY, t)) ↔
        ∃ n, Entry s n ∧ IsParent (pathOf s 1) (pathOf s n)) := by
  have hreached := reached_after zeroEnv (.mkdir (rootPath letterA) 0o755)
    (reached_firstMount FuseOk) (fuseOk_root _ letterA (by decide +kernel)).2
    (by decide +kernel)
  have hentry : Entry (after zeroEnv (.mkdir (rootPath letterA) 0o755) firstMount) 1 := by
    decide +kernel
  have hdir : IsDir (after zeroEnv (.mkdir (rootPath letterA) 0o755) firstMount) 1 := by
    decide +kernel
  obtain ⟨_, _, _, _, _, hexact⟩ := name_table_is_tree hreached
  exact ⟨_, hentry, hdir, fun env => (hexact 1 hentry hdir env).1⟩

end Runs

end Sfs
