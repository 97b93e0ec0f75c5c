import CS416.Sfs.Isolation
import CS416.Sfs.Mount

/-!
# The area set aside for the tables

A first mount sets `reserve_blocks` blocks aside at the end of the disk, but
neither marks them in `disk_blocks` nor keeps `get_block` away from them.  They
are safe because `get_block` takes the first free block: as long as one block
in front of them is free, it takes none of theirs.
-/

namespace Sfs

open CInt Outcome Runs

/-- A block in front of the reserved area is free. -/
def HasRoom (s : FS) : Prop := ∃ b, 0 ≤ b ∧ b < s.systemBlock ∧ s.diskBlocks b = FREE

/-- The reserved area is where a first mount put it, and no block of it is taken. -/
structure Reserved (s : FS) : Prop where
  system : s.systemBlock = numBlocks - reserveBlocks
  free : ∀ b, s.systemBlock ≤ b → b < numBlocks → s.diskBlocks b = FREE

/-- Blocks have been taken, the first free ones. -/
structure TakesFront (s t : FS) : Prop where
  system : t.systemBlock = s.systemBlock
  keeps : ∀ b, 0 ≤ b → t.diskBlocks b = FREE → s.diskBlocks b = FREE
  front : ∀ b c, 0 ≤ b → b < c → s.diskBlocks c = FREE → t.diskBlocks c ≠ FREE →
    t.diskBlocks b ≠ FREE

/-- Blocks have been freed, and none taken. -/
structure FreesOnly (s t : FS) : Prop where
  system : t.systemBlock = s.systemBlock
  used : OnlyFrees s.diskBlocks t.diskBlocks

section Front

variable {s t u : FS} {env : Env} {b cwd ino : Int}

/-- No block is taken. -/
theorem TakesFront.same (hsystem : t.systemBlock = s.systemBlock)
    (hused : ∀ b, 0 ≤ b → t.diskBlocks b = s.diskBlocks b) : TakesFront s t where
  system := hsystem
  keeps b hb hfree := by rwa [← hused b hb]
  front b c hb hbc hfree hne := by
    rw [hused c (by omega)] at hne
    exact absurd hfree hne

theorem TakesFront.refl (s : FS) : TakesFront s s := TakesFront.same rfl fun _ _ => rfl

/-- One call after another. -/
theorem TakesFront.trans (h : TakesFront s u) (h' : TakesFront u t) : TakesFront s t where
  system := h'.system.trans h.system
  keeps b hb hfree := h.keeps b hb (h'.keeps b hb hfree)
  front b c hb hbc hfree hne := by
    by_cases hc : u.diskBlocks c = FREE
    · exact h'.front b c hb hbc hc hne
    · exact fun hbf => h.front b c hb hbc hfree hc (h'.keeps b hb hbf)

/-- A step that leaves `disk_blocks` alone may come in between. -/
theorem TakesFront.congr (h : TakesFront s u) (hsystem : t.systemBlock = u.systemBlock)
    (hused : t.diskBlocks = u.diskBlocks) : TakesFront s t :=
  h.trans (TakesFront.same hsystem fun _ _ => by rw [hused])

/-- The marks before are the same. -/
theorem TakesFront.before (h : TakesFront u t) (hsystem : u.systemBlock = s.systemBlock)
    (hused : u.diskBlocks = s.diskBlocks) : TakesFront s t :=
  (TakesFront.same hsystem fun _ _ => by rw [hused]).trans h

/-- `get_block` takes the first free block. -/
theorem Taken.front (h : Taken s b t) : TakesFront s t := by
  rw [h.state]
  refine ⟨rfl, fun c hc hfree => ?_, fun a c ha hac hfree hne => ?_⟩
  · by_cases hcb : c = b
    · rw [hcb]
      exact h.free
    · rwa [FS.setUsed_diskBlocks, Function.update_of_ne hcb] at hfree
  · by_cases hcb : c = b
    · have hab : a ≠ b := by omega
      rw [FS.setUsed_diskBlocks, Function.update_of_ne hab]
      exact h.least a ha (by omega)
    · rw [FS.setUsed_diskBlocks, Function.update_of_ne hcb] at hne
      exact absurd hfree hne

/-- **`get_block`** takes the first free block. -/
theorem getBlock_front (s : FS) : Post (getBlock s) fun r => TakesFront s r.2 :=
  (getBlock_outcome s).post.imp fun _ h => h.front

private theorem openSingle_front (ino : Int) (s : FS) :
    Post (openSingle ino s) fun r => TakesFront s r.2 := by
  unfold openSingle
  split
  · exact (getBlock_front s).bind fun _ h => Post.pure (h.congr rfl rfl)
  · exact Post.pure (TakesFront.refl s)

/-- The doubly indirect block is taken likewise. -/
theorem openDouble_front (env : Env) (ino : Int) (s : FS) :
    Post (openDouble env ino s) fun r => TakesFront s r.2 := by
  unfold openDouble
  split
  · exact (getBlock_front s).bind fun _ h => Post.pure (h.congr rfl rfl)
  · exact Post.pure (TakesFront.refl s)

private theorem openSub_front (ino : Int) (k : Nat) (buf : Block) (s : FS) :
    Post (openSub ino k buf s) fun r => TakesFront s r.2.2 := by
  unfold openSub
  split
  · exact (getBlock_front s).bind fun _ h => Post.pure (h.congr rfl rfl)
  · exact Post.pure (TakesFront.refl s)

/-- So are all index blocks. -/
theorem setBlockIndex_front (env : Env) (ino n b : Int) (s : FS) :
    Post (setBlockIndex env ino n b s) (TakesFront s) := by
  unfold setBlockIndex
  split_ifs
  · exact Post.pure ((TakesFront.refl s).congr rfl rfl)
  · exact (openSingle_front ino s).bind fun _ h => Post.pure (h.congr rfl rfl)
  · exact (openDouble_front env ino s).bind fun _ h =>
      (openSub_front ino _ _ _).bind fun _ h' => Post.pure ((h.trans h').congr rfl rfl)
  · exact Post.pure (TakesFront.refl s)

/-- So is a block of a directory. -/
theorem growDir_front (env : Env) (cwd i size : Int) (buf : Nat → UInt8) (s : FS) :
    Post (growDir env cwd i size buf s) (TakesFront s) := by
  unfold growDir
  split
  · exact (getBlock_front s).bind fun _ h =>
      (setBlockIndex_front env cwd _ _ _).bind fun _ h' => Post.pure ((h.trans h').congr rfl rfl)
  · exact Post.pure (TakesFront.refl s)

/-- A new entry takes the first free blocks. -/
theorem appendEntry_front (env : Env) (cwd : Int) (entry : Path) (s : FS) :
    Post (appendEntry env cwd entry s) (TakesFront s) := by
  refine appendEntry_post ?_
  unfold putEntry
  generalize textEnd s cwd = textPos
  refine (growDir_front env cwd _ _ _ _).bind fun t h => Post.pure ?_
  exact TakesFront.trans (h.before rfl rfl) (TakesFront.same rfl fun _ _ => rfl)

/-- A file grows by the first free blocks. -/
theorem growLoop_front (env : Env) (ino : Int) (n : Nat) (i : Int) (s : FS) :
    Post (growLoop env ino n i s) fun r => TakesFront s r.2 := by
  induction n generalizing i s with
  | zero => exact Post.pure (TakesFront.refl s)
  | succ n ih =>
      unfold growLoop
      refine (getBlock_front s).bind fun r h => ?_
      dsimp only
      split_ifs
      · exact Post.pure h
      · exact Post.pure h
      · exact (setBlockIndex_front env ino _ _ _).bind fun u h' =>
          (ih (i + 1) _).imp fun _ h'' => (h.trans h').trans (h''.before rfl rfl)

theorem growFile_front (env : Env) (ino total : Int) (s : FS) :
    Post (growFile env ino total s) fun r => TakesFront s r.2 := by
  unfold growFile
  dsimp only
  split
  · exact growLoop_front env ino _ _ s
  · exact Post.pure (TakesFront.refl s)

private theorem writeBack_used (ino start : Int) (buf : Nat → UInt8) (n i : Nat) (s : FS) :
    (writeBack ino start buf n i s).diskBlocks = s.diskBlocks := by
  induction n generalizing i s with
  | zero => rfl
  | succ n ih => exact ih (i + 1) _

/-- Storing the bytes takes none. -/
theorem writeData_front (ino : Int) (buf : Nat → UInt8) (size : Nat) (offset : Int) (s : FS) :
    Post (writeData ino buf size offset s) fun r => TakesFront s r.2 := by
  unfold writeData
  dsimp only
  split
  · exact Post.error _
  · refine Post.pure ((TakesFront.refl s).congr ?_ ?_)
    · exact (writeBack_keeps _ _ _ _ _ s).system
    · exact writeBack_used _ _ _ _ _ s

/-- A write takes the first free blocks, also when it fails. -/
theorem sfsWrite_front (env : Env) (fh : Int) (buf : Nat → UInt8) (size : Nat) (offset : Int)
    (s : FS) : Post (sfsWrite env fh buf size offset s) fun r => TakesFront s r.2 := by
  unfold sfsWrite
  dsimp only
  split_ifs
  · exact Post.ok (TakesFront.refl s)
  · exact Post.ok (TakesFront.refl s)
  · exact Post.ok (TakesFront.refl s)
  · refine (growFile_front env _ _ s).bind fun r h => ?_
    split_ifs
    · exact Post.pure h
    · exact (writeData_front _ buf size offset _).imp fun _ h' => h.trans h'

end Front

section Frees

variable {s t u : FS} {env : Env} {b cwd ino : Int}

theorem FreesOnly.refl (s : FS) : FreesOnly s s := ⟨rfl, OnlyFrees.refl _⟩

/-- One call after another. -/
theorem FreesOnly.trans (h : FreesOnly s u) (h' : FreesOnly u t) : FreesOnly s t :=
  ⟨h'.system.trans h.system, h.used.trans h'.used⟩

/-- Steps that leave `disk_blocks` alone may come before and after. -/
theorem FreesOnly.around {v : FS} (h : FreesOnly u v)
    (hbefore : u.systemBlock = s.systemBlock ∧ u.diskBlocks = s.diskBlocks)
    (hafter : t.systemBlock = v.systemBlock ∧ t.diskBlocks = v.diskBlocks) : FreesOnly s t :=
  ⟨by rw [hafter.1, h.system, hbefore.1], by rw [hafter.2, ← hbefore.2]; exact h.used⟩

/-- **`free_inode`** takes no block. -/
theorem freeInode_freesOnly (ino : Int) (s : FS) : FreesOnly s (freeInode ino s) := by
  unfold freeInode
  dsimp only
  split
  · exact ⟨rfl, OnlyFrees.refl _⟩
  · exact ⟨rfl, freeBlocks_onlyFrees⟩

/-- A directory is read as fewer than ten blocks. -/
theorem dirBlocks_lt (size : Int) : dirBlocks size < 10 := by
  unfold dirBlocks
  split <;> decide

private theorem shrinkDir_freesOnly (env : Env) (cwd size resize : Int) {blocks : Int}
    (hblocks : blocks < 10) (s : FS) :
    Post (shrinkDir env cwd size resize blocks s) (FreesOnly s) := by
  unfold shrinkDir
  split
  · rw [setBlockIndex, if_pos hblocks]
    exact Post.pure ⟨rfl, (OnlyFrees.refl _).update _⟩
  · exact Post.pure (FreesOnly.refl s)

/-- The removal of an entry takes no block. -/
theorem removeEntry_freesOnly (env : Env) (cwd : Int) (entry : Path) (s : FS) :
    Post (removeEntry env cwd entry s) (FreesOnly s) := by
  unfold removeEntry
  dsimp only
  split
  · exact Post.error _
  · refine (shrinkDir_freesOnly env cwd _ _ (dirBlocks_lt _) _).bind fun t h => Post.pure ?_
    have hstore := storeText_keeps cwd (dirBlocks (toInt (s.inodeTable cwd).stat.stSize))
      (removeSubstring (dirString env s cwd
        (dirBlocks (toInt (s.inodeTable cwd).stat.stSize))) entry) s
    have hused : (storeText cwd (dirBlocks (toInt (s.inodeTable cwd).stat.stSize))
        (removeSubstring (dirString env s cwd
          (dirBlocks (toInt (s.inodeTable cwd).stat.stSize))) entry) s).diskBlocks =
        s.diskBlocks := by
      unfold storeText
      split <;> rfl
    exact h.around ⟨hstore.system, hused⟩ ⟨rfl, rfl⟩

/-- `sfs_unlink` takes no block. -/
theorem sfsUnlink_freesOnly (env : Env) (path : Path) (s : FS) :
    Post (sfsUnlink env path s) fun r => FreesOnly s r.2 := by
  unfold sfsUnlink
  dsimp only
  split
  · exact Post.ok (FreesOnly.refl s)
  · refine (removeEntry_freesOnly env _ _ _).bind fun t h => Post.pure ?_
    exact (h.trans (freeInode_freesOnly _ t)).around ⟨rfl, rfl⟩ ⟨rfl, rfl⟩

/-- `sfs_rmdir` takes no block. -/
theorem sfsRmdir_freesOnly (env : Env) (path : Path) (s : FS) :
    Post (sfsRmdir env path s) fun r => FreesOnly s r.2 := by
  unfold sfsRmdir
  dsimp only
  split_ifs
  · exact Post.ok (FreesOnly.refl s)
  · exact Post.ok ⟨rfl, OnlyFrees.refl _⟩
  · refine (removeEntry_freesOnly env _ _ _).bind fun t h => Post.pure ?_
    exact (h.trans (freeInode_freesOnly _ t)).around ⟨rfl, rfl⟩ ⟨rfl, rfl⟩

end Frees

section Calls

variable {s t u : FS} {env : Env} {c : Call} {path : Path} {mode : Nat} {fi b ino : Int}

/-- Blocks have been taken from the front, or freed. -/
def FrontOrFrees (s t : FS) : Prop := TakesFront s t ∨ FreesOnly s t

private theorem getInode_used (s : FS) : (getInode s).2.systemBlock = s.systemBlock ∧
    (getInode s).2.diskBlocks = s.diskBlocks := by
  unfold getInode
  split <;> exact ⟨rfl, rfl⟩

private theorem getMapping_used (s : FS) : (getMapping s).2.systemBlock = s.systemBlock ∧
    (getMapping s).2.diskBlocks = s.diskBlocks ∧
    (getMapping s).2.inodeTable = s.inodeTable := by
  unfold getMapping
  split <;> exact ⟨rfl, rfl, rfl⟩

/-- `sfs_create` takes the first free blocks. -/
theorem sfsCreate_used (env : Env) (path : Path) (mode : Nat) (fi : Int) (s : FS) :
    Post (sfsCreate env path mode fi s) fun r => FrontOrFrees s r.2.2 := by
  unfold sfsCreate
  obtain ⟨hsys, hused⟩ := getInode_used s
  split
  · exact Post.ok (Or.inl (TakesFront.refl s))
  dsimp only
  generalize hu : ((getInode s).2.setOpen _ _).modStat _ _ = u
  have husys : u.systemBlock = s.systemBlock := by rw [← hu]; exact hsys
  have huused : u.diskBlocks = s.diskBlocks := by rw [← hu]; exact hused
  obtain ⟨hmsys, hmused, _⟩ := getMapping_used u
  split_ifs
  · exact Post.ok (Or.inr ((freeInode_freesOnly _ _).around
      ⟨hmsys.trans husys, hmused.trans huused⟩ ⟨rfl, rfl⟩))
  · refine (appendEntry_front env _ _ _).bind fun t ht => Post.pure (Or.inl ?_)
    exact ht.before (hmsys.trans husys) (hmused.trans huused)
  · exact Post.error _

/-- The inode that `sfs_mkdir` gives up again has two links, so `free_inode` stops at once. -/
theorem freeInode_linked (h : (s.inodeTable ino).stat.stNlink = 2) :
    (freeInode ino s).systemBlock = s.systemBlock ∧
      (freeInode ino s).diskBlocks = s.diskBlocks := by
  unfold freeInode
  dsimp only
  have hlink : 0 < ((s.modStat ino fun st =>
      { st with stNlink := toU64 (st.stNlink - 1) }).inodeTable ino).stat.stNlink := by
    rw [FS.modStat_stat_self]
    dsimp only
    rw [h]
    decide
  rw [if_pos hlink]
  exact ⟨rfl, rfl⟩

/-- `sfs_mkdir` takes the first free blocks, or undoes what it did. -/
theorem sfsMkdir_used (env : Env) (path : Path) (mode : Nat) (s : FS) :
    Post (sfsMkdir env path mode s) fun r => FrontOrFrees s r.2 := by
  unfold sfsMkdir
  obtain ⟨hsys, hused⟩ := getInode_used s
  split
  · exact Post.ok (Or.inl (TakesFront.refl s))
  dsimp only
  generalize hu : (getInode s).2.modStat _ _ = u
  have husys : u.systemBlock = s.systemBlock := by rw [← hu]; exact hsys
  have huused : u.diskBlocks = s.diskBlocks := by rw [← hu]; exact hused
  have hlink : (u.inodeTable (getInode s).1).stat.stNlink = 2 := by
    rw [← hu, FS.modStat_stat_self]
  refine (getBlock_outcome u).post.bind fun r hr => ?_
  have hfront : TakesFront s r.2 := hr.front.before husys huused
  have hlink' : ((r.2.setBlocks (getInode s).1 0 r.1).inodeTable
      (getInode s).1).stat.stNlink = 2 := by
    rw [FS.setBlocks_stat, hr.state]
    exact hlink
  obtain ⟨hmsys, hmused, hmnode⟩ := getMapping_used (r.2.setBlocks (getInode s).1 0 r.1)
  split_ifs
  · have hlink'' := hlink'
    rw [← hmnode] at hlink''
    obtain ⟨hfsys, hfused⟩ := freeInode_linked hlink''
    exact Post.ok (Or.inl (hfront.congr (hfsys.trans hmsys) (hfused.trans hmused)))
  · refine (appendEntry_front env _ _ _).bind fun t ht => Post.pure (Or.inl ?_)
    exact hfront.trans (ht.before hmsys hmused)
  · exact Post.error _

/-- **Every call takes blocks from the front or frees some.** -/
theorem exec_used (env : Env) (c : Call) (s : FS) :
    Post (exec env c s) fun r => FrontOrFrees s r.2 := by
  cases c with
  | create path mode =>
      exact (sfsCreate_used env path mode 0 s).bind fun _ h => Post.pure h
  | mkdir path mode => exact sfsMkdir_used env path mode s
  | openFile path =>
      unfold exec sfsOpen
      dsimp only
      split_ifs <;> exact Post.pure (Or.inl ((TakesFront.refl s).congr rfl rfl))
  | write fh buf size offset =>
      exact (sfsWrite_front env fh buf size offset s).imp fun _ h => Or.inl h
  | read fh size offset =>
      intro r hr
      obtain ⟨a, _, ha⟩ := bind_ok.mp hr
      cases ha
      exact Or.inl (TakesFront.refl s)
  | release fh => exact Post.pure (Or.inl ((TakesFront.refl s).congr rfl rfl))
  | unlink path => exact (sfsUnlink_freesOnly env path s).imp fun _ h => Or.inr h
  | rmdir path => exact (sfsRmdir_freesOnly env path s).imp fun _ h => Or.inr h

/-- A first mount sets the area aside. -/
theorem FreshState.reserved (h : FreshState s) : Reserved s where
  system := h.system
  free b hb hlt := by
    rw [h.system] at hb
    simp only [numBlocks, reserveBlocks] at hb hlt
    rw [h.used b (by omega) hlt, if_neg (by omega)]

/-- A call that leaves room in front of the area has not come into it. -/
theorem Reserved.step (h : Reserved s) (hused : FrontOrFrees s t) (hroom : HasRoom t) :
    Reserved t := by
  obtain ⟨b, hb, hbt, hbfree⟩ := hroom
  rcases hused with hfront | hfrees
  · refine ⟨hfront.system.trans h.system, fun c hc hlt => ?_⟩
    by_contra hne
    exact hfront.front b c hb (by omega) (h.free c (by rw [← hfront.system]; exact hc) hlt) hne
      hbfree
  · exact ⟨hfrees.system.trans h.system, fun c hc hlt =>
      hfrees.used.free (h.free c (by rw [← hfrees.system]; exact hc) hlt)⟩

end Calls

/-- The states of the runs that leave room in front of the reserved area, after every call. -/
def RoomyRun (ok : FS → Call → Prop) : FS → Prop :=
  Reach Fresh fun s c t => ok s c ∧ Returns s c t ∧ HasRoom t

section Roomy

variable {ok : FS → Call → Prop} {s : FS}

/-- Such a run is a run. -/
theorem RoomyRun.reached (h : RoomyRun ok s) : Reached ok s :=
  h.mono fun _ _ _ hstep => ⟨hstep.1, hstep.2.1⟩

/-- A first mount has room. -/
theorem FreshState.hasRoom (h : FreshState s) : HasRoom s := by
  refine ⟨1, by decide, ?_, h.used 1 (by decide) (by decide)⟩
  rw [h.system]
  decide

/-- There is room in every state of such a run. -/
theorem RoomyRun.hasRoom (h : RoomyRun ok s) : HasRoom s :=
  h.invariant (I := HasRoom) (fun _ hs => (fresh_state hs).hasRoom)
    fun _ _ _ _ _ hstep => hstep.2.2

/-- **The reserved area is free along such a run.** -/
theorem RoomyRun.reserved (h : RoomyRun ok s) : Reserved s := by
  apply h.invariant (I := Reserved)
  · intro s hs
    exact (fresh_state hs).reserved
  · intro s c t _ hs hstep
    obtain ⟨_, ⟨env, r, hexec⟩, hroom⟩ := hstep
    exact hs.step (exec_used env c s _ hexec) hroom

end Roomy

end Sfs
