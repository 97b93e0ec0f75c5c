import CS416.Sfs.AgreedRuns
import CS416.Sfs.Image

/-!
# The values in the tables

Along the runs that stay within the tables every field holds a small value of
its type: a flag, a block number, a link count that the tree bounds, a block
count within a file's limit.  Such tables are read back from their bytes.
-/

namespace Sfs

open CInt Outcome Runs

/-- Block maps name blocks or nothing, and `disk_blocks` holds flags. -/
structure BlockEntries (s : FS) : Prop where
  entry : ∀ i, 0 ≤ i → i < maxNodes → ∀ k, 0 ≤ k → k < 12 →
    -1 ≤ (s.inodeTable i).blocks k ∧ (s.inodeTable i).blocks k < numBlocks
  used : ∀ b, 0 ≤ b → b < numBlocks → 0 ≤ s.diskBlocks b ∧ s.diskBlocks b ≤ 1
  root : (-2147483648 ≤ s.rootInode ∧ s.rootInode < 2147483648) ∧
    -2147483648 ≤ s.rootBlock ∧ s.rootBlock < 2147483648

/-- The attributes of an inode; one in use has a link. -/
structure StatOk (flag : Int) (st : Stat) : Prop where
  cases : flag = FREE ∨ flag = ALLOCD
  mode : st.stMode < 4294967296
  nlink : 0 ≤ st.stNlink ∧ st.stNlink ≤ 131
  linked : flag = ALLOCD → 1 ≤ st.stNlink
  uid : st.stUid < 4294967296
  gid : st.stGid < 4294967296
  size : -9223372036854775808 ≤ st.stSize ∧ st.stSize < 9223372036854775808
  count : 0 ≤ st.stBlocks ∧ st.stBlocks ≤ 1110
  atime : -9223372036854775808 ≤ st.stAtime ∧ st.stAtime < 9223372036854775808
  mtime : -9223372036854775808 ≤ st.stMtime ∧ st.stMtime < 9223372036854775808
  ctime : -9223372036854775808 ≤ st.stCtime ∧ st.stCtime < 9223372036854775808

/-- An entry of `name_table` holds a C string that `sprintf` wrote as it stands. -/
structure NameOk (e : PathMap) : Prop where
  avail : e.avail = FREE ∨ e.avail = ALLOCD
  ino : -2147483648 ≤ e.stIno ∧ e.stIno < 2147483648
  path : PathFits e.path ∧ 0 ∉ e.path

structure FileOk (e : FileEntry) : Prop where
  refcnt : 0 ≤ e.refcnt ∧ e.refcnt ≤ 1
  ino : -2147483648 ≤ e.stIno ∧ e.stIno < 2147483648
  pos : e.pos = 0

/-- **The values in the tables.** -/
structure Values (s : FS) : Prop where
  node : ∀ i, 0 ≤ i → i < maxNodes →
    StatOk (s.inodeTable i).avail (s.inodeTable i).stat
  name : ∀ m, 0 ≤ m → m < maxLink → NameOk (s.nameTable m)
  file : ∀ fh, 0 ≤ fh → fh < maxLink → FileOk (s.openFiles fh)
  entries : BlockEntries s

/-- What a call is given fits the types of its parameters: `mode_t`, a path without `NUL`,
the identity of the process and the times of the clock. -/
def CallTyped : Call → Prop
  | .create path mode | .mkdir path mode => 0 ∉ path ∧ mode < 4294967296
  | _ => True

structure EnvTyped (env : Env) : Prop where
  uid : env.uid < 4294967296
  gid : env.gid < 4294967296
  atime : -9223372036854775808 ≤ env.atime ∧ env.atime < 9223372036854775808
  mtime : -9223372036854775808 ≤ env.mtime ∧ env.mtime < 9223372036854775808
  ctime : -9223372036854775808 ≤ env.ctime ∧ env.ctime < 9223372036854775808

section Entries

variable {s t : FS} {env : Env} {ino cwd b n k i size v : Int}

/-- A block number is entered. -/
theorem BlockEntries.setBlocks (h : BlockEntries s) (hb : -1 ≤ b ∧ b < numBlocks) :
    BlockEntries (s.setBlocks ino k b) := by
  refine ⟨fun i h₀ h₁ l hl₀ hl₁ => ?_, h.used, h.root⟩
  by_cases hi : i = ino
  · subst i
    rw [FS.setBlocks_blocks_self]
    by_cases hl : l = k
    · rw [hl, Function.update_self]
      exact hb
    · rw [Function.update_of_ne hl]
      exact h.entry ino h₀ h₁ l hl₀ hl₁
  · rw [FS.setBlocks_inodeTable_ne _ _ _ _ hi]
    exact h.entry i h₀ h₁ l hl₀ hl₁

/-- A mark is set. -/
theorem BlockEntries.setUsed (h : BlockEntries s) (hv : 0 ≤ v ∧ v ≤ 1) :
    BlockEntries (s.setUsed b v) := by
  refine ⟨h.entry, fun c h₀ h₁ => ?_, h.root⟩
  rw [FS.setUsed_diskBlocks]
  by_cases hc : c = b
  · rw [hc, Function.update_self]
    exact hv
  · rw [Function.update_of_ne hc]
    exact h.used c h₀ h₁

/-- A step that changes neither block maps nor `disk_blocks`. -/
theorem BlockEntries.congr (h : BlockEntries s)
    (hblocks : ∀ j, (t.inodeTable j).blocks = (s.inodeTable j).blocks)
    (hused : t.diskBlocks = s.diskBlocks)
    (hroot : t.rootInode = s.rootInode ∧ t.rootBlock = s.rootBlock) : BlockEntries t := by
  refine ⟨fun i h₀ h₁ l hl₀ hl₁ => ?_, fun c h₀ h₁ => ?_, ?_⟩
  · rw [hblocks]
    exact h.entry i h₀ h₁ l hl₀ hl₁
  · rw [hused]
    exact h.used c h₀ h₁
  · rw [hroot.1, hroot.2]
    exact h.root

/-- Writing a block changes no table. -/
theorem BlockEntries.write (h : BlockEntries s) (blk : Block) : BlockEntries (s.write n blk) :=
  h.congr (fun _ => rfl) rfl ⟨rfl, rfl⟩

/-- Neither does an assignment to `stat`. -/
theorem BlockEntries.modStat (h : BlockEntries s) (ino : Int) (f : Stat → Stat) :
    BlockEntries (s.modStat ino f) :=
  h.congr (fun j => FS.modStat_blocks s ino f j) rfl ⟨rfl, rfl⟩

/-- The block that is taken has a number of the disk. -/
theorem Taken.entries (h : Taken s b t) (he : BlockEntries s) :
    BlockEntries t ∧ -1 ≤ b ∧ b < numBlocks := by
  rw [h.state]
  exact ⟨he.setUsed (by decide), by have := h.nonneg; omega, h.lt⟩

private theorem getBlock_entries (h : BlockEntries s) :
    Post (getBlock s) fun r => BlockEntries r.2 ∧ -1 ≤ r.1 ∧ r.1 < numBlocks :=
  (getBlock_outcome s).post.imp fun _ ht => ht.entries h

private theorem openSingle_entries (h : BlockEntries s) :
    Post (openSingle ino s) fun r => BlockEntries r.2 := by
  unfold openSingle
  split
  · exact (getBlock_entries h).bind fun r hr => Post.pure (hr.1.setBlocks hr.2)
  · exact Post.pure h

private theorem openDouble_entries (h : BlockEntries s) :
    Post (openDouble env ino s) fun r => BlockEntries r.2 := by
  unfold openDouble
  split
  · exact (getBlock_entries h).bind fun r hr => Post.pure ((hr.1.setBlocks hr.2).write _)
  · exact Post.pure h

private theorem openSub_entries (l : Nat) (buf : Block) (h : BlockEntries s) :
    Post (openSub ino l buf s) fun r => BlockEntries r.2.2 := by
  unfold openSub
  split
  · exact (getBlock_entries h).bind fun r hr => Post.pure (hr.1.write _)
  · exact Post.pure h

/-- **`set_block_index`** enters numbers of blocks only. -/
theorem setBlockIndex_entries (h : BlockEntries s) (hb : -1 ≤ b ∧ b < numBlocks) :
    Post (setBlockIndex env ino n b s) BlockEntries := by
  unfold setBlockIndex
  split_ifs
  · exact Post.pure (h.setBlocks hb)
  · exact (openSingle_entries h).bind fun r hr => Post.pure (hr.write _)
  · exact (openDouble_entries h).bind fun r hr =>
      (openSub_entries _ _ hr).bind fun r' hr' => Post.pure (hr'.write _)
  · exact Post.pure h

private theorem growDir_entries (buf : Nat → UInt8) (h : BlockEntries s) :
    Post (growDir env cwd i size buf s) BlockEntries := by
  unfold growDir
  split
  · exact (getBlock_entries h).bind fun r hr =>
      (setBlockIndex_entries hr.1 hr.2).bind fun t ht => Post.pure (ht.write _)
  · exact Post.pure h

private theorem storeText_entries (text : Path) (h : BlockEntries s) :
    BlockEntries (storeText cwd n text s) := by
  unfold storeText
  split
  · exact h
  · exact h.write _

private theorem shrinkDir_entries {resize : Int} (h : BlockEntries s) :
    Post (shrinkDir env cwd size resize n s) BlockEntries := by
  unfold shrinkDir
  split
  · exact setBlockIndex_entries (h.setUsed (by decide)) (by decide)
  · exact Post.pure h

private theorem writeBack_entries (start : Int) (buf : Nat → UInt8) (l j : Nat)
    (h : BlockEntries s) :
    BlockEntries (writeBack ino start buf l j s) := by
  induction l generalizing j s with
  | zero => exact h
  | succ l ih => exact ih (j + 1) (h.write _)

private theorem freeInode_entries (h : BlockEntries s) : BlockEntries (freeInode ino s) := by
  have hdrop := h.modStat ino fun st => { st with stNlink := toU64 (st.stNlink - 1) }
  refine ⟨fun i h₀ h₁ l hl₀ hl₁ => ?_, fun c h₀ h₁ => ?_, ?_⟩
  · by_cases hi : i = ino
    · subst i
      unfold freeInode
      dsimp only
      split
      · exact hdrop.entry ino h₀ h₁ l hl₀ hl₁
      · rw [FS.modInode_inodeTable_self]
        dsimp only
        split
        · decide
        · exact hdrop.entry ino h₀ h₁ l hl₀ hl₁
    · rw [(freeInode_names ino s).2.2 i hi]
      exact h.entry i h₀ h₁ l hl₀ hl₁
  · rcases (freeInode_freesOnly ino s).used c with heq | hfree
    · rw [heq]
      exact h.used c h₀ h₁
    · rw [hfree]
      decide
  · unfold freeInode
    dsimp only
    split <;> exact h.root

end Entries

section Tables

variable {s t u : FS} {env : Env} {ino cwd b n k i m fh size : Int} {st : Stat} {e : PathMap}

/-- The tables but for the block maps are as they were. -/
theorem Values.keeps (h : Values s) (hk : Keeps s t) (he : BlockEntries t) : Values t := by
  refine ⟨fun j h₀ h₁ => ?_, fun j h₀ h₁ => ?_, fun j h₀ h₁ => ?_, he⟩
  · rw [hk.avail, hk.stat]
    exact h.node j h₀ h₁
  · rw [hk.names]
    exact h.name j h₀ h₁
  · rw [hk.opens]
    exact h.file j h₀ h₁

/-- The new attributes fit their types. -/
theorem Values.modStat (h : Values s) {f : Stat → Stat}
    (hf : 0 ≤ ino → ino < maxNodes →
      StatOk (s.inodeTable ino).avail (f (s.inodeTable ino).stat)) :
    Values (s.modStat ino f) := by
  refine ⟨fun j h₀ h₁ => ?_, h.name, h.file, h.entries.modStat ino f⟩
  rw [FS.modStat_avail]
  by_cases hj : j = ino
  · subst j
    rw [FS.modStat_stat_self]
    exact hf h₀ h₁
  · rw [FS.modStat_inodeTable_ne _ _ _ hj]
    exact h.node j h₀ h₁

/-- The new name fits its type. -/
theorem Values.setName (h : Values s) (he : NameOk e) : Values (s.setName m e) := by
  refine ⟨h.node, fun j h₀ h₁ => ?_, h.file, h.entries.congr (fun _ => rfl) rfl ⟨rfl, rfl⟩⟩
  rw [FS.setName_nameTable]
  by_cases hj : j = m
  · rw [hj, Function.update_self]
    exact he
  · rw [Function.update_of_ne hj]
    exact h.name j h₀ h₁

/-- The new handle fits its type. -/
theorem Values.setOpen {o : FileEntry} (h : Values s) (ho : FileOk o) :
    Values (s.setOpen fh o) := by
  refine ⟨h.node, h.name, fun j h₀ h₁ => ?_, h.entries.congr (fun _ => rfl) rfl ⟨rfl, rfl⟩⟩
  rw [FS.setOpen_openFiles]
  by_cases hj : j = fh
  · rw [hj, Function.update_self]
    exact ho
  · rw [Function.update_of_ne hj]
    exact h.file j h₀ h₁

/-- `cwd_inode` is in no table. -/
theorem Values.setCwd (h : Values s) (j : Int) : Values { s with cwdInode := j } :=
  ⟨h.node, h.name, h.file, h.entries.congr (fun _ => rfl) rfl ⟨rfl, rfl⟩⟩

/-- A directory that can take one more link takes an entry. -/
theorem appendEntry_values (h : Values s) {entry : Path}
    (hlink : 0 ≤ cwd → cwd < maxNodes → (s.inodeTable cwd).stat.stNlink ≤ 130) :
    Post (appendEntry env cwd entry s) Values := by
  refine appendEntry_post ?_
  unfold putEntry
  dsimp only
  generalize getBlockIndex s.disk (s.inodeTable cwd) (textEnd s cwd).1 = target
  generalize appendBuffer env _ _ _ = buf
  intro t ht
  obtain ⟨u, hu, hret⟩ := bind_ok.mp ht
  cases hret
  have hkeeps := (keeps_write s target (Block.ofFn buf)).trans
    ((growDir_keeps env cwd _ _ buf _).post u hu)
  have hval := h.keeps hkeeps (growDir_entries buf (h.entries.write _) u hu)
  refine hval.modStat fun h₀ h₁ => ?_
  have hlink' := hlink h₀ h₁
  rw [← hkeeps.stat] at hlink'
  obtain ⟨hflag, hmode, hnlink, _, huid, hgid, _, hcount, hatime, hmtime, hctime⟩ :=
    hval.node cwd h₀ h₁
  have hnew : toU64 ((u.inodeTable cwd).stat.stNlink + 1) =
      (u.inodeTable cwd).stat.stNlink + 1 := toU64_of_range (by omega) (by omega)
  refine ⟨hflag, hmode, ?_, fun _ => ?_, huid, hgid, toInt64_range _, hcount, hatime, hmtime,
    hctime⟩ <;>
    · dsimp only
      rw [hnew]
      omega

/-- A directory that can lose a link loses an entry. -/
theorem removeEntry_values (h : Values s) {entry : Path}
    (hlink : 0 ≤ cwd → cwd < maxNodes → 2 ≤ (s.inodeTable cwd).stat.stNlink) :
    Post (removeEntry env cwd entry s) Values := by
  unfold removeEntry
  dsimp only
  split
  · exact Post.error _
  intro t ht
  obtain ⟨u, hu, hret⟩ := bind_ok.mp ht
  cases hret
  have hkeeps := (storeText_keeps cwd _ _ s).trans ((shrinkDir_keeps env cwd _ _ _ _).post u hu)
  have hval := h.keeps hkeeps (shrinkDir_entries (storeText_entries _ h.entries) u hu)
  refine hval.modStat fun h₀ h₁ => ?_
  have hlink' := hlink h₀ h₁
  rw [← hkeeps.stat] at hlink'
  obtain ⟨hflag, hmode, hnlink, _, huid, hgid, _, hcount, hatime, hmtime, hctime⟩ :=
    hval.node cwd h₀ h₁
  have hnew : toU64 ((u.inodeTable cwd).stat.stNlink - 1) =
      (u.inodeTable cwd).stat.stNlink - 1 := toU64_of_range (by omega) (by omega)
  refine ⟨hflag, hmode, ?_, fun _ => ?_, huid, hgid, toInt64_range _, hcount, hatime, hmtime,
    hctime⟩ <;>
    · dsimp only
      rw [hnew]
      omega

private theorem statOk_free : StatOk FREE Stat.zero := by
  constructor <;> decide

/-- An inode that has a link loses it. -/
theorem freeInode_values (h : Values s)
    (hlink : 0 ≤ ino → ino < maxNodes → 1 ≤ (s.inodeTable ino).stat.stNlink) :
    Values (freeInode ino s) := by
  obtain ⟨hnames, hopens, hnode⟩ := freeInode_names ino s
  refine ⟨fun j h₀ h₁ => ?_, fun j h₀ h₁ => ?_, fun j h₀ h₁ => ?_, freeInode_entries h.entries⟩
  · by_cases hj : j = ino
    · subst j
      have hlink' := hlink h₀ h₁
      obtain ⟨hflag, hmode, hnlink, _, huid, hgid, hsize, hcount, hatime, hmtime, hctime⟩ :=
        h.node ino h₀ h₁
      have hnew : toU64 ((s.inodeTable ino).stat.stNlink - 1) =
          (s.inodeTable ino).stat.stNlink - 1 := toU64_of_range (by omega) (by omega)
      unfold freeInode
      dsimp only
      rw [FS.modStat_stat_self]
      dsimp only
      rw [hnew]
      split
      · rename_i hleft
        rw [FS.modStat_avail, FS.modStat_stat_self]
        exact ⟨hflag, hmode, by dsimp only; omega, fun _ => by dsimp only; omega, huid, hgid,
          hsize, hcount, hatime, hmtime, hctime⟩
      · rw [FS.modInode_inodeTable_self]
        exact statOk_free
    · rw [hnode j hj]
      exact h.node j h₀ h₁
  · rw [hnames]
    exact h.name j h₀ h₁
  · rw [hopens]
    exact h.file j h₀ h₁

private theorem nameOk_free : NameOk ⟨FREE, -1, []⟩ :=
  ⟨Or.inl rfl, by decide, by decide, by simp⟩

private theorem fileOk_closed : FileOk ⟨0, -1, 0⟩ := ⟨by decide, by decide, rfl⟩

end Tables

section Write

variable {s t : FS} {env : Env} {ino i fh offset total r : Int} {size : Nat}
  {buf : Nat → UInt8}

/-- The growth loop counts its blocks, within the limit of a file. -/
theorem growLoop_values (n : Nat) (h : Values s)
    (hcount : 0 ≤ ino → ino < maxNodes → (s.inodeTable ino).stat.stBlocks + n ≤ 1110) :
    Post (growLoop env ino n i s) fun r => Values r.2 := by
  induction n generalizing i s with
  | zero => exact Post.pure h
  | succ n ih =>
      unfold growLoop
      refine (getBlock_outcome s).post.bind fun x hx => ?_
      obtain ⟨b, u⟩ := x
      have hu := h.keeps hx.keeps (hx.entries h.entries).1
      dsimp only
      split_ifs
      · exact Post.pure hu
      · exact Post.pure hu
      · intro x hx'
        obtain ⟨v, hset, hrest⟩ := bind_ok.mp hx'
        have hkeeps := (setBlockIndex_keeps env ino _ b u).post v hset
        have hv := hu.keeps hkeeps
          (setBlockIndex_entries hu.entries (hx.entries h.entries).2 v hset)
        have hstat := (hkeeps.stat ino).trans (hx.keeps.stat ino)
        refine ih (i := i + 1) (hv.modStat fun h₀ h₁ => ?_) (fun h₀ h₁ => ?_) x hrest
        · have hroom := hcount h₀ h₁
          obtain ⟨hflag, hmode, hnlink, hlinked, huid, hgid, hsize, hcount', hatime, hmtime,
            hctime⟩ := hv.node ino h₀ h₁
          refine ⟨hflag, hmode, hnlink, hlinked, huid, hgid, hsize, ?_, hatime, hmtime, hctime⟩
          dsimp only
          rw [hstat] at hcount' ⊢
          push_cast at hroom
          omega
        · have hroom := hcount h₀ h₁
          rw [FS.modStat_stat_self]
          dsimp only
          rw [hstat]
          push_cast at hroom
          omega

private theorem writeData_values (h : Values s) :
    Post (writeData ino buf size offset s) fun r => Values r.2 := by
  unfold writeData
  dsimp only
  split
  · exact Post.error _
  · generalize (rangeBlocks offset size).toNat = n
    generalize contBuffer _ _ buf size = data
    have hv := h.keeps (writeBack_keeps ino (toInt (offset.tdiv blockSize)) data n 0 s)
      (writeBack_entries _ data n 0 h.entries)
    refine Post.pure ?_
    dsimp only
    refine hv.modStat fun h₀ h₁ => ?_
    obtain ⟨hflag, hmode, hnlink, hlinked, huid, hgid, _, hcount, hatime, hmtime, hctime⟩ :=
      hv.node ino h₀ h₁
    exact ⟨hflag, hmode, hnlink, hlinked, huid, hgid, toInt64_range _, hcount, hatime, hmtime,
      hctime⟩

/-- **A write within the limit keeps the values.** -/
theorem sfsWrite_values {rule : SizeRule} (h : Values s) (hb : Blocks False rule s)
    (hfile : OnFile s fh) (hok : WriteOk rule s fh size offset) :
    Post (sfsWrite env fh buf size offset s) fun r => Values r.2 := by
  unfold sfsWrite
  dsimp only
  unfold OnFile at hfile
  unfold WriteOk at hok
  generalize (s.openFiles (handleIndex fh)).stIno = ino at hfile hok ⊢
  by_cases hfh : handleOutOfRange fh
  · rw [if_pos hfh]
    exact Post.ok h
  rw [if_neg hfh]
  by_cases hneg : ino < 0
  · rw [if_pos hneg]
    exact Post.ok h
  rw [if_neg hneg]
  by_cases hoff : offset > (s.inodeTable ino).stat.stSize
  · rw [if_pos hoff]
    exact Post.ok h
  rw [if_neg hoff]
  obtain ⟨hA, hF⟩ := hfile hfh (not_lt.mp hneg)
  obtain ⟨h₁, hfit, _⟩ := hok hfh (not_lt.mp hneg) (not_lt.mp hoff)
  obtain ⟨B, _, hcount, hrule⟩ := hb.files ino hA hF
  have hsize₁ := rule.lt hrule
  rw [hcount] at hfit
  have h₀ := hfit.1
  have htotal := hfit.total_le (by exact_mod_cast h₁)
  rw [toU64_of_range (show 0 ≤ offset + size by omega) (by omega)]
  have hgrow : Post (growFile env ino (offset + size) s) fun r => Values r.2 := by
    unfold growFile
    dsimp only
    split
    · rename_i hlarge
      refine growLoop_values _ h fun _ _ => ?_
      rw [blocksNeeded_toNat (by omega) hsize₁ (by omega) htotal hlarge, hcount]
      exact hfit.2.1
    · exact Post.pure h
  refine hgrow.bind fun x hx => ?_
  split_ifs
  · exact Post.pure hx
  · exact writeData_values hx

end Write

section Names

variable {s t u : FS} {env : Env} {path : Path} {mode : Nat} {i m k b r : Int} {c : Call}

/-- The attributes of a new inode. -/
theorem EnvTyped.statOk (h : EnvTyped env) (nlink size count : Int) (hmode : mode < 4294967296)
    (hlink : 1 ≤ nlink ∧ nlink ≤ 131)
    (hsize : -9223372036854775808 ≤ size ∧ size < 9223372036854775808)
    (hcount : 0 ≤ count ∧ count ≤ 1110) :
    StatOk ALLOCD (Stat.mk mode nlink env.uid env.gid size count env.atime env.mtime
      env.ctime) :=
  ⟨Or.inr rfl, hmode, ⟨by dsimp only; omega, hlink.2⟩, fun _ => hlink.1, h.uid, h.gid, hsize,
    hcount, h.atime, h.mtime, h.ctime⟩

private theorem fileOk_opened (hi : 0 ≤ i ∧ i < maxNodes) : FileOk ⟨1, i, 0⟩ := by
  simp only [maxNodes] at hi
  exact ⟨by simp, by dsimp only; omega, rfl⟩

private theorem getInode_values (h : Values s) (st : Stat) (hst : StatOk ALLOCD st) {v : FS}
    (hget : getInode s = (i, v)) (hfree : HasFreeInode s) :
    Values (v.modStat i fun _ => st) := by
  obtain ⟨j, hj, h₀, h₁, _⟩ := getInode_of_free hfree
  obtain ⟨rfl, rfl⟩ := Prod.mk.inj (hget.symm.trans hj)
  refine ⟨fun l hl₀ hl₁ => ?_, h.name, h.file, ⟨fun l hl₀ hl₁ n hn₀ hn₁ => ?_, h.entries.used,
    h.entries.root⟩⟩
  · by_cases hli : l = i
    · subst l
      rw [FS.modStat_stat_self, FS.modStat_avail, FS.modInode_inodeTable_self]
      exact hst
    · rw [FS.modStat_inodeTable_ne _ _ _ hli, FS.modInode_inodeTable_ne _ _ _ hli]
      exact h.node l hl₀ hl₁
  · rw [FS.modStat_blocks]
    by_cases hli : l = i
    · subst l
      rw [FS.modInode_inodeTable_self]
      dsimp only
      rw [if_pos ⟨hn₀, hn₁⟩]
      decide
    · rw [FS.modInode_inodeTable_ne _ _ _ hli]
      exact h.entries.entry l hl₀ hl₁ n hn₀ hn₁

private theorem enterName_values (h : Values s) (hi : 0 ≤ i ∧ i < maxNodes) (hpath : PathFits path)
    (hnul : 0 ∉ path) :
    Values (enterName m i path (s.setName m { s.nameTable m with avail := ALLOCD })) := by
  have hname : NameOk ⟨ALLOCD, i, path⟩ := by
    refine ⟨Or.inr rfl, ?_, hpath, hnul⟩
    simp only [maxNodes] at hi
    dsimp only
    omega
  have hnames : (enterName m i path
      (s.setName m { s.nameTable m with avail := ALLOCD })).nameTable =
      Function.update s.nameTable m ⟨ALLOCD, i, path⟩ := by simp [enterName]
  refine ⟨h.node, fun j h₀ h₁ => ?_, h.file, h.entries.congr (fun _ => rfl) rfl ⟨rfl, rfl⟩⟩
  rw [hnames]
  by_cases hj : j = m
  · rw [hj, Function.update_self]
    exact hname
  · rw [Function.update_of_ne hj]
    exact h.name j h₀ h₁

/-- A directory with a parent's entry can take one more link. -/
theorem Entered.nlink_le {v : FS} (he : Entered s v m i k path) (hp : Prepared s u i)
    (ht : Tree s) : (v.inodeTable (inoOf s k)).stat.stNlink ≤ 130 := by
  have hA := ht.dir_allocated he.parent.1
  have hki : inoOf s k ≠ i := by
    intro heq
    rw [heq] at hA
    exact not_mem_allocated hp.free hA
  rw [he.stat_ne _ hki]
  exact (ht.nlink_bounds he.parent.1 he.parent.2.1).2

/-- **`sfs_create` keeps the values.** -/
theorem sfsCreate_values {fi : Int} (h : Values s) (ht : Tree s) (henv : EnvTyped env)
    (hfuse : FuseOk s (.create path mode)) (htyped : CallTyped (.create path mode)) :
    Post (sfsCreate env path mode fi s) fun r => Values r.2.2 := by
  obtain ⟨hfits, hreg, ⟨k, hk⟩, hfree⟩ := hfuse
  have hst := henv.statOk 1 0 0 htyped.2 (by decide) (by decide)
    (by decide)
  unfold sfsCreate
  by_cases hl : pathLookup s path > 0
  · rw [if_pos hl]
    exact Post.ok h
  rw [if_neg hl]
  generalize hget : getInode s = x
  obtain ⟨i, v⟩ := x
  obtain ⟨hp, hn, _⟩ := newFile_setup (handleIndex (toU64 (getFh s)))
    (Stat.mk mode 1 env.uid env.gid 0 0 env.atime env.mtime env.ctime) hget hfree hreg
    rfl rfl rfl
  have hu : Values ((v.setOpen (handleIndex (toU64 (getFh s))) ⟨1, i, 0⟩).modStat i fun _ =>
      Stat.mk mode 1 env.uid env.gid 0 0 env.atime env.mtime env.ctime) :=
    (getInode_values h _ hst hget hfree).setOpen (fileOk_opened hp.range)
  dsimp only at hp hn ⊢
  generalize (v.setOpen _ _).modStat i _ = u at hp hn hu ⊢
  rcases getMapping_cases u with ⟨m, hm, hm₀, hm₁, hmfree⟩ | hm
  · rw [hm]
    dsimp only
    rw [if_neg (not_lt.mpr hm₀), if_neg (not_not.mpr hfits)]
    have he := ht.entered hp hk (ht.fresh_of_lookup ⟨k, hk⟩ hl) hm₀ hm₁ hmfree
    have hv := enterName_values (m := m) hu hp.range hfits htyped.1
    have hlink := he.nlink_le hp ht
    rw [← he.cwd] at hlink
    exact (appendEntry_values hv fun _ _ => hlink).bind fun t ht' => Post.pure ht'
  · rw [hm]
    dsimp only
    rw [if_pos (by decide)]
    exact Post.ok ((freeInode_values hu fun _ _ => by rw [hn.nlink]).setOpen fileOk_closed)

/-- **`sfs_mkdir` keeps the values.** -/
theorem sfsMkdir_values (h : Values s) (ht : Tree s) (henv : EnvTyped env)
    (hfuse : FuseOk s (.mkdir path mode)) (htyped : CallTyped (.mkdir path mode)) :
    Post (sfsMkdir env path mode s) fun r => Values r.2 := by
  obtain ⟨hfits, ⟨k, hk⟩, hfree⟩ := hfuse
  have hmode : mode ||| S_IFDIR < 4294967296 :=
    Nat.or_lt_two_pow (n := 32) htyped.2 (by decide)
  have hst := henv.statOk 2 512 1 hmode (by decide) (by decide)
    (by decide)
  unfold sfsMkdir
  by_cases hl : pathLookup s path > 0
  · rw [if_pos hl]
    exact Post.ok h
  rw [if_neg hl]
  generalize hget : getInode s = x
  obtain ⟨i, v⟩ := x
  have hv := getInode_values h _ hst hget hfree
  dsimp only
  refine (getBlock_outcome _).post.bind fun y hy => ?_
  obtain ⟨b, w⟩ := y
  dsimp only at hy ⊢
  obtain ⟨hp, hn⟩ := newDir_setup hget hfree rfl rfl rfl hy
  have hentries := hy.entries hv.entries
  have hu := hv.keeps (hy.keeps.trans (keeps_setBlocks w i 0 b))
    (hentries.1.setBlocks hentries.2)
  generalize w.setBlocks i 0 b = u at hp hn hu ⊢
  rcases getMapping_cases u with ⟨m, hm, hm₀, hm₁, hmfree⟩ | hm
  · rw [hm]
    dsimp only
    rw [if_neg (not_lt.mpr hm₀), if_neg (not_not.mpr hfits)]
    have he := ht.entered hp hk (ht.fresh_of_lookup ⟨k, hk⟩ hl) hm₀ hm₁ hmfree
    have hname := enterName_values (m := m) hu hp.range hfits htyped.1
    have hlink := he.nlink_le hp ht
    rw [← he.cwd] at hlink
    refine (appendEntry_values (hname.keeps (keeps_write _ _ _) (hname.entries.write _))
      fun _ _ => hlink).bind fun t ht' => Post.pure ht'
  · rw [hm]
    dsimp only
    rw [if_pos (by decide)]
    exact Post.ok (freeInode_values hu fun _ _ => by rw [hn.nlink]; decide)

/-- Deleting an entry, and giving up the inode and the name. -/
theorem erase_values (h : Values s) (ht : Tree s) (hm : Entry s m) (hk : Entry s k)
    (hkd : IsDir s k) (hremove : removeEntry env (inoOf s k) (dirEntry (getName path) (inoOf s m))
      { s with cwdInode := inoOf s k } = .ok u) :
    Values (freeMapping m (freeInode (inoOf s m) u)) := by
  have hu := removeEntry_values (h.setCwd (inoOf s k))
    (fun _ _ => (ht.nlink_bounds hk hkd).1) u hremove
  have hrel := removeEntry_relinks env (inoOf s k) _ _ u hremove
  refine (freeInode_values hu fun h₀ h₁ => (hu.node _ h₀ h₁).linked ?_).setName nameOk_free
  rw [hrel.avail]
  exact ht.ino_avail m hm

/-- **Every call keeps the values.** -/
theorem exec_values (h : Values s) (hs : Inside s) (henv : EnvTyped env) (htyped : CallTyped c)
    (hok : InsideOk s c) (hexec : exec env c s = .ok (r, t)) : Values t := by
  obtain ⟨⟨hfuse, hno, hblocks⟩, _⟩ := hok
  cases c with
  | create path mode =>
      obtain ⟨x, hcreate, hret⟩ := bind_ok.mp hexec
      cases hret
      exact sfsCreate_values h hs.tree henv hfuse htyped x hcreate
  | mkdir path mode => exact sfsMkdir_values h hs.tree henv hfuse htyped _ hexec
  | openFile path =>
      rw [← exec_open hexec]
      unfold sfsOpen
      dsimp only
      by_cases hl : pathLookup s path < 0
      · rw [if_pos hl]
        exact h
      rw [if_neg hl]
      obtain ⟨hentry, _⟩ := hs.tree.lookup_entry hno (not_lt.mp hl)
      have hino := hs.tree.ino_range _ hentry
      split_ifs
      · exact h
      · exact h
      · exact h.setOpen (fileOk_opened hino)
  | write fh buf size offset =>
      exact sfsWrite_values h hs.blocks (hs.handles.onFile fh) hblocks _ hexec
  | read fh size offset =>
      obtain ⟨_, _, hret⟩ := bind_ok.mp hexec
      cases hret
      exact h
  | release fh =>
      cases hexec
      exact h.setOpen fileOk_closed
  | unlink path =>
      obtain ⟨m, k, u, hm, _, _, ⟨hk, hkd, _⟩, _, hremove, hru⟩ :=
        sfsUnlink_cases hs.tree hfuse _ hexec
      cases hru
      exact erase_values h hs.tree hm hk hkd hremove
  | rmdir path =>
      obtain ⟨m, k, hm, _, _, ⟨hk, hkd, _⟩, ⟨_, _, hru⟩ | ⟨u, _, _, hremove, hru⟩⟩ :=
        sfsRmdir_cases hs.tree hfuse _ hexec
      · cases hru
        exact h.setCwd _
      · cases hru
        exact erase_values h hs.tree hm hk hkd hremove

end Names

section Mount

variable {s s₀ : FS} {env : Env}

/-- What a first mount takes from the process, and the fields that are zero. -/
theorem sfsInitFresh_fields (h : sfsInitFresh env s₀ = .ok s) :
    (s.inodeTable 0).stat = Stat.mk 0o040777 2 env.uid env.gid 9 1 env.atime env.mtime env.ctime ∧
    (∀ fh, 0 ≤ fh → fh < maxLink → s.openFiles fh = ⟨0, -1, 0⟩) ∧
    s.rootInode = 0 ∧ s.rootBlock = 0 := by
  unfold sfsInitFresh at h
  rw [getInode_first (u := clearTables s₀) (by simp [clearTables])] at h
  dsimp only at h
  rw [getMapping_first (by simp [closeAll, clearTables])] at h
  dsimp only at h
  rw [getBlock_first (by simp [closeAll, clearTables])] at h
  cases h
  exact ⟨by simp [closeAll], fun fh h₀ h₁ => by simp [closeAll, clearTables, h₀, h₁], rfl, rfl⟩

/-- **A first mount holds values.** -/
theorem sfsInitFresh_values (henv : EnvTyped env) (h : sfsInitFresh env s₀ = .ok s) :
    Values s := by
  obtain ⟨hstat, hopens, hroot, hblock⟩ := sfsInitFresh_fields h
  have hs := sfsInitFresh_spec h
  refine ⟨fun i h₀ h₁ => ?_, fun m h₀ h₁ => ?_, fun fh h₀ h₁ => ?_,
    ⟨fun i h₀ h₁ k hk₀ hk₁ => ?_, fun b h₀ h₁ => ?_, ?_⟩⟩
  · by_cases hi : i = 0
    · rw [hi, hs.root_avail, hstat]
      exact henv.statOk 2 9 1 (by decide) (by decide) (by decide) (by decide)
    · rw [hs.inodes i (by omega) h₁]
      exact statOk_free
  · by_cases hm : m = 0
    · rw [hm, hs.root_name]
      exact ⟨Or.inr rfl, by decide, by decide, by decide⟩
    · rw [hs.names m (by omega) h₁]
      exact ⟨Or.inl rfl, by decide, by decide, by decide⟩
  · rw [hopens fh h₀ h₁]
    exact fileOk_closed
  · by_cases hi : i = 0
    · rw [hi, hs.root_blocks k hk₀ hk₁]
      split <;> decide
    · rw [hs.inodes i (by omega) h₁]
      dsimp only
      decide
  · rw [hs.used b h₀ h₁]
    split <;> decide
  · rw [hroot, hblock]
    decide

end Mount

/-- The states of the runs that stay within the tables, called by a process whose identity,
clock and arguments fit their types. -/
def TypedRun : FS → Prop :=
  Reach (fun s => ∃ env s₀, EnvTyped env ∧ sfsInitFresh env s₀ = .ok s)
    fun s (l : Env × Call) t => EnvTyped l.1 ∧ CallTyped l.2 ∧ ∃ r, Answers s l r t

section Runs

variable {s : FS}

/-- Such a run leaves room. -/
theorem TypedRun.roomy (h : TypedRun s) : RoomyRun InsideOk s := by
  induction h with
  | start hinit =>
      obtain ⟨env, s₀, _, hs⟩ := hinit
      exact Reach.start ⟨env, s₀, hs⟩
  | @next s t l _ hstep ih =>
      obtain ⟨_, _, r, hok, hexec, hroom⟩ := hstep
      exact ih.next (c := l.2) ⟨hok, ⟨l.1, r, hexec⟩, hroom⟩

/-- What holds along such a run. -/
theorem TypedRun.inside (h : TypedRun s) : Inside s := h.roomy.inside

/-- **The tables of every run hold values.** -/
theorem TypedRun.values (h : TypedRun s) : Values s := by
  refine h.invariant (I := Values) (fun s hs => ?_) fun s l t hreach hs hstep => ?_
  · obtain ⟨env, s₀, henv, hinit⟩ := hs
    exact sfsInitFresh_values henv hinit
  · obtain ⟨henv, htyped, r, hok, hexec, _⟩ := hstep
    exact exec_values hs (TypedRun.inside hreach) henv htyped hok hexec

/-- The environment of the runs on fixed inputs fits its types. -/
theorem envTyped_zeroEnv : EnvTyped zeroEnv :=
  ⟨by decide, by decide, by decide, by decide, by decide⟩

/-- A first mount is such a run. -/
theorem typedRun_firstMount : TypedRun firstMount :=
  Reach.start ⟨zeroEnv, zeroMemory, envTyped_zeroEnv, sfsInitFresh_firstMount⟩

/-- The path of a one-letter file fits its type. -/
theorem callTyped_create {c : UInt8} (hc : (0 : UInt8) ∉ rootPath c) :
    CallTyped (.create (rootPath c) 0o100644) := ⟨hc, by decide⟩

/-- So is the creation of `/a`, -/
theorem typedRun_mountWithA : TypedRun mountWithA := by
  obtain ⟨r, hcreate⟩ := answers_createA
  exact typedRun_firstMount.next (c := (zeroEnv, .create (rootPath letterA) 0o100644))
    ⟨envTyped_zeroEnv, callTyped_create (by decide), r, hcreate⟩

/-- the write of one byte to it, -/
theorem typedRun_mountWithByte : TypedRun mountWithByte := by
  obtain ⟨r, hwrite⟩ := answers_writeA
  exact typedRun_mountWithA.next (c := (zeroEnv, .write 0 (fun _ => 120) 1 0))
    ⟨envTyped_zeroEnv, trivial, r, hwrite⟩

/-- `/b` is there too. -/
def mountWithTwo : FS := after zeroEnv (.create (rootPath letterB) 0o100644) mountWithByte

/-- and the creation of a second file with its bytes. -/
theorem typedRun_mountWithTwo : TypedRun mountWithTwo := by
  have hok : InsideOk mountWithByte (.create (rootPath letterB) 0o100644) :=
    ⟨⟨(fuseOk_root _ letterB (by decide +kernel)).1, trivial, fun _ _ =>
      fits_root typedRun_mountWithByte.inside.tree (by decide) (by decide +kernel)
        (by decide +kernel) (by decide +kernel)⟩, trivial⟩
  obtain ⟨r, hcreate⟩ := exec_after zeroEnv (.create (rootPath letterB) 0o100644) mountWithByte
    (by decide +kernel)
  have hroom : HasRoom mountWithTwo :=
    hasRoom_at (by decide : (0 : Int) ≤ 5) (by decide +kernel) (by decide +kernel)
  exact typedRun_mountWithByte.next (c := (zeroEnv, .create (rootPath letterB) 0o100644))
    ⟨envTyped_zeroEnv, callTyped_create (by decide), r, hok, hcreate, hroom⟩

/-- Values fit the types of their fields. -/
theorem Values.typed (h : Values s) : Typed s where
  node i h₀ h₁ :=
    { avail := by rcases (h.node i h₀ h₁).cases with ha | ha <;> rw [ha] <;> decide
      mode := (h.node i h₀ h₁).mode
      nlink := by have := (h.node i h₀ h₁).nlink; omega
      uid := (h.node i h₀ h₁).uid
      gid := (h.node i h₀ h₁).gid
      size := (h.node i h₀ h₁).size
      count := by have := (h.node i h₀ h₁).count; omega
      atime := (h.node i h₀ h₁).atime
      mtime := (h.node i h₀ h₁).mtime
      ctime := (h.node i h₀ h₁).ctime
      blocks := fun k hk₀ hk₁ => by
        have hentry := h.entries.entry i h₀ h₁ k hk₀ hk₁
        simp only [numBlocks] at hentry
        omega }
  name m h₀ h₁ :=
    { avail := by rcases (h.name m h₀ h₁).avail with ha | ha <;> rw [ha] <;> decide
      ino := (h.name m h₀ h₁).ino
      path := ⟨(h.name m h₀ h₁).path.1.1, (h.name m h₀ h₁).path.2⟩ }
  file fh h₀ h₁ :=
    { refcnt := by have := (h.file fh h₀ h₁).refcnt; omega
      ino := (h.file fh h₀ h₁).ino
      pos := by rw [(h.file fh h₀ h₁).pos]; decide }
  used b h₀ h₁ := by have := h.entries.used b h₀ h₁; omega
  root := h.entries.root

end Runs

end Sfs
