import CS416.Sfs.Ownership

/-!
# Block ownership and the calls

The block invariant holds after a first mount, and each call keeps it under a
condition that `BlockOk` states for the state the call is made in.
-/

namespace Sfs

open CInt Outcome

/-- A write through the handle `fh` stays within the block map of its file, and
leaves the file as `rule` wants it. -/
def WriteOk (rule : SizeRule) (s : FS) (fh : Int) (size : Nat) (offset : Int) : Prop :=
  let st := (s.inodeTable (s.openFiles (handleIndex fh)).stIno).stat
  ¬ handleOutOfRange fh → 0 ≤ (s.openFiles (handleIndex fh)).stIno → offset ≤ st.stSize →
    1 ≤ size ∧ WriteFits st.stBlocks st.stSize offset size ∧
      rule.holds (st.stBlocks.toNat + addedBlocks (offset + size) st.stSize)
        (toInt64 (st.stSize + size))

/-- If the parent of `path` is the root, the size of the root is not 0 as an `int`. -/
def RootSized (s : FS) (path : Path) : Prop :=
  ∀ k, Entry s k → IsParent (pathOf s k) path → inoOf s k = 0 →
    toInt (s.inodeTable 0).stat.stSize ≠ 0

/-- The condition under which a call keeps the block invariant. -/
def BlockOk (strict : Prop) (rule : SizeRule) (s : FS) : Call → Prop
  | .create path _ | .mkdir path _ =>
      pathLookup s path < 0 → 0 ≤ (getMapping s).1 →
        ∀ k, Entry s k → IsParent (pathOf s k) path →
          DirFits strict s (inoOf s k) ((newEntry s path).length + 1)
  | .write fh _ size offset => WriteOk rule s fh size offset
  | .unlink path | .rmdir path => strict → RootSized s path
  | _ => True

/-- The handle `fh` is open on an inode in use that is a file, if on any. -/
def OnFile (s : FS) (fh : Int) : Prop :=
  ¬ handleOutOfRange fh → 0 ≤ (s.openFiles (handleIndex fh)).stIno →
    (s.openFiles (handleIndex fh)).stIno ∈ allocated s ∧
      IsFile s (s.openFiles (handleIndex fh)).stIno

/-- The root directory is inode 0, and its first block is block 0. -/
def RootBlock (s : FS) : Prop := inoOf s 0 = 0 ∧ refs s (0, dataSlot 0) = 0

section Fresh

variable {strict : Prop} {rule : SizeRule} {s : FS}

/-- At first the root's inode is the only one in use. -/
theorem FreshState.allocated_eq (h : FreshState s) : allocated s = {0} := by
  ext j
  constructor
  · rintro ⟨h₀, h₁, ha⟩
    by_contra hj
    rw [h.inodes j (by
      have : j ≠ 0 := hj
      omega) h₁] at ha
    exact absurd ha (by decide)
  · rintro rfl
    exact ⟨le_refl 0, by decide, h.root_avail⟩

private theorem FreshState.refs_root (h : FreshState s) (sl : Slot) :
    refs s (0, sl) = if sl = dataSlot 0 then 0 else -1 := by
  have h₁₀ := h.root_blocks 10 (by decide) (by decide)
  have h₁₁ := h.root_blocks 11 (by decide) (by decide)
  rw [if_neg (by decide)] at h₁₀ h₁₁
  cases sl with
  | direct l =>
      have hl := h.root_blocks (l : Nat) (by omega) (by omega)
      rw [refs, slotRef, hl]
      refine if_congr ?_ rfl rfl
      rw [show dataSlot 0 = .direct 0 from rfl, Slot.direct.injEq, Fin.ext_iff]
      simp
  | single => simp [refs, slotRef, h₁₀, dataSlot]
  | double => simp [refs, slotRef, h₁₁, dataSlot]
  | sdata k => simp [refs, slotRef, h₁₀, entry, dataSlot]
  | sub k => simp [refs, slotRef, h₁₁, entry, dataSlot]
  | ddata k l => simp [refs, slotRef, h₁₁, entry, dataSlot]

/-- At first the root has block 0. -/
theorem FreshState.rootBlock (h : FreshState s) : RootBlock s :=
  ⟨by rw [inoOf, h.root_name], by rw [h.refs_root, if_pos rfl]⟩

/-- The invariant holds at first. -/
theorem FreshState.blocks (h : FreshState s) : Blocks strict rule s := by
  have hslot : ∀ x ∈ slots (allocated s), 0 ≤ refs s x →
      x = (0, dataSlot 0) ∧ refs s x = 0 := by
    rintro ⟨j, sl⟩ hj h₀
    rw [slots, h.allocated_eq] at hj
    obtain rfl : j = 0 := hj
    rw [h.refs_root] at h₀ ⊢
    split_ifs at h₀ ⊢ with hsl
    · exact ⟨by rw [hsl], rfl⟩
    · omega
  have hroot : (0, dataSlot 0) ∈ slots (allocated s) := by
    rw [slots, h.allocated_eq]
    rfl
  refine ⟨⟨?_, ?_, ?_, ?_, fun b hb => hb.1, ?_⟩, fun i hi hfile => ?_⟩
  · intro x hx y hy h₀ hxy
    rw [(hslot x hx h₀).1, (hslot y hy (hxy ▸ h₀)).1]
  · intro x hx h₀
    rw [(hslot x hx h₀).2]
    exact ⟨le_refl 0, by decide, h.used 0 (le_refl 0) (by decide)⟩
  · exact fun b hb => absurd hb (Set.notMem_empty b)
  · exact fun b hb => absurd hb (Set.notMem_empty b)
  · rintro _ b ⟨h₀, h₁, hb⟩
    have hb₀ : b = 0 := by
      by_contra hne
      rw [h.used b h₀ h₁, if_neg hne] at hb
      exact absurd hb (by decide)
    exact Or.inr ⟨_, hroot, by rw [h.rootBlock.2, hb₀]⟩
  · rw [h.allocated_eq] at hi
    obtain rfl : i = 0 := hi
    rw [IsFile, h.root_mode] at hfile
    exact absurd hfile (by decide)

end Fresh

section Steps

variable {strict : Prop} {rule : SizeRule} {s t u v : FS} {env : Env} {path : Path}
  {mode : Nat} {fi : Int}

private theorem dataSlot_succ_ne (n : Nat) : dataSlot (n + 1) ≠ dataSlot 0 := by
  intro heq
  by_cases hn : n + 1 < 1110
  · exact absurd (dataSlot_inj hn (by decide) heq) (by omega)
  · rw [dataSlot, if_neg (by omega), if_neg (by omega)] at heq
    cases heq

/-- The inode of an entry is in use. -/
theorem Tree.dir_allocated (h : Tree s) {k : Int} (hk : Entry s k) :
    inoOf s k ∈ allocated s :=
  ⟨(h.ino_range k hk).1, (h.ino_range k hk).2, h.ino_avail k hk⟩

/-- A directory is no file. -/
theorem not_isFile_of_isDir {k : Int} (h : IsDir s k) : ¬ IsFile s (inoOf s k) := fun hf => by
  rw [IsDir] at h
  rw [IsFile, h] at hf
  cases hf

/-- A directory whose size is not 0 is read. -/
theorem dirBlocks_ne_zero {size : Int} (h : size ≠ 0) : dirBlocks size ≠ 0 := by
  have hsum : size.tdiv blockSize + size.tmod blockSize ≠ 0 := by
    simp only [blockSize]
    intro hsum
    rcases lt_or_gt_of_ne h with hneg | hpos
    · obtain ⟨n, rfl⟩ : ∃ n, size = -n := ⟨-size, by omega⟩
      rw [Int.neg_tdiv, Int.neg_tmod, Int.tdiv_eq_ediv_of_nonneg (by omega),
        Int.tmod_eq_emod_of_nonneg (by omega)] at hsum
      omega
    · rw [Int.tdiv_eq_ediv_of_nonneg (by omega), Int.tmod_eq_emod_of_nonneg (by omega)] at hsum
      omega
  rw [dirBlocks, if_pos hsum]
  decide

/-- A block is written after the name has been entered. -/
theorem Entered.write {m i k : Int} (he : Entered s v m i k path) (b : Int) (blk : Block) :
    Entered s (v.write b blk) m i k path :=
  ⟨he.slot, he.node, he.parent, he.fresh, he.names, he.cwd, he.avail, he.avail_ne, he.stat_ne,
    he.nlink_dir⟩

/-- The directory that takes the name gets its entry. -/
theorem Blocks.enter {m i k : Int} (hv : Blocks strict rule v) (hp : Prepared s u i)
    (he : Entered s v m i k path) (ht : Tree s)
    (hrefs : ∀ x, x.1 ∈ allocated s → refs v x = refs s x)
    (hblocks : ∀ j, j ≠ i → (v.inodeTable j).blocks = (s.inodeTable j).blocks)
    (hdisk : SameDisk s v) (h : Blocks strict rule s)
    (hfit : DirFits strict s (inoOf s k) ((dirEntry (getName path) i).length + 1)) :
    Post (appendEntry env (inoOf s k) (dirEntry (getName path) i) v) fun t =>
      Blocks strict rule t ∧
        ∀ j ∈ allocated s, refs t (j, dataSlot 0) = refs s (j, dataSlot 0) := by
  obtain ⟨hk, hkd, _⟩ := he.parent
  have hA := ht.dir_allocated hk
  have hold : ∀ j ∈ allocated s, j ≠ i := by
    rintro j hj rfl
    exact not_mem_allocated hp.free hj
  have hki := hold _ hA
  have hmem : ∀ j ∈ allocated s, j ∈ allocated v := fun j hj =>
    ⟨hj.1, hj.2.1, by rw [he.avail_ne j (hold j hj)]; exact hj.2.2⟩
  have hdir : ¬ IsFile v (inoOf s k) := by
    rw [IsFile, he.stat_ne _ hki]
    exact not_isFile_of_isDir hkd
  have hfit' := (hfit.congr (hblocks _ hki) (by rw [he.stat_ne _ hki]) fun p =>
    hdisk.ref h.books (x := (inoOf s k, p)) hA).2
  refine (hv.append env (hmem _ hA) hdir hfit').post.imp ?_
  rintro t ⟨ht', hext⟩
  refine ⟨ht', fun j hj => ?_⟩
  by_cases hjk : j = inoOf s k
  · rw [hjk, hext.own _ (isIndex_dataSlot 0) (dataSlot_succ_ne _).symm, hrefs _ hA]
  · rw [hext.refs_ne _ (hmem j hj) hjk, hrefs _ hj]

/-- **`sfs_create` keeps the block invariant.** -/
theorem sfsCreate_blocks (h : Blocks strict rule s) (ht : Tree s)
    (hfuse : FuseOk s (.create path mode)) (hok : BlockOk strict rule s (.create path mode)) :
    Post (sfsCreate env path mode fi s) fun r => Blocks strict rule r.2.2 ∧
      ∀ j ∈ allocated s, refs r.2.2 (j, dataSlot 0) = refs s (j, dataSlot 0) := by
  intro r hr
  have hold : ∀ i, (s.inodeTable i).avail = FREE → ∀ j ∈ allocated s, j ≠ i := by
    rintro i hi j hj rfl
    exact not_mem_allocated hi hj
  rcases sfsCreate_cases ht hfuse r hr with ⟨_, hrs⟩ | ⟨u, i, fh, hp, hn, _, hrs⟩ |
    ⟨u, m, i, k, fh, hp, hn, he, hm, hi, _, happ⟩
  · rw [hrs]
    exact ⟨h, fun _ _ => rfl⟩
  · obtain ⟨hu, hrefs, hneg⟩ := h.newFile hp hn
    rw [hrs]
    refine ⟨(hu.dropInode ⟨hp.range.1, hp.range.2, hp.avail⟩ fun _ _ =>
      ⟨not_isDir_of_isReg hn.mode, fun sl => ne_of_lt (by have := hneg sl; omega)⟩).same rfl rfl
      rfl, fun j hj => ?_⟩
    have hji := hold i hp.free j hj
    exact ((freeInode_frame i u).2 (j, dataSlot 0) hji).trans (hrefs _ hji)
  · obtain ⟨hu, hrefs, _⟩ := h.newFile hp hn
    have hv := hu.same (t := enterName m i path
      (u.setName m { u.nameTable m with avail := ALLOCD })) rfl rfl rfl
    have hfit := hok (pathLookup_new hfuse.2.2.1 he.fresh ht) (hm ▸ he.slot.1) k he.parent.1
      he.parent.2.2
    rw [newEntry, ← hi] at hfit
    exact hv.enter hp he ht (fun x hx => hrefs x (hold i hp.free _ hx)) hn.blocks_ne
      (.of_eq hn.disk) h hfit _ happ

/-- **`sfs_mkdir` keeps the block invariant.** -/
theorem sfsMkdir_blocks (h : Blocks strict rule s) (ht : Tree s)
    (hfuse : FuseOk s (.mkdir path mode)) (hok : BlockOk strict rule s (.mkdir path mode)) :
    Post (sfsMkdir env path mode s) fun r => Blocks strict rule r.2 ∧
      ∀ j ∈ allocated s, refs r.2 (j, dataSlot 0) = refs s (j, dataSlot 0) := by
  intro r hr
  have hold : ∀ i, (s.inodeTable i).avail = FREE → ∀ j ∈ allocated s, j ≠ i := by
    rintro i hi j hj rfl
    exact not_mem_allocated hi hj
  rcases sfsMkdir_cases ht hfuse r hr with ⟨_, hrs⟩ | ⟨u, i, b, hp, hn, _, hrs⟩ |
    ⟨u, m, i, k, b, hp, hn, he, hm, hi, _, happ⟩
  · rw [hrs]
    exact ⟨h, fun _ _ => rfl⟩
  · obtain ⟨hu, hrefs, _⟩ := h.newDir hp hn
    rw [hrs]
    refine ⟨hu.dropInode ⟨hp.range.1, hp.range.2, hp.avail⟩ fun _ hlink => ?_, fun j hj => ?_⟩
    · rw [hn.nlink] at hlink
      exact absurd (by decide) hlink
    · have hji := hold i hp.free j hj
      exact ((freeInode_frame i u).2 (j, dataSlot 0) hji).trans (hrefs _ hji)
  · obtain ⟨hu, hrefs, hfirst⟩ := h.newDir hp hn
    generalize hw : enterName m i path
      (u.setName m { u.nameTable m with avail := ALLOCD }) = w at he happ
    have hwnode : w.inodeTable = u.inodeTable := by rw [← hw]; rfl
    have hwdisk : w.disk = u.disk := by rw [← hw]; rfl
    have hwused : w.diskBlocks = u.diskBlocks := by rw [← hw]; rfl
    have hwB := hu.same hwnode hwused hwdisk
    have hwrefs : ∀ x, refs w x = refs u x := fun x => by rw [refs, refs, hwnode, hwdisk]
    have hiw : i ∈ allocated w := ⟨hp.range.1, hp.range.2, he.avail⟩
    -- the header goes to the first block of the new directory
    have hb : refs w (i, dataSlot 0) = b := by rw [hwrefs, hfirst]
    have hv := hwB.writeData hiw (isIndex_dataSlot 0) (textBlock (dirHeader i (inoOf s k)))
    have hvrefs := (hwB.books.write_data hiw (isIndex_dataSlot 0)
      (textBlock (dirHeader i (inoOf s k)))).2
    rw [hb] at hv hvrefs
    have hfit := hok (pathLookup_new hfuse.2.1 he.fresh ht) (hm ▸ he.slot.1) k he.parent.1
      he.parent.2.2
    rw [newEntry, ← hi] at hfit
    refine hv.enter hp (he.write b _) ht (fun x hx => ?_) (fun j hj => ?_)
      ((SameDisk.of_eq (hwdisk.trans hn.disk)).write hn.block.1 hn.block.2.2 _) h hfit _ happ
    · have hxi := hold i hp.free _ hx
      have hxw : x.1 ∈ allocated w :=
        ⟨hx.1, hx.2.1, by rw [he.avail_ne _ hxi]; exact hx.2.2⟩
      rw [hvrefs x hxw, hwrefs, hrefs x hxi]
    · rw [FS.write_inodeTable, hwnode, hn.blocks_ne j hj]

/-- Deleting an entry, and giving up the inode behind it. -/
theorem Blocks.erase {m k : Int} (h : Blocks strict rule s) (ht : Tree s) (hm : Entry s m)
    (hk : Entry s k) (hkd : IsDir s k) (hne : inoOf s m ≠ inoOf s k)
    (hkind : IsReg s m ∨ (s.inodeTable (inoOf s m)).stat.stNlink = 2)
    (hroot : strict → RootBlock s ∧ inoOf s m ≠ 0 ∧
      (inoOf s k = 0 → toInt (s.inodeTable (inoOf s k)).stat.stSize ≠ 0)) :
    Post (removeEntry env (inoOf s k) (dirEntry (getName path) (inoOf s m))
        { s with cwdInode := inoOf s k }) fun u =>
      Blocks strict rule (freeMapping m (freeInode (inoOf s m) u)) ∧
        ∀ j ∈ allocated s, j ≠ inoOf s m →
          (j = inoOf s k → toInt (s.inodeTable (inoOf s k)).stat.stSize ≠ 0) →
          refs (freeMapping m (freeInode (inoOf s m) u)) (j, dataSlot 0) =
            refs s (j, dataSlot 0) := by
  intro u hu
  have hA := ht.dir_allocated hk
  have hs : Blocks strict rule { s with cwdInode := inoOf s k } := h.same rfl rfl rfl
  obtain ⟨hu', hred⟩ := hs.remove env hA (not_isFile_of_isDir hkd) u hu
  have hrel := removeEntry_relinks env (inoOf s k) _ _ u hu
  -- the first block stays with every inode, unless the directory has size 0
  have hfirst : ∀ j ∈ allocated s,
      (j = inoOf s k → toInt (s.inodeTable (inoOf s k)).stat.stSize ≠ 0) →
      refs u (j, dataSlot 0) = refs s (j, dataSlot 0) := by
    intro j hj hsize
    by_cases hjk : j = inoOf s k
    · rw [hjk]
      refine hred.own (dataSlot 0) ?_
      have hblocks := dirBlocks_ne_zero (hsize hjk)
      intro heq
      obtain hn | hn := dirBlocks_cases (toInt (s.inodeTable (inoOf s k)).stat.stSize)
      · exact hblocks hn
      · rw [hn] at heq
        exact dataSlot_succ_ne 0 heq.symm
    · exact hred.refs_ne (j, dataSlot 0) hj hjk
  have hino : inoOf s m ∈ allocated u := by
    have := ht.dir_allocated hm
    exact ⟨this.1, this.2.1, by rw [hrel.avail]; exact this.2.2⟩
  refine ⟨(hu'.dropInode hino fun hs hlink => ?_).same rfl rfl rfl, fun j hj hjm hsize => ?_⟩
  · obtain ⟨⟨hroot₀, hblock⟩, hm₀, hsize⟩ := hroot hs
    have hlink' := hrel.nlink_ne _ hne
    rcases hkind with hreg | htwo
    · have hfile : IsFile u (inoOf s m) := by
        rw [IsFile, hrel.mode]
        exact not_isDir_of_isReg hreg
      refine ⟨hfile, fun sl heq => hm₀ ?_⟩
      have h₀A := ht.dir_allocated ht.root.1
      rw [hroot₀] at h₀A
      have hb₀ : refs u (0, dataSlot 0) = 0 := by
        rw [hfirst 0 h₀A fun hk₀ => hsize hk₀.symm]
        exact hblock
      have h₀u : (0 : Int) ∈ allocated u := ⟨h₀A.1, h₀A.2.1, by rw [hrel.avail]; exact h₀A.2.2⟩
      have hpair := hu'.books.excl (inoOf s m, sl) hino (0, dataSlot 0) h₀u heq.ge
        (heq.trans hb₀.symm)
      exact (Prod.mk.inj hpair).1
    · rw [hlink', htwo] at hlink
      exact absurd (by decide) hlink
  · exact ((freeInode_frame (inoOf s m) u).2 (j, dataSlot 0) hjm).trans (hfirst j hj hsize)

private theorem Tree.ino_ne_root (h : Tree s) {m : Int} (hm : Entry s m)
    (hne : pathOf s m ≠ [slash])
    (hroot : inoOf s 0 = 0) : inoOf s m ≠ 0 := fun heq => by
  have hm₀ := h.ino_inj m 0 hm h.root.1 (heq.trans hroot.symm)
  rw [hm₀] at hne
  exact hne h.root.2.1

/-- What `Blocks.erase` asks of the root. -/
theorem root_condition {m k : Int} (ht : Tree s) (hm : Entry s m) (hk : Entry s k)
    (hkp : IsParent (pathOf s k) (pathOf s m)) (hroot : strict → RootBlock s)
    (hok : strict → RootSized s (pathOf s m)) :
    strict → RootBlock s ∧ inoOf s m ≠ 0 ∧
      (inoOf s k = 0 → toInt (s.inodeTable (inoOf s k)).stat.stSize ≠ 0) := fun hs => by
  refine ⟨hroot hs, ht.ino_ne_root hm hkp.ne_root (hroot hs).1, fun hk₀ => ?_⟩
  rw [hk₀]
  exact hok hs k hk hkp hk₀

/-- **`sfs_unlink` keeps the block invariant.** -/
theorem sfsUnlink_blocks (h : Blocks strict rule s) (ht : Tree s)
    (hfuse : FuseOk s (.unlink path)) (hroot : strict → RootBlock s)
    (hok : BlockOk strict rule s (.unlink path)) :
    Post (sfsUnlink env path s) fun r => Blocks strict rule r.2 ∧ (strict →
      refs r.2 (0, dataSlot 0) = refs s (0, dataSlot 0)) := by
  intro r hr
  obtain ⟨m, k, u, hm, rfl, hreg, ⟨hk, hkd, hkp⟩, _, hu, hru⟩ := sfsUnlink_cases ht hfuse r hr
  have hne : inoOf s m ≠ inoOf s k := fun heq => hkp.ne (by rw [ht.ino_inj m k hm hk heq])
  have hcond := root_condition ht hm hk hkp hroot hok
  obtain ⟨hb, hfirst⟩ := h.erase ht hm hk hkd hne (Or.inl hreg) hcond u hu
  rw [hru]
  refine ⟨hb, fun hs => ?_⟩
  obtain ⟨⟨hroot₀, _⟩, hm₀, hsize⟩ := hcond hs
  exact hfirst 0 (hroot₀ ▸ ht.dir_allocated ht.root.1) hm₀.symm fun heq => hsize heq.symm

/-- **`sfs_rmdir` keeps the block invariant.** -/
theorem sfsRmdir_blocks (h : Blocks strict rule s) (ht : Tree s)
    (hfuse : FuseOk s (.rmdir path)) (hroot : strict → RootBlock s)
    (hok : BlockOk strict rule s (.rmdir path)) :
    Post (sfsRmdir env path s) fun r => Blocks strict rule r.2 ∧ (strict →
      refs r.2 (0, dataSlot 0) = refs s (0, dataSlot 0)) := by
  intro r hr
  obtain ⟨m, k, hm, rfl, hd, ⟨hk, hkd, hkp⟩, ⟨_, _, hrs⟩ | ⟨u, hle, _, hu, hru⟩⟩ :=
    sfsRmdir_cases ht hfuse r hr
  · rw [hrs]
    exact ⟨h.same rfl rfl rfl, fun _ => rfl⟩
  have hne : inoOf s m ≠ inoOf s k := fun heq => hkp.ne (by rw [ht.ino_inj m k hm hk heq])
  have hcond := root_condition ht hm hk hkp hroot hok
  have htwo : (s.inodeTable (inoOf s m)).stat.stNlink = 2 := by
    have := ht.nlink m hm hd
    omega
  obtain ⟨hb, hfirst⟩ := h.erase ht hm hk hkd hne (Or.inr htwo) hcond u hu
  rw [hru]
  refine ⟨hb, fun hs => ?_⟩
  obtain ⟨⟨hroot₀, _⟩, hm₀, hsize⟩ := hcond hs
  exact hfirst 0 (hroot₀ ▸ ht.dir_allocated ht.root.1) hm₀.symm fun heq => hsize heq.symm

/-- A write on an open file keeps the block invariant, and the first blocks of the
directories. -/
theorem sfsWrite_blocks {fh : Int} {buf : Nat → UInt8} {size : Nat} {offset : Int}
    (h : Blocks strict rule s) (hfile : OnFile s fh) (hok : WriteOk rule s fh size offset) :
    Post (sfsWrite env fh buf size offset s) fun r => Blocks strict rule r.2 ∧
      ∀ j ∈ allocated s, ¬ IsFile s j →
        refs r.2 (j, dataSlot 0) = refs s (j, dataSlot 0) := by
  intro r hr
  by_cases hfh : handleOutOfRange fh
  · rw [sfsWrite, if_pos hfh] at hr
    cases hr
    exact ⟨h, fun _ _ _ => rfl⟩
  by_cases hino : (s.openFiles (handleIndex fh)).stIno < 0
  · rw [sfsWrite, if_neg hfh, if_pos hino] at hr
    cases hr
    exact ⟨h, fun _ _ _ => rfl⟩
  by_cases hoff : offset > (s.inodeTable (s.openFiles (handleIndex fh)).stIno).stat.stSize
  · rw [sfsWrite, if_neg hfh, if_neg hino, if_pos hoff] at hr
    cases hr
    exact ⟨h, fun _ _ _ => rfl⟩
  obtain ⟨hA, hF⟩ := hfile hfh (not_lt.mp hino)
  obtain ⟨h₁, hfit, hrule⟩ := hok hfh (not_lt.mp hino) (not_lt.mp hoff)
  obtain ⟨hb, u, v, hw⟩ := h.write env hfh rfl hA hF (not_lt.mp hoff) h₁ hfit hrule r hr
  refine ⟨hb, fun j hj hdir => hw.refs_ne (x := (j, dataSlot 0)) hj ?_⟩
  rintro rfl
  exact hdir hF

/-- **Every call keeps the block invariant under its condition.** -/
theorem Blocks.exec {c : Call} (h : Blocks strict rule s) (ht : Tree s) (hfuse : FuseOk s c)
    (hroot : strict → RootBlock s)
    (hfile : ∀ fh buf size offset, c = .write fh buf size offset → OnFile s fh)
    (hok : BlockOk strict rule s c) (hret : Returns s c t) :
    Blocks strict rule t ∧ (strict → refs t (0, dataSlot 0) = refs s (0, dataSlot 0)) := by
  obtain ⟨env, r, hexec⟩ := hret
  have hroot₀ : strict → (0 : Int) ∈ allocated s ∧ ¬ IsFile s 0 := fun hs => by
    have hA := ht.dir_allocated ht.root.1
    have hdir := not_isFile_of_isDir ht.root.2.2
    rw [(hroot hs).1] at hA hdir
    exact ⟨hA, hdir⟩
  cases c with
  | create path mode =>
      obtain ⟨⟨r', fh, u⟩, hu, heq⟩ := bind_ok.mp hexec
      cases heq
      obtain ⟨hb, hfirst⟩ := sfsCreate_blocks h ht hfuse hok _ hu
      exact ⟨hb, fun hs => hfirst 0 (hroot₀ hs).1⟩
  | mkdir path mode =>
      obtain ⟨hb, hfirst⟩ := sfsMkdir_blocks h ht hfuse hok _ hexec
      exact ⟨hb, fun hs => hfirst 0 (hroot₀ hs).1⟩
  | openFile path =>
      obtain ⟨_, hnodes, hused, hdisk⟩ := sfsOpen_frame path 0 s
      rw [← exec_open hexec]
      exact ⟨h.same hnodes hused hdisk, fun _ => by rw [refs, refs, hnodes, hdisk]⟩
  | write fh buf size offset =>
      obtain ⟨hb, hfirst⟩ := sfsWrite_blocks h (hfile fh buf size offset rfl) hok _ hexec
      exact ⟨hb, fun hs => hfirst 0 (hroot₀ hs).1 (hroot₀ hs).2⟩
  | read fh size offset =>
      obtain ⟨r', _, heq⟩ := bind_ok.mp hexec
      cases heq
      exact ⟨h, fun _ => rfl⟩
  | release fh =>
      cases hexec
      exact ⟨h.same rfl rfl rfl, fun _ => rfl⟩
  | unlink path => exact sfsUnlink_blocks h ht hfuse hroot hok _ hexec
  | rmdir path => exact sfsRmdir_blocks h ht hfuse hroot hok _ hexec

end Steps

/-- A directory whose text ends in its first block, with room for the entry. -/
theorem dirFits_first {strict : Prop} {s : FS} {cwd size : Int} (h : (textEnd s cwd).1 = 0)
    (hroom : ¬ GrowsDir s cwd size) : DirFits strict s cwd size := by
  have hzero : (textEnd s cwd).1.toNat = 0 := by rw [h]; rfl
  refine ⟨by omega, fun j hj p hp => ?_, fun hg => absurd hg hroom⟩
  obtain rfl : j = 0 := by omega
  cases hp

/-- A one-letter name goes into the root, if there is room. -/
theorem fits_root {strict : Prop} {s : FS} {c : UInt8} (ht : Tree s) (hc : c ≠ slash)
    (hino : inoOf s 0 = 0) (hend : (textEnd s 0).1 = 0)
    (hroom : ¬ GrowsDir s 0 ((newEntry s (rootPath c)).length + 1)) :
    ∀ k, Entry s k → IsParent (pathOf s k) (rootPath c) →
      DirFits strict s (inoOf s k) ((newEntry s (rootPath c)).length + 1) := by
  intro k hk hkp
  have hpar : IsParent [slash] (rootPath c) :=
    ⟨by decide, [c], by simp, by simpa using Ne.symm hc, rfl⟩
  have hk₀ : k = 0 :=
    ht.path_inj k 0 hk ht.root.1 ((hkp.unique hpar).trans ht.root.2.1.symm)
  rw [hk₀, hino]
  exact dirFits_first hend hroom

end Sfs
