import CS416.Sfs.AgreedRuns
import CS416.Sfs.Mount

/-!
# The reserved area over whole runs

While a block in front of the reserved area stays free, no call takes a block of
the area, refers to one or writes to one.  So the image that the last unmount
left there stays as it is, and the next unmount overwrites nothing in use.
-/

namespace Sfs

open CInt Outcome Runs

/-- The reserved area holds the same bytes. -/
def SameArea (s t : FS) : Prop := ∀ c, s.systemBlock ≤ c → t.disk c = s.disk c

section Area

variable {strict : Prop} {rule : SizeRule} {A held : Set Int} {s t u v : FS} {env : Env}
  {cwd ino b i k m : Int} {n : Nat} {entry path : Path}

theorem SameArea.refl (s : FS) : SameArea s s := fun _ _ => rfl

/-- One call after another. -/
theorem SameArea.trans (h : SameArea s u) (hsys : u.systemBlock = s.systemBlock)
    (h' : SameArea u t) : SameArea s t := fun c hc =>
  (h' c (by rw [hsys]; exact hc)).trans (h c hc)

/-- The disk is as it was. -/
theorem SameArea.of_disk (h : t.disk = s.disk) : SameArea s t := fun c _ => congrFun h c

/-- A block in front of the area is written. -/
theorem SameArea.write (hb : b < s.systemBlock) (blk : Block) : SameArea s (s.write b blk) :=
  fun _ hc => write_disk_ne (by omega)

/-- A directory grows by index blocks and one block, all in front of the area. -/
theorem growDir_area {size : Int} {buf : Nat → UInt8} (hb : Books strict A ∅ s) (hcwd : cwd ∈ A)
    (hres : Reserved s) (hi : GrowsDir s cwd size → n + 1 < 1110 ∧
      (strict → refs s (cwd, dataSlot (n + 1)) < 0))
    (hgrow : growDir env cwd n size buf s = .ok t) (hroom : HasRoom t) : SameArea s t := by
  have hfront := growDir_front env cwd n size buf s t hgrow
  unfold growDir at hgrow
  split at hgrow
  swap
  · cases hgrow
    exact SameArea.refl s
  rename_i hsize
  obtain ⟨hn, hempty⟩ := hi hsize
  have hshort : toShort ((n : Int) + 1) = (n + 1 : Nat) := by
    rw [toShort_of_range (by omega) (by omega)]
    push_cast
    rfl
  rw [hshort] at hgrow
  obtain ⟨x, hget, hret⟩ := bind_ok.mp hgrow
  obtain ⟨c, u⟩ := x
  obtain ⟨w, hset, hret'⟩ := bind_ok.mp hret
  cases hret'
  have htaken : Taken s c u := (getBlock_outcome s).post _ hget
  have hrefs : refs u = refs s := by rw [htaken.state]; rfl
  obtain ⟨hp, hbooks⟩ := (setBlockIndex_spec env (hb.take htaken) hcwd hn (Set.mem_insert c ∅)
    (fun hs => by rw [hrefs]; exact hempty hs)).post w hset
  have hres' : Reserved w := (hres.step (Or.inl hfront) hroom).congr rfl rfl
  have hlow := hres'.refsLow hbooks hcwd
  have hsys : w.systemBlock = s.systemBlock := hfront.system
  have hc : c < s.systemBlock := by
    rw [← hsys, ← hp.data]
    exact hlow _
  intro c' hc'
  rw [write_disk_ne (by omega), hp.disk c' fun p _ heq => ?_, htaken.state]
  · rfl
  · have hlt := hlow p
    omega

/-- A new entry of a directory is written in front of the area. -/
theorem appendEntry_area (hb : Books strict A ∅ s) (hcwd : cwd ∈ A) (hres : Reserved s)
    (hfit : DirFits strict s cwd (entry.length + 1))
    (happend : appendEntry env cwd entry s = .ok t) (hroom : HasRoom t) : SameArea s t := by
  obtain ⟨j, hj⟩ := Int.eq_ofNat_of_zero_le (textEnd_nonneg s cwd)
  obtain ⟨hlt, hmapped, hgrows⟩ := hfit
  have happend := (appendEntry_ok.mp happend).2
  unfold putEntry at happend
  dsimp only at happend
  rw [hj, Int.toNat_natCast] at hlt hmapped hgrows
  have hidx : getBlockIndex s.disk (s.inodeTable cwd) j = refs s (cwd, dataSlot j) :=
    getBlockIndex_eq hlt (hmapped j (le_refl j))
  rw [hj, hidx] at happend
  generalize appendBuffer env (blockRead s.disk (refs s (cwd, dataSlot j)))
    (textEnd s cwd).2 entry = buf at happend
  obtain ⟨v, hgrow, hret⟩ := bind_ok.mp happend
  cases hret
  obtain ⟨hbooks, hrefs⟩ := hb.write_data hcwd (isIndex_dataSlot j) (Block.ofFn buf)
  have hstore := SameArea.write (hres.refsLow hb hcwd (dataSlot j)) (Block.ofFn buf)
  have hgrown : SameArea (s.write _ (Block.ofFn buf)) v := growDir_area hbooks hcwd
    (hres.congr rfl rfl) (fun hg => ⟨(hgrows hg).1, fun hs => by
      rw [hrefs _ hcwd]
      exact (hgrows hg).2 hs⟩) hgrow hroom
  exact fun c hc => (hgrown c hc).trans (hstore c hc)

end Area

section Calls

variable {strict : Prop} {rule : SizeRule} {s t u v : FS} {env : Env} {path : Path}
  {mode : Nat} {fi i k m r b : Int} {c : Call}

/-- The reserved area begins where it did. -/
theorem FrontOrFrees.system (h : FrontOrFrees s t) : t.systemBlock = s.systemBlock :=
  h.elim TakesFront.system FreesOnly.system

/-- Before blocks were taken, more of them were free. -/
theorem Reserved.before (h : Reserved t) (hfront : TakesFront s t) : Reserved s where
  system := hfront.system.symm.trans h.system
  free c hc hlt := by
    have hpos := h.system_pos
    rw [← hfront.system] at hc
    exact hfront.keeps c (by omega) (h.free c hc hlt)

/-- The entry of a new name goes to the directory in front of the area. -/
theorem newEntry_area (hv : Blocks strict rule v) (hp : Prepared s u i)
    (he : Entered s v m i k path) (ht : Tree s)
    (hblocks : ∀ j, j ≠ i → (v.inodeTable j).blocks = (s.inodeTable j).blocks)
    (hdisk : SameDisk s v) (hb : Blocks strict rule s)
    (hfit : DirFits strict s (inoOf s k) ((dirEntry (getName path) i).length + 1))
    (hres : Reserved v)
    (happend : appendEntry env (inoOf s k) (dirEntry (getName path) i) v = .ok t)
    (hroom : HasRoom t) : SameArea v t := by
  obtain ⟨hAv, hfit'⟩ := entered_fits he hp ht hblocks hdisk hb hfit
  exact appendEntry_area hv.books hAv hres hfit' happend hroom

/-- `sfs_create` does not write to the reserved area. -/
theorem sfsCreate_area (hb : Blocks strict rule s) (ht : Tree s) (hres : Reserved s)
    (hfuse : FuseOk s (.create path mode)) (hok : BlockOk strict rule s (.create path mode))
    (hroom : ∀ r, sfsCreate env path mode fi s = .ok r → HasRoom r.2.2) :
    Post (sfsCreate env path mode fi s) fun r => SameArea s r.2.2 := by
  intro r hr
  have hsys := (sfsCreate_used env path mode fi s r hr).system
  rcases sfsCreate_cases ht hfuse r hr with ⟨_, hrs⟩ | ⟨u, i, fh, hp, hn, _, hrs⟩ |
    ⟨u, m, i, k, fh, hp, hn, he, hm, hi, _, happ⟩
  · rw [hrs]
    exact SameArea.refl s
  · rw [hrs]
    exact SameArea.of_disk ((freeInode_frame i u).1.trans hn.disk)
  · obtain ⟨hu, _, _⟩ := hb.newFile hp hn
    have hfit := hok (pathLookup_new hfuse.2.2.1 he.fresh ht) (hm ▸ he.slot.1) k he.parent.1
      he.parent.2.2
    rw [newEntry, ← hi] at hfit
    have hfront := appendEntry_front env _ _ _ _ happ
    generalize hv : enterName m i path
      (u.setName m { u.nameTable m with avail := ALLOCD }) = v at he happ hfront
    have hvnode : v.inodeTable = u.inodeTable := by rw [← hv]; rfl
    have hvused : v.diskBlocks = u.diskBlocks := by rw [← hv]; rfl
    have hvdisk : v.disk = s.disk := by rw [← hv]; exact hn.disk
    have harea := newEntry_area (hu.same hvnode hvused (hvdisk.trans hn.disk.symm)) hp he ht
      (fun j hj => by rw [hvnode, hn.blocks_ne j hj]) (.of_eq hvdisk) hb hfit
      (hres.congr (hfront.system.symm.trans hsys) (hvused.trans hn.used)) happ (hroom r hr)
    intro c hc
    have hcv := harea c (by rw [← hfront.system, hsys]; exact hc)
    exact hcv.trans (congrFun hvdisk c)

/-- Nor does `sfs_mkdir`. -/
theorem sfsMkdir_area (hb : Blocks strict rule s) (ht : Tree s) (hres : Reserved s)
    (hfuse : FuseOk s (.mkdir path mode)) (hok : BlockOk strict rule s (.mkdir path mode))
    (hroom : ∀ r, sfsMkdir env path mode s = .ok r → HasRoom r.2) :
    Post (sfsMkdir env path mode s) fun r => SameArea s r.2 := by
  intro r hr
  have hused := sfsMkdir_used env path mode s r hr
  rcases sfsMkdir_cases ht hfuse r hr with ⟨_, hrs⟩ | ⟨u, i, b, hp, hn, _, hrs⟩ |
    ⟨u, m, i, k, b, hp, hn, he, hm, hi, _, happ⟩
  · rw [hrs]
    exact SameArea.refl s
  · rw [hrs]
    exact SameArea.of_disk ((freeInode_frame i u).1.trans hn.disk)
  · obtain ⟨hu, _, hfirst⟩ := hb.newDir hp hn
    have hfit := hok (pathLookup_new hfuse.2.1 he.fresh ht) (hm ▸ he.slot.1) k he.parent.1
      he.parent.2.2
    rw [newEntry, ← hi] at hfit
    generalize hw : enterName m i path
      (u.setName m { u.nameTable m with avail := ALLOCD }) = w at he happ
    have hwnode : w.inodeTable = u.inodeTable := by rw [← hw]; rfl
    have hwused : w.diskBlocks = u.diskBlocks := by rw [← hw]; rfl
    have hwdisk : w.disk = s.disk := by rw [← hw]; exact hn.disk
    have hwB := hu.same hwnode hwused (hwdisk.trans hn.disk.symm)
    have hiw : i ∈ allocated w := ⟨hp.range.1, hp.range.2, he.avail⟩
    have hfirst' : refs w (i, dataSlot 0) = b := by
      rw [← hw]
      exact hfirst
    have hv := hwB.writeData hiw (isIndex_dataSlot 0) (textBlock (dirHeader i (inoOf s k)))
    rw [hfirst'] at hv
    have hfront : TakesFront w r.2 :=
      (appendEntry_front env _ _ _ _ happ).before rfl rfl
    have hsys : w.systemBlock = s.systemBlock := hfront.system.symm.trans hused.system
    have hresw := (hres.step hused (hroom r hr)).before hfront
    have hlow := hresw.refsLow hwB.books hiw (dataSlot 0)
    rw [hfirst'] at hlow
    have hvdisk : ∀ c, c ≠ b → (w.write b (textBlock (dirHeader i (inoOf s k)))).disk c =
        s.disk c := fun c hc => (write_disk_ne hc).trans (congrFun hwdisk c)
    have harea := newEntry_area hv hp (he.write b _) ht
      (fun j hj => by rw [FS.write_inodeTable, hwnode, hn.blocks_ne j hj])
      ((SameDisk.of_eq hwdisk).write hn.block.1 hn.block.2.2 _) hb hfit
      (hresw.congr rfl rfl) happ (hroom r hr)
    intro c hc
    exact (harea c (by rw [← hsys] at hc; exact hc)).trans (hvdisk c (by omega))

/-- Deleting an entry rewrites the first block of the directory. -/
theorem erase_area (hb : Blocks strict rule s) (ht : Tree s) (hres : Reserved s)
    (hk : Entry s k) (hremove : removeEntry env (inoOf s k) (dirEntry (getName path) b)
      { s with cwdInode := inoOf s k } = .ok u) :
    SameArea s (freeMapping m (freeInode i u)) := by
  have hA := ht.dir_allocated hk
  have hcwd : Blocks strict rule { s with cwdInode := inoOf s k } := hb.same rfl rfl rfl
  obtain ⟨_, hred⟩ := removeEntry_spec env hcwd.books hA u hremove
  have hlow := hres.refsLow hb.books hA (dataSlot 0)
  intro c hc
  have hdisk : (freeMapping m (freeInode i u)).disk c = u.disk c :=
    congrFun (freeInode_frame i u).1 c
  have hne : refs s (inoOf s k, dataSlot 0) ≠ c := by omega
  exact hdisk.trans (hred.disk c hne)

/-- A write changes blocks of its file only. -/
theorem sfsWrite_area {fh offset : Int} {buf : Nat → UInt8} {size : Nat} (hs : Inside s)
    (hok : WriteOk coveredSize s fh size offset)
    (hwrite : sfsWrite env fh buf size offset s = .ok (r, t)) (hroom : HasRoom t) :
    SameArea s t := by
  have hres := hs.reserved.step (Or.inl (sfsWrite_front env fh buf size offset s _ hwrite)) hroom
  have hsys := (sfsWrite_front env fh buf size offset s _ hwrite).system
  by_cases hfh : handleOutOfRange fh
  · rw [sfsWrite, if_pos hfh] at hwrite
    cases hwrite
    exact SameArea.refl s
  by_cases hneg : (s.openFiles (handleIndex fh)).stIno < 0
  · rw [sfsWrite, if_neg hfh, if_pos hneg] at hwrite
    cases hwrite
    exact SameArea.refl s
  by_cases hoff : offset > (s.inodeTable (s.openFiles (handleIndex fh)).stIno).stat.stSize
  · rw [sfsWrite, if_neg hfh, if_neg hneg, if_pos hoff] at hwrite
    cases hwrite
    exact SameArea.refl s
  obtain ⟨hA, hF⟩ := hs.handles.onFile fh hfh (not_lt.mp hneg)
  obtain ⟨h₁, hfit, hrule⟩ := hok hfh (not_lt.mp hneg) (not_lt.mp hoff)
  obtain ⟨hb, u, v, hw⟩ := hs.blocks.write env hfh rfl hA hF (not_lt.mp hoff) h₁ hfit hrule _
    hwrite
  have hlow := hres.refsLow hb.books ((allocated_congr hw.avail).symm ▸ hA)
  have hpos := hs.reserved.system_pos
  intro c hc
  refine hw.disk_eq hA (Or.inl (by omega)) fun sl _ heq => ?_
  have hlt := hlow sl
  dsimp only at hlt heq hsys
  omega

/-- **No call writes to the reserved area.** -/
theorem exec_area (hs : Inside s) (hok : InsideOk s c) (hexec : exec env c s = .ok (r, t))
    (hroom : HasRoom t) : SameArea s t := by
  obtain ⟨⟨hfuse, hno, hblocks⟩, _⟩ := hok
  cases c with
  | create path mode =>
      obtain ⟨x, hcreate, hret⟩ := bind_ok.mp hexec
      cases hret
      refine sfsCreate_area hs.blocks hs.tree hs.reserved hfuse hblocks (fun r hr => ?_) x hcreate
      rw [Except.ok.inj (hr.symm.trans hcreate)]
      exact hroom
  | mkdir path mode =>
      refine sfsMkdir_area hs.blocks hs.tree hs.reserved hfuse hblocks (fun r hr => ?_) _ hexec
      rw [Except.ok.inj (hr.symm.trans hexec)]
      exact hroom
  | openFile path =>
      rw [← exec_open hexec]
      unfold sfsOpen
      dsimp only
      split_ifs <;> exact SameArea.of_disk rfl
  | write fh buf size offset =>
      exact sfsWrite_area hs hblocks hexec hroom
  | read fh size offset =>
      obtain ⟨_, _, hret⟩ := bind_ok.mp hexec
      cases hret
      exact SameArea.refl s
  | release fh =>
      cases hexec
      exact SameArea.of_disk rfl
  | unlink path =>
      obtain ⟨m, k, u, _, _, _, ⟨hk, _⟩, _, hremove, hru⟩ := sfsUnlink_cases hs.tree hfuse _ hexec
      cases hru
      exact erase_area hs.blocks hs.tree hs.reserved hk hremove
  | rmdir path =>
      obtain ⟨m, k, _, _, _, ⟨hk, _⟩, ⟨_, _, hru⟩ | ⟨u, _, _, hremove, hru⟩⟩ :=
        sfsRmdir_cases hs.tree hfuse _ hexec
      · cases hru
        exact SameArea.of_disk rfl
      · cases hru
        exact erase_area hs.blocks hs.tree hs.reserved hk hremove

end Calls

section Runs

variable {s t : FS} {ls : List (Env × Call)} {rs : List Int} {b : Int}

/-- The next block is taken in front of the area. -/
theorem HasRoom.getBlock (h : HasRoom s) (hres : Reserved s) :
    ∃ b, Sfs.getBlock s = .ok (b, s.setUsed b ALLOCD) ∧ 0 ≤ b ∧ b < s.systemBlock := by
  obtain ⟨c, hc₀, hc₁, hcfree⟩ := h
  have hsys := hres.system
  simp only [numBlocks, reserveBlocks] at hsys
  obtain ⟨b, hget, htaken⟩ := getBlock_of_free ⟨c, hc₀, by simp only [numBlocks]; omega, hcfree⟩
  refine ⟨b, hget, htaken.nonneg, ?_⟩
  by_contra hge
  exact htaken.least c hc₀ (by omega) hcfree

/-- **The reserved area is left alone** in every run that keeps a block in front of it free:
no block of it is taken, referred to or written, the next block comes from in front of it,
and an unmount overwrites nothing that an inode refers to. -/
theorem reserved_area_kept (h : RoomyRun InsideOk s) (hscript : Script Answers s ls rs t) :
    (∀ c, s.systemBlock ≤ c → t.disk c = s.disk c) ∧
    (∀ b, t.systemBlock ≤ b → b < numBlocks → t.diskBlocks b = FREE) ∧
    (∀ x : Int × Slot, x.1 ∈ allocated t → refs t x < t.systemBlock) ∧
    (∃ b, getBlock t = .ok (b, t.setUsed b ALLOCD) ∧ 0 ≤ b ∧ b < t.systemBlock) ∧
    ∀ junk g, g.systemBlock = t.systemBlock → ∀ x : Int × Slot, x.1 ∈ allocated t →
      sfsDestroy junk g t.disk (refs t x) = t.disk (refs t x) := by
  have hs := h.inside
  obtain ⟨ht, harea⟩ := hscript.invariant (I := fun t => Inside t ∧ SameArea s t)
    (fun u l r t hu hstep => ⟨hu.1.step hstep.1 hstep.2.1 hstep.2.2,
      hu.2.trans (hu.1.reserved.system.trans hs.reserved.system.symm)
        (exec_area hu.1 hstep.1 hstep.2.1 hstep.2.2)⟩) ⟨hs, SameArea.refl s⟩
  have hlow : ∀ x : Int × Slot, x.1 ∈ allocated t → refs t x < t.systemBlock :=
    fun x hx => ht.reserved.refsLow ht.blocks.books hx x.2
  exact ⟨harea, ht.reserved.free, hlow, ht.room.getBlock ht.reserved, fun junk g hg x hx =>
    sfsDestroy_below (by rw [hg]; exact hlow x hx)⟩

/-- A run with a file of one block. -/
theorem reserved_area_kept_byte : mountWithByte.diskBlocks 1 = ALLOCD ∧
    (∀ c, firstMount.systemBlock ≤ c → mountWithByte.disk c = firstMount.disk c) ∧
    ∃ b, getBlock mountWithByte = .ok (b, mountWithByte.setUsed b ALLOCD) ∧ 0 ≤ b ∧
      b < mountWithByte.systemBlock := by
  obtain ⟨rs, hscript⟩ := script_mountWithByte
  obtain ⟨harea, _, _, hnext, _⟩ := reserved_area_kept (Reach.start fresh_firstMount) hscript
  exact ⟨by decide +kernel, harea, hnext⟩

end Runs

end Sfs
