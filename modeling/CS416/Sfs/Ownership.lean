import CS416.Sfs.Append
import CS416.Sfs.Freeing

/-!
# Block ownership along runs

Every allocated inode owns the blocks it refers to, and a file, unlike a
directory, uses exactly the slots below `st_blocks`.  Each part of a call keeps
this, under a condition on the directory or the file that it changes.
-/

namespace Sfs

open CInt Outcome

/-- The inodes in use. -/
def allocated (s : FS) : Set Int :=
  {i | 0 ≤ i ∧ i < maxNodes ∧ (s.inodeTable i).avail = ALLOCD}

/-- A file: an inode that is not a directory. -/
def IsFile (s : FS) (i : Int) : Prop := isDirMode (s.inodeTable i).stat.stMode = false

/-- A relation between the number of blocks and the size of a file that holds of
new inodes. -/
structure SizeRule where
  holds : Nat → Int → Prop
  lt : ∀ {B : Nat} {size : Int}, holds B size → size < 9223372036854775808
  newFile : holds 0 0
  newDir : holds 1 512

/-- **The block invariant.** -/
structure Blocks (strict : Prop) (rule : SizeRule) (s : FS) : Prop where
  books : Books strict (allocated s) ∅ s
  files : ∀ i ∈ allocated s, IsFile s i → ∃ B : Nat, Shape s i B ∧
    (s.inodeTable i).stat.stBlocks = B ∧ rule.holds B (s.inodeTable i).stat.stSize

section Parts

variable {strict : Prop} {rule : SizeRule} {s t u v : FS} {cwd ino i b : Int} {B : Nat}
  {entry : Path}

/-- The inodes in use depend on the field `avail` only. -/
theorem allocated_congr (h : ∀ j, (t.inodeTable j).avail = (s.inodeTable j).avail) :
    allocated t = allocated s := by
  ext j
  simp only [allocated, Set.mem_ofPred_eq, h]

/-- The shape of a file depends on its references only. -/
theorem shape_congr (h : ∀ sl, refs t (ino, sl) = refs s (ino, sl)) :
    Shape t ino B ↔ Shape s ino B := by
  simp only [Shape, h]

/-- Nothing that the invariant looks at has changed. -/
theorem Blocks.congr (h : Blocks strict rule s)
    (havail : ∀ j, (t.inodeTable j).avail = (s.inodeTable j).avail)
    (hmode : ∀ j, (t.inodeTable j).stat.stMode = (s.inodeTable j).stat.stMode)
    (hcount : ∀ j, (t.inodeTable j).stat.stBlocks = (s.inodeTable j).stat.stBlocks)
    (hsize : ∀ j, (t.inodeTable j).stat.stSize = (s.inodeTable j).stat.stSize)
    (hused : t.diskBlocks = s.diskBlocks)
    (hrefs : ∀ x, x.1 ∈ allocated s → refs t x = refs s x) : Blocks strict rule t := by
  have hA := allocated_congr havail
  refine ⟨?_, fun j hj hfile => ?_⟩
  · rw [hA, Books, marked_congr hused]
    exact h.books.congr hrefs
  · rw [hA] at hj
    rw [IsFile, hmode] at hfile
    obtain ⟨B, hshape, hB, hrule⟩ := h.files j hj hfile
    exact ⟨B, (shape_congr fun sl => hrefs (j, sl) hj).mpr hshape, by rw [hcount, hB],
      by rw [hsize]; exact hrule⟩

/-- The tables and the disk are the same. -/
theorem Blocks.same (h : Blocks strict rule s) (hnodes : t.inodeTable = s.inodeTable)
    (hused : t.diskBlocks = s.diskBlocks) (hdisk : t.disk = s.disk) : Blocks strict rule t :=
  h.congr (fun j => by rw [hnodes]) (fun j => by rw [hnodes]) (fun j => by rw [hnodes])
    (fun j => by rw [hnodes]) hused fun x _ => by rw [refs, refs, hnodes, hdisk]

/-- A write to what a data slot refers to. -/
theorem Blocks.writeData (h : Blocks strict rule s) (hi : i ∈ allocated s) {sl : Slot}
    (hsl : sl.isIndex = false) (blk : Block) :
    Blocks strict rule (s.write (refs s (i, sl)) blk) :=
  h.congr (fun _ => rfl) (fun _ => rfl) (fun _ => rfl) (fun _ => rfl) rfl
    (h.books.write_data hi hsl blk).2

/-- A change of one directory. -/
theorem Blocks.onlyDir (h : Blocks strict rule s) (hdir : ¬ IsFile s cwd)
    (hbooks : Books strict (allocated s) ∅ t) (ho : OnlyDir (allocated s) s t cwd) :
    Blocks strict rule t := by
  have hA := allocated_congr ho.avail
  refine ⟨by rw [hA]; exact hbooks, fun j hj hfile => ?_⟩
  rw [hA] at hj
  have hne : j ≠ cwd := by
    rintro rfl
    rw [IsFile, ho.mode] at hfile
    exact hdir hfile
  rw [IsFile, ho.stat_ne j hne] at hfile
  rw [ho.stat_ne j hne]
  obtain ⟨B, hshape, hB⟩ := h.files j hj hfile
  exact ⟨B, (shape_congr fun sl => ho.refs_ne (j, sl) hj hne).mpr hshape, hB⟩

/-- **A new entry** keeps the block invariant. -/
theorem Blocks.append (env : Env) (h : Blocks strict rule s) (hcwd : cwd ∈ allocated s)
    (hdir : ¬ IsFile s cwd) (hfit : DirFits strict s cwd (entry.length + 1)) :
    OkUnless .noReturn (appendEntry env cwd entry s) fun t =>
      Blocks strict rule t ∧ Extends (allocated s) s t cwd (textEnd s cwd).1.toNat
        (Block.ofFn (appendBuffer env
          (blockRead s.disk (refs s (cwd, dataSlot (textEnd s cwd).1.toNat)))
          (textEnd s cwd).2 entry)) :=
  (appendEntry_spec env h.books hcwd hfit).imp fun _ ht =>
    ⟨h.onlyDir hdir ht.1 ht.2.toOnlyDir, ht.2⟩

/-- **The removal of an entry** keeps the block invariant. -/
theorem Blocks.remove (env : Env) (h : Blocks strict rule s) (hcwd : cwd ∈ allocated s)
    (hdir : ¬ IsFile s cwd) :
    Post (removeEntry env cwd entry s) fun t =>
      Blocks strict rule t ∧
      Reduces (allocated s) s t cwd (dirBlocks (toInt (s.inodeTable cwd).stat.stSize)).toNat
        (textBlock (removeSubstring
          (dirString env s cwd (dirBlocks (toInt (s.inodeTable cwd).stat.stSize))) entry)) :=
  (removeEntry_spec env h.books hcwd).imp fun _ ht =>
    ⟨h.onlyDir hdir ht.1 ht.2.toOnlyDir, ht.2⟩

/-- Dropping a link, and with the last one the inode. -/
theorem Blocks.dropInode (h : Blocks strict rule s) (hino : ino ∈ allocated s)
    (hall : strict → ¬ 0 < toU64 ((s.inodeTable ino).stat.stNlink - 1) →
      IsFile s ino ∧ ∀ sl, refs s (ino, sl) ≠ 0) :
    Blocks strict rule (freeInode ino s) := by
  have hspec := freeInode_spec h.books hino fun hs hlink => by
    obtain ⟨hfile, hzero⟩ := hall hs hlink
    obtain ⟨B, hshape, _⟩ := h.files ino hino hfile
    exact ⟨B, hshape, hzero⟩
  rcases hspec with heq | ⟨havail, hbooks⟩
  · rw [heq]
    refine h.congr (fun j => by simp) (fun j => ?_) (fun j => ?_) (fun j => ?_) rfl
      fun x _ => by simp
    all_goals
      by_cases hj : j = ino
      · rw [hj, FS.modStat_stat_self]
      · rw [FS.modStat_inodeTable_ne _ _ _ hj]
  · obtain ⟨_, _, hnode⟩ := freeInode_names ino s
    obtain ⟨_, hrefs⟩ := freeInode_frame ino s
    have hA : allocated (freeInode ino s) = allocated s \ {ino} := by
      ext j
      by_cases hj : j = ino
      · simp [allocated, hj, havail]
      · simp [allocated, hj, hnode j hj]
    rw [← hA] at hbooks
    refine ⟨hbooks, fun j hj hfile => ?_⟩
    rw [hA] at hj
    rw [IsFile, hnode j hj.2] at hfile
    rw [hnode j hj.2]
    obtain ⟨B, hshape, hB⟩ := h.files j hj.1 hfile
    exact ⟨B, (shape_congr fun sl => hrefs (j, sl) hj.2).mpr hshape, hB⟩

/-- **A write that fits.** -/
theorem Blocks.write (env : Env) {fh : Int} {buf : Nat → UInt8} {size : Nat} {offset : Int}
    (h : Blocks strict rule s) (hfh : ¬ handleOutOfRange fh)
    (hopen : (s.openFiles (handleIndex fh)).stIno = ino) (hino : ino ∈ allocated s)
    (hfile : IsFile s ino) (hoff : offset ≤ (s.inodeTable ino).stat.stSize) (h₁ : 1 ≤ size)
    (hfit : WriteFits (s.inodeTable ino).stat.stBlocks (s.inodeTable ino).stat.stSize offset
      size)
    (hrule : rule.holds ((s.inodeTable ino).stat.stBlocks.toNat +
        addedBlocks (offset + size) (s.inodeTable ino).stat.stSize)
      (toInt64 ((s.inodeTable ino).stat.stSize + size))) :
    Post (sfsWrite env fh buf size offset s) fun r =>
      Blocks strict rule r.2 ∧ ∃ u v, Wrote (allocated s) s u v r.2 ino
        (s.inodeTable ino).stat.stBlocks.toNat
        (addedBlocks (offset + size) (s.inodeTable ino).stat.stSize) buf size offset := by
  obtain ⟨B, hshape, hB, hlt⟩ := h.files ino hino hfile
  rw [hB] at hfit
  rw [hB, Int.toNat_natCast] at hrule ⊢
  refine (sfsWrite_spec env fh h.books hino hfh hopen hino.1 hshape hB (rule.lt hlt) hoff h₁
    hfit).post.imp ?_
  rintro ⟨r, t⟩ ⟨_, hbooks, u, v, hw⟩
  dsimp only at hbooks hw ⊢
  refine ⟨?_, u, v, hw⟩
  have hA := allocated_congr hw.avail
  refine ⟨by rw [hA]; exact hbooks, fun j hj hfile' => ?_⟩
  rw [hA] at hj
  by_cases hji : j = ino
  · subst j
    refine ⟨_, hw.shape hino, ?_, ?_⟩
    · rw [hw.stat, hB]
      push_cast
      rfl
    · rw [hw.stat]
      exact hrule
  · rw [IsFile, hw.stat_ne hji] at hfile'
    rw [hw.stat_ne hji]
    obtain ⟨B', hshape', hB'⟩ := h.files j hj hfile'
    exact ⟨B', (shape_congr fun sl => hw.refs_ne (x := (j, sl)) hj hji).mpr hshape', hB'⟩

end Parts

section Enter

variable {strict : Prop} {rule : SizeRule} {s t u v : FS} {cwd i b fh : Int} {B : Nat}

/-- The references of an inode whose block map and blocks are the same. -/
theorem refs_congr {j : Int} (hblocks : (v.inodeTable j).blocks = (s.inodeTable j).blocks)
    (hdisk : ∀ p, 0 ≤ refs s (j, p) → v.disk (refs s (j, p)) = s.disk (refs s (j, p)))
    (sl : Slot) : refs v (j, sl) = refs s (j, sl) := by
  have hentry : ∀ p k, entry v.disk (refs s (j, p)) k = entry s.disk (refs s (j, p)) k := by
    intro p k
    by_cases h₀ : 0 ≤ refs s (j, p)
    · rw [entry_nonneg k h₀, entry_nonneg k h₀, blockRead, blockRead, hdisk p h₀]
    · rw [entry_neg k (not_le.mp h₀), entry_neg k (not_le.mp h₀)]
  rw [refs, slotRef_congr hblocks]
  cases sl with
  | direct l => rfl
  | single => rfl
  | double => rfl
  | sdata k => exact hentry .single k
  | sub k => exact hentry .double k
  | ddata k l =>
      have hsub : entry v.disk ((s.inodeTable j).blocks 11) k = refs s (j, .sub k) :=
        hentry .double k
      rw [slotRef, hsub]
      exact hentry (.sub k) l

/-- The blocks in use hold the same, and so does block `-1`, which nobody has. -/
def SameDisk (s v : FS) : Prop := ∀ c, (c < 0 ∨ s.diskBlocks c ≠ FREE) → v.disk c = s.disk c

/-- A disk that has not been written. -/
theorem SameDisk.of_eq (h : v.disk = s.disk) : SameDisk s v := fun c _ => congrFun h c

/-- A block that is referred to is as before. -/
theorem SameDisk.ref {A held : Set Int} (h : SameDisk s v) (hb : Books strict A held s)
    {x : Int × Slot} (hx : x.1 ∈ A) : v.disk (refs s x) = s.disk (refs s x) := by
  by_cases h₀ : 0 ≤ refs s x
  · exact h _ (Or.inr (hb.used_of_ref hx h₀))
  · exact h _ (Or.inl (not_le.mp h₀))

/-- A free block may be written. -/
theorem SameDisk.write (h : SameDisk s v) (h₀ : 0 ≤ b) (hb : s.diskBlocks b = FREE)
    (blk : Block) : SameDisk s (v.write b blk) := by
  intro c hc
  have hcb : c ≠ b := by
    rintro rfl
    rcases hc with hneg | hused
    · omega
    · exact hused hb
  rw [write_disk_ne hcb]
  exact h c hc

/-- What is read of an inode is the same, if block `-1` is. -/
theorem blockRead_logical {j : Int} {n : Nat}
    (hblocks : (v.inodeTable j).blocks = (s.inodeTable j).blocks)
    (hdisk : ∀ p, v.disk (refs s (j, p)) = s.disk (refs s (j, p)))
    (hn : n < 1110) (hpath : ∀ p ∈ indexPath n, 0 ≤ refs s (j, p)) :
    blockRead v.disk (getBlockIndex v.disk (v.inodeTable j) n) =
      blockRead s.disk (getBlockIndex s.disk (s.inodeTable j) n) := by
  have hrefs := refs_congr hblocks fun p _ => hdisk p
  have hidx : getBlockIndex s.disk (s.inodeTable j) n = refs s (j, dataSlot n) :=
    getBlockIndex_eq hn hpath
  have hpath' : ∀ p ∈ indexPath n, 0 ≤ refs v (j, p) := by
    intro p hp
    rw [hrefs]
    exact hpath p hp
  have hidx' : getBlockIndex v.disk (v.inodeTable j) n = refs v (j, dataSlot n) :=
    getBlockIndex_eq hn hpath'
  rw [hidx, hidx', hrefs, blockRead, blockRead, hdisk]

/-- The end of the text depends on the blocks up to it only. -/
theorem textEndFrom_congr {nd nd' : Inode} (n : Nat) (k : Int)
    (h : ∀ j, k ≤ j → j ≤ (textEndFrom s nd n k).1 →
      blockRead v.disk (getBlockIndex v.disk nd' j) =
        blockRead s.disk (getBlockIndex s.disk nd j)) :
    textEndFrom v nd' n k = textEndFrom s nd n k := by
  induction n generalizing k with
  | zero =>
      rw [textEndFrom, textEndFrom, h k (le_refl k) (le_refl k)]
  | succ n ih =>
      have hk := h k (le_refl k) (textEndFrom_ge s nd (n + 1) k)
      rw [textEndFrom, hk]
      rw [textEndFrom] at h ⊢
      split
      · rfl
      · rename_i hlen
        rw [if_neg hlen] at h
        exact ih (k + 1) fun j h₀ h₁ => h j (by omega) h₁

/-- What a directory can take depends on its own blocks and block `-1`. -/
theorem DirFits.congr {size : Int} (h : DirFits strict s cwd size)
    (hblocks : (v.inodeTable cwd).blocks = (s.inodeTable cwd).blocks)
    (hsize : (v.inodeTable cwd).stat.stSize = (s.inodeTable cwd).stat.stSize)
    (hdisk : ∀ p, v.disk (refs s (cwd, p)) = s.disk (refs s (cwd, p))) :
    textEnd v cwd = textEnd s cwd ∧ DirFits strict v cwd size := by
  have hrefs := refs_congr hblocks fun p _ => hdisk p
  have hend : textEnd v cwd = textEnd s cwd := by
    refine textEndFrom_congr 1110 0 fun j hj₀ hj₁ => ?_
    obtain ⟨n, rfl⟩ : ∃ n : Nat, j = n := ⟨j.toNat, by omega⟩
    have hn : n ≤ (textEnd s cwd).1.toNat := by
      have hj₁' : (n : Int) ≤ (textEnd s cwd).1 := hj₁
      omega
    have hlt := h.lt
    exact blockRead_logical hblocks hdisk (by omega) (h.mapped n hn)
  refine ⟨hend, ⟨by rw [hend]; exact h.lt, ?_, ?_⟩⟩
  · rw [hend]
    intro j hj p hp
    rw [hrefs p]
    exact h.mapped j hj p hp
  · rw [hend, hrefs]
    intro hg
    refine h.grows ?_
    rw [GrowsDir, hsize] at hg
    exact hg

/-- A free inode is not in use. -/
theorem not_mem_allocated (h : (s.inodeTable i).avail = FREE) : i ∉ allocated s := by
  rintro ⟨_, _, ha⟩
  rw [h] at ha
  exact absurd ha (by decide)

/-- The new inode is in use. -/
theorem Prepared.allocated_eq (hp : Prepared s u i) :
    allocated u = insert i (allocated s) := by
  ext j
  by_cases hj : j = i
  · subst j
    simp [allocated, hp.avail, hp.range.1]
    exact hp.range.2
  · simp [allocated, hj, hp.avail_ne j hj]

/-- A new inode with `B` blocks. -/
theorem Blocks.prepared (h : Blocks strict rule s) (hp : Prepared s u i)
    (hbooks : Books strict (insert i (allocated s)) ∅ u)
    (hrefs : ∀ x, x.1 ≠ i → refs u x = refs s x) (hshape : Shape u i B)
    (hcount : (u.inodeTable i).stat.stBlocks = B)
    (hrule : rule.holds B (u.inodeTable i).stat.stSize) : Blocks strict rule u := by
  refine ⟨by rw [hp.allocated_eq]; exact hbooks, fun j hj hfile => ?_⟩
  rw [hp.allocated_eq] at hj
  by_cases hji : j = i
  · subst j
    exact ⟨B, hshape, hcount, hrule⟩
  · rw [IsFile, hp.stat_ne j hji] at hfile
    rw [hp.stat_ne j hji]
    obtain ⟨B', hshape', hB'⟩ := h.files j (hj.resolve_left hji) hfile
    exact ⟨B', (shape_congr fun sl => hrefs (j, sl) hji).mpr hshape', hB'⟩

/-- **A new file** keeps the block invariant. -/
theorem Blocks.newFile (h : Blocks strict rule s) (hp : Prepared s u i)
    (hn : NewFile s u i fh) :
    Blocks strict rule u ∧ (∀ x, x.1 ≠ i → refs u x = refs s x) ∧
      ∀ sl, refs u (i, sl) < 0 := by
  have hrefs : ∀ x : Int × Slot, x.1 ≠ i → refs u x = refs s x := fun x hx =>
    refs_congr (hn.blocks_ne x.1 hx) (fun p _ => by rw [hn.disk]) x.2
  have hneg : ∀ sl, refs u (i, sl) < 0 :=
    Empty.refs_neg ⟨hn.size, hn.count, fun k hk₀ hk₁ => hn.blocks k hk₀ hk₁⟩
  have hi := not_mem_allocated hp.free
  have hbooks : Books strict (insert i (allocated s)) ∅ u := by
    unfold Books
    rw [marked_congr hn.used]
    refine (h.books.congr fun x hx => hrefs x ?_).extend (fun x hx => Or.inr hx) ?_
    · rintro rfl
      exact hi hx
    · rintro ⟨j, sl⟩ (rfl | hj) hx'
      · exact hneg sl
      · exact absurd hj hx'
  refine ⟨h.prepared (B := 0) hp hbooks hrefs (fun sl => ?_) hn.count
    (by rw [hn.size]; exact rule.newFile), hrefs, hneg⟩
  have := hneg sl
  omega

/-- **A new directory** keeps the block invariant. -/
theorem Blocks.newDir (h : Blocks strict rule s) (hp : Prepared s u i) (hn : NewDir s u i b) :
    Blocks strict rule u ∧ (∀ x, x.1 ≠ i → refs u x = refs s x) ∧
      refs u (i, dataSlot 0) = b := by
  have hrefs : ∀ x : Int × Slot, x.1 ≠ i → refs u x = refs s x := fun x hx =>
    refs_congr (hn.blocks_ne x.1 hx) (fun p _ => by rw [hn.disk]) x.2
  have hfirst : refs u (i, dataSlot 0) = b := by
    have hblock := hn.blocks 0 (le_refl 0) (by decide)
    exact hblock
  -- the first direct slot is the only one in use
  have hneg : ∀ sl, sl ≠ dataSlot 0 → refs u (i, sl) < 0 := by
    intro sl hsl
    have h₁₀ := hn.blocks 10 (by decide) (by decide)
    have h₁₁ := hn.blocks 11 (by decide) (by decide)
    rw [if_neg (by decide)] at h₁₀ h₁₁
    cases sl with
    | direct l =>
        have hl := hn.blocks (l : Nat) (by omega) (by omega)
        have hl₀ : ((l : Nat) : Int) ≠ 0 := fun heq => hsl (by
          have hl' : l = 0 := Fin.ext (by simpa using heq)
          rw [hl']
          rfl)
        rw [if_neg hl₀] at hl
        rw [refs, slotRef, hl]
        decide
    | single => simp [refs, slotRef, h₁₀]
    | double => simp [refs, slotRef, h₁₁]
    | sdata k => simp [refs, slotRef, h₁₀, entry]
    | sub k => simp [refs, slotRef, h₁₁, entry]
    | ddata k l => simp [refs, slotRef, h₁₁, entry]
  have hi := not_mem_allocated hp.free
  have hbooks : Books strict (insert i (allocated s)) ∅ u := by
    -- the ledger before the block is put down
    have hold : ∀ x ∈ slots (allocated s),
        Function.update (refs u) (i, dataSlot 0) (-1) x = refs s x := by
      rintro x hx
      rw [Function.update_of_ne, hrefs x]
      · rintro rfl
        exact hi hx
      · rintro rfl
        exact hi hx
    have hempty : ∀ x ∈ slots (insert i (allocated s)), x ∉ slots (allocated s) →
        Function.update (refs u) (i, dataSlot 0) (-1) x < 0 := by
      rintro ⟨j, sl⟩ (rfl | hj) hx'
      · by_cases hsl : sl = dataSlot 0
        · rw [hsl, Function.update_self]
          decide
        · rw [Function.update_of_ne (by simp [hsl])]
          exact hneg sl hsl
      · exact absurd hj hx'
    have hbase := (h.books.congr hold).extend (fun x hx => Or.inr hx) hempty
    have hplace := (hbase.take hn.block.1 (not_mem_marked hn.block.2.2)).place
      (x := (i, dataSlot 0)) (Set.mem_insert b ∅) (Set.mem_insert i _) fun _ => by
        rw [Function.update_self]
        decide
    have hmarked : insert b (marked s) = marked u := by
      rw [← marked_setUsed hn.block.1 hn.block.2.1]
      exact (marked_congr hn.used).symm
    rw [Set.insert_sdiff_self_of_notMem (Set.notMem_empty b), Function.update_idem, ← hfirst,
      Function.update_eq_self, hfirst, hmarked] at hplace
    exact hplace
  refine ⟨h.prepared (B := 1) hp hbooks hrefs (fun sl => ?_) hn.count
    (by rw [hn.size]; exact rule.newDir), hrefs, hfirst⟩
  by_cases hsl : sl = dataSlot 0
  · rw [hsl, hfirst, rank_dataSlot (by decide)]
    have := hn.block.1
    omega
  · have hlt := hneg sl hsl
    have hrank : rank sl ≠ 0 := fun hr => by
      rcases eq_of_rank_eq hr with heq | hmem
      · exact hsl heq
      · cases hmem
    omega

end Enter

end Sfs
