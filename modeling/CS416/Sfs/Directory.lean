import CS416.Sfs.FreshState
import CS416.Sfs.WriteCall

/-!
# Directory updates

`sfs_create` and `sfs_mkdir` extend the directory they enter a name in, and
`sfs_unlink` and `sfs_rmdir` rewrite the one they delete a name from.  Both
change one directory only, and keep the ledger of blocks.
-/

namespace Sfs

open CInt Outcome

/-- The entry that a new name gets in its directory. -/
def newEntry (s : FS) (path : Path) : Path := dirEntry (getName path) (getInode s).1

/-- An entry of `size` bytes does not fit the room that `st_size` leaves. -/
def GrowsDir (s : FS) (cwd size : Int) : Prop :=
  (s.inodeTable cwd).stat.stSize.tmod blockSize + size > blockSize

instance (s : FS) (cwd size : Int) : Decidable (GrowsDir s cwd size) :=
  inferInstanceAs (Decidable (_ > _))

/-- The directory `cwd` can take an entry of `size` bytes: the search for the end of
its text meets no missing index block, and if the directory grows, the block
goes into a slot that exists and, under `strict`, is empty. -/
structure DirFits (strict : Prop) (s : FS) (cwd size : Int) : Prop where
  lt : (textEnd s cwd).1.toNat < 1110
  mapped : ∀ j ≤ (textEnd s cwd).1.toNat, ∀ p ∈ indexPath j, 0 ≤ refs s (cwd, p)
  grows : GrowsDir s cwd size → (textEnd s cwd).1.toNat + 1 < 1110 ∧
    (strict → refs s (cwd, dataSlot ((textEnd s cwd).1.toNat + 1)) < 0)

/-- Of the inodes in `A`, only the directory `cwd` has changed. -/
structure OnlyDir (A : Set Int) (s t : FS) (cwd : Int) : Prop where
  avail : ∀ j, (t.inodeTable j).avail = (s.inodeTable j).avail
  stat_ne : ∀ j, j ≠ cwd → (t.inodeTable j).stat = (s.inodeTable j).stat
  mode : (t.inodeTable cwd).stat.stMode = (s.inodeTable cwd).stat.stMode
  refs_ne : ∀ x, x.1 ∈ A → x.1 ≠ cwd → refs t x = refs s x

/-- The directory `cwd` has been extended at its logical block `i`, which now holds
`blk`.  Blocks in use that it does not own are as they were. -/
structure Extends (A : Set Int) (s t : FS) (cwd : Int) (i : Nat) (blk : Block) : Prop
    extends OnlyDir A s t cwd where
  own : ∀ sl, sl.isIndex = false → sl ≠ dataSlot (i + 1) → refs t (cwd, sl) = refs s (cwd, sl)
  used : ∀ c, s.diskBlocks c ≠ FREE → t.diskBlocks c ≠ FREE
  text : 0 ≤ refs s (cwd, dataSlot i) → t.disk (refs s (cwd, dataSlot i)) = blk
  disk : ∀ c, 0 ≤ c → s.diskBlocks c ≠ FREE →
    (∀ sl, 0 ≤ refs s (cwd, sl) → refs s (cwd, sl) ≠ c) → t.disk c = s.disk c

section Append

variable {strict : Prop} {A held : Set Int} {s t : FS} {cwd : Int} {entry : Path}

/-- The search for the end of the text goes forward. -/
theorem textEndFrom_ge (s : FS) (nd : Inode) (n : Nat) (i : Int) :
    i ≤ (textEndFrom s nd n i).1 := by
  induction n generalizing i with
  | zero => exact le_refl i
  | succ n ih =>
      rw [textEndFrom]
      split
      · exact le_refl i
      · exact le_trans (by omega) (ih (i + 1))

/-- The text ends in a block with a number from 0 on. -/
theorem textEnd_nonneg (s : FS) (cwd : Int) : 0 ≤ (textEnd s cwd).1 :=
  textEndFrom_ge s _ 1110 0

/-- Writing what a data slot refers to, if anything, moves no reference. -/
theorem Books.write_data (h : Books strict A held s) (hcwd : cwd ∈ A) {sl : Slot}
    (hsl : sl.isIndex = false) (blk : Block) :
    Books strict A held (s.write (refs s (cwd, sl)) blk) ∧
      ∀ x : Int × Slot, x.1 ∈ A → refs (s.write (refs s (cwd, sl)) blk) x = refs s x := by
  have hrefs : ∀ x : Int × Slot, x.1 ∈ A →
      refs (s.write (refs s (cwd, sl)) blk) x = refs s x := by
    intro x hx
    by_cases h₀ : 0 ≤ refs s (cwd, sl)
    · exact h.refs_write_data hcwd hsl h₀ hx
    · exact refs_write_neg (not_le.mp h₀) x
  exact ⟨h.congr hrefs, hrefs⟩

/-- A block that is referred to is in use. -/
theorem Books.used_of_ref (h : Books strict A held s) {x : Int × Slot} (hx : x.1 ∈ A)
    (h₀ : 0 ≤ refs s x) : s.diskBlocks (refs s x) ≠ FREE := by
  rw [(h.ref_used x hx h₀).2.2]
  decide

/-- The directory `cwd` has grown, if `st_size` said so, by the second half of `buf` as
logical block `i + 1`.  Index blocks and the new block are all that has been written. -/
structure GrownDir (A : Set Int) (s t : FS) (cwd : Int) (i : Nat) (size : Int)
    (buf : Nat → UInt8) : Prop where
  keeps : Keeps s t
  refs_ne : ∀ x, x.1 ∈ A → x.1 ≠ cwd → refs t x = refs s x
  own : ∀ sl, sl.isIndex = false → sl ≠ dataSlot (i + 1) → refs t (cwd, sl) = refs s (cwd, sl)
  index : ∀ p, p.isIndex = true → 0 ≤ refs s (cwd, p) → refs t (cwd, p) = refs s (cwd, p)
  used : ∀ c, s.diskBlocks c ≠ FREE → t.diskBlocks c ≠ FREE
  disk : ∀ c, s.diskBlocks c ≠ FREE →
    (∀ p, p.isIndex = true → 0 ≤ refs s (cwd, p) → refs s (cwd, p) ≠ c) → t.disk c = s.disk c
  stays : ¬ GrowsDir s cwd size → t = s
  path : GrowsDir s cwd size → ∀ p ∈ indexPath (i + 1), 0 ≤ refs t (cwd, p)
  added : GrowsDir s cwd size → 0 ≤ refs t (cwd, dataSlot (i + 1)) ∧
    t.disk (refs t (cwd, dataSlot (i + 1))) = Block.ofFn fun j => buf (512 + j)

/-- A directory that gets no block. -/
theorem GrownDir.refl {A : Set Int} {s : FS} {cwd size : Int} {i : Nat} {buf : Nat → UInt8}
    (h : ¬ GrowsDir s cwd size) : GrownDir A s s cwd i size buf where
  keeps := Keeps.refl s
  refs_ne _ _ _ := rfl
  own _ _ _ := rfl
  index _ _ _ := rfl
  used _ hc := hc
  disk _ _ _ := rfl
  stays _ := rfl
  path hg := absurd hg h
  added hg := absurd hg h

/-- The growth of a directory touches index blocks, its new block, and nothing else
that is in use. -/
theorem growDir_spec (env : Env) (h : Books strict A ∅ s) (hcwd : cwd ∈ A) {i : Nat}
    {size : Int} (buf : Nat → UInt8) (hgrow : GrowsDir s cwd size → i + 1 < 1110 ∧
      (strict → refs s (cwd, dataSlot (i + 1)) < 0)) :
    OkUnless .noReturn (growDir env cwd i size buf s) fun t =>
      Books strict A ∅ t ∧ GrownDir A s t cwd i size buf := by
  unfold growDir
  split
  swap
  · rename_i hsize
    exact OkUnless.pure ⟨h, GrownDir.refl hsize⟩
  rename_i hsize
  obtain ⟨hi, hempty⟩ := hgrow hsize
  have hshort : toShort ((i : Int) + 1) = (i + 1 : Nat) := by
    rw [toShort_of_range (by omega) (by omega)]
    push_cast
    rfl
  refine (getBlock_outcome s).bind ?_
  rintro ⟨b, u⟩ hb
  dsimp only at hb ⊢
  have hrefs : refs u = refs s := by rw [hb.state]; rfl
  rw [hshort]
  refine (setBlockIndex_spec env (h.take hb) hcwd hi (Set.mem_insert b ∅)
    (fun hs => by rw [hrefs]; exact hempty hs)).bind ?_
  rintro v ⟨hp, hbooks⟩
  rw [Set.insert_sdiff_self_of_notMem (Set.notMem_empty b)] at hbooks
  have hused : ∀ c, s.diskBlocks c ≠ FREE → u.diskBlocks c ≠ FREE := fun c hc => by
    have hcb : c ≠ b := by
      rintro rfl
      exact hc hb.free
    rw [hb.state, FS.setUsed_diskBlocks, Function.update_of_ne hcb]
    exact hc
  -- the new block is the data block of its slot, so writing it moves no reference
  have hdata : refs v (cwd, dataSlot (i + 1)) = b := hp.data
  have hwrite : ∀ x : Int × Slot, x.1 ∈ A → ∀ blk, refs (v.write b blk) x = refs v x := by
    intro x hx blk
    rw [← hdata]
    exact hbooks.refs_write_data hcwd (isIndex_dataSlot _) (by rw [hdata]; exact hb.nonneg) hx
  refine OkUnless.pure ⟨hbooks.congr fun x hx => hwrite x hx _, ?_⟩
  exact
    { keeps := (hb.keeps.trans hp.keeps).trans (keeps_write v b _)
      refs_ne := fun x hx hne => by rw [hwrite x hx, hp.refs_ne x hx hne, hrefs]
      own := fun sl hsl hne => by
        rw [hwrite (cwd, sl) hcwd]
        rcases hp.other sl hne with heq | ⟨hmem, _⟩
        · rw [heq, hrefs]
        · rw [mem_indexPath_isIndex hmem] at hsl
          cases hsl
      index := fun p hidx h₀ => by
        have hpd : p ≠ dataSlot (i + 1) := by
          rintro rfl
          rw [isIndex_dataSlot] at hidx
          cases hidx
        rw [hwrite (cwd, p) hcwd]
        rcases hp.other p hpd with heq | ⟨_, hneg, _⟩
        · rw [heq, hrefs]
        · rw [hrefs] at hneg
          omega
      used := fun c hc => by
        rw [FS.write_diskBlocks, hp.used c (hused c hc)]
        exact hused c hc
      disk := fun c hc hidx => by
        have hcb : c ≠ b := by
          rintro rfl
          exact hc hb.free
        rw [write_disk_ne hcb, hp.disk c, hb.state, FS.setUsed_disk]
        intro p hpm heq
        have hpd : p ≠ dataSlot (i + 1) := by
          rintro rfl
          exact not_mem_indexPath _ _ hpm
        have hpos := hp.path p hpm
        rcases hp.other p hpd with hsame | ⟨_, _, _, _, hfree⟩
        · rw [hsame, hrefs] at hpos heq
          exact hidx p (mem_indexPath_isIndex hpm) hpos heq
        · rw [heq] at hfree
          exact hused c hc hfree
      stays := fun hno => absurd hsize hno
      path := fun _ p hpm => by
        rw [hwrite (cwd, p) hcwd]
        exact hp.path p hpm
      added := fun _ => by
        rw [hwrite (cwd, dataSlot (i + 1)) hcwd, hdata]
        exact ⟨hb.nonneg, write_disk_self⟩ }

/-- **Entering a name in a directory that can take it.** -/
theorem appendEntry_spec (env : Env) (h : Books strict A ∅ s) (hcwd : cwd ∈ A)
    (hfit : DirFits strict s cwd (entry.length + 1)) :
    OkUnless .noReturn (appendEntry env cwd entry s) fun t =>
      Books strict A ∅ t ∧ Extends A s t cwd (textEnd s cwd).1.toNat
        (Block.ofFn (appendBuffer env
          (blockRead s.disk (refs s (cwd, dataSlot (textEnd s cwd).1.toNat)))
          (textEnd s cwd).2 entry)) := by
  obtain ⟨hlt, hmapped, hgrows⟩ := hfit
  have hnonneg := textEnd_nonneg s cwd
  refine appendEntry_outcome ?_
  unfold putEntry
  generalize hpos : textEnd s cwd = textPos at hlt hmapped hgrows hnonneg ⊢
  obtain ⟨i, pos⟩ := textPos
  dsimp only at hlt hmapped hgrows hnonneg ⊢
  obtain ⟨n, rfl⟩ : ∃ n : Nat, i = n := ⟨i.toNat, by omega⟩
  rw [Int.toNat_natCast] at hlt hmapped hgrows ⊢
  have hidx : getBlockIndex s.disk (s.inodeTable cwd) n = refs s (cwd, dataSlot n) :=
    getBlockIndex_eq hlt (hmapped n (le_refl n))
  rw [hidx]
  generalize appendBuffer env (blockRead s.disk (refs s (cwd, dataSlot n))) pos entry = buf
  generalize hblk : Block.ofFn buf = blk
  obtain ⟨hbooks, hrefs⟩ := h.write_data hcwd (isIndex_dataSlot n) blk
  have hkept : ∀ sl, refs (s.write (refs s (cwd, dataSlot n)) blk) (cwd, sl) =
      refs s (cwd, sl) := fun sl => hrefs (cwd, sl) hcwd
  refine (growDir_spec env hbooks hcwd buf (fun hg => ?_)).bind ?_
  · rw [hkept]
    exact hgrows hg
  rintro t ⟨ht, hg⟩
  refine OkUnless.pure ⟨ht.congr fun x _ => refs_modStat _ _ _ _, ?_⟩
  refine
    { avail := fun j => by rw [FS.modStat_avail, hg.keeps.avail]; rfl
      stat_ne := fun j hj => by
        rw [FS.modStat_inodeTable_ne _ _ _ hj, hg.keeps.stat]
        rfl
      mode := by
        rw [FS.modStat_stat_self, hg.keeps.stat]
        rfl
      refs_ne := fun x hx hxne => by rw [refs_modStat, hg.refs_ne x hx hxne, hrefs x hx]
      own := fun sl hsl hsl' => by rw [refs_modStat, hg.own sl hsl hsl', hkept]
      used := fun c hc => hg.used c hc
      text := fun h₀ => ?_
      disk := fun c hc₀ hc hc' => ?_ }
  · rw [FS.modStat_disk, hg.disk _ (h.used_of_ref (x := (cwd, dataSlot n)) hcwd h₀),
      write_disk_self]
    intro p hp _
    rw [hkept]
    refine h.ref_ne (x := (cwd, dataSlot n)) (y := (cwd, p)) hcwd hcwd ?_ h₀
    rw [Ne, Prod.mk.injEq]
    rintro ⟨_, rfl⟩
    rw [isIndex_dataSlot] at hp
    cases hp
  · rw [FS.modStat_disk, hg.disk c hc fun p _ hpos => by
      rw [hkept] at hpos ⊢
      exact hc' p hpos]
    by_cases h₀ : 0 ≤ refs s (cwd, dataSlot n)
    · exact write_disk_ne (Ne.symm (hc' _ h₀))
    · exact write_disk_ne (by omega)

end Append

/-- The directory `cwd` has lost an entry: its first block holds `blk`, and the slot of
logical block `n` may have been given up. -/
structure Reduces (A : Set Int) (s t : FS) (cwd : Int) (n : Nat) (blk : Block) : Prop
    extends OnlyDir A s t cwd where
  own : ∀ sl, sl ≠ dataSlot n → refs t (cwd, sl) = refs s (cwd, sl)
  text : n ≠ 0 → 0 ≤ refs s (cwd, dataSlot 0) → t.disk (refs s (cwd, dataSlot 0)) = blk
  disk : ∀ c, refs s (cwd, dataSlot 0) ≠ c → t.disk c = s.disk c

section Remove

variable {strict : Prop} {A held : Set Int} {s t : FS} {cwd : Int} {entry : Path}

private theorem marked_free (s : FS) (b : Int) : marked (s.setUsed b FREE) = marked s \ {b} := by
  ext c
  by_cases hc : c = b
  · simp [marked, hc]
  · simp [marked, hc]

/-- A directory is read as one block or none. -/
theorem dirBlocks_cases (size : Int) : dirBlocks size = 0 ∨ dirBlocks size = 1 := by
  unfold dirBlocks
  split
  · exact Or.inr rfl
  · exact Or.inl rfl

private theorem getBlockIndex_direct (s : FS) (cwd : Int) {n : Nat} (hn : n < 10) :
    getBlockIndex s.disk (s.inodeTable cwd) n = refs s (cwd, dataSlot n) :=
  getBlockIndex_eq (by omega) (by
    intro p hp
    rw [indexPath, if_pos hn] at hp
    cases hp)

/-- Giving up logical block `n < 10`. -/
theorem shrinkDir_spec (env : Env) (h : Books strict A ∅ s) (hcwd : cwd ∈ A)
    {size resize : Int} {n : Nat} (hn : n < 10) :
    ∃ t, shrinkDir env cwd size resize n s = .ok t ∧ Books strict A ∅ t ∧ Keeps s t ∧
      t.disk = s.disk ∧
      (∀ x : Int × Slot, x.1 ≠ cwd ∨ x.2 ≠ dataSlot n → refs t x = refs s x) := by
  unfold shrinkDir
  split
  swap
  · exact ⟨s, rfl, h, Keeps.refl s, rfl, fun _ _ => rfl⟩
  have hslot : dataSlot n = .direct (Fin.ofNat 10 n) := if_pos hn
  have hrefs : ∀ x : Int × Slot, refs ((s.setUsed
      (getBlockIndex s.disk (s.inodeTable cwd) n) FREE).setBlocks cwd n (-1)) x =
      Function.update (refs s) (cwd, dataSlot n) (-1) x := fun x => by
    rw [hslot]
    exact refs_setBlocks_direct hn x
  refine ⟨(s.setUsed (getBlockIndex s.disk (s.inodeTable cwd) n) FREE).setBlocks cwd n (-1),
    ?_, ?_, ?_, rfl, fun x hx => ?_⟩
  · unfold setBlockIndex
    rw [if_pos (by omega)]
    rfl
  · have hled := Ledger.release h (x := (cwd, dataSlot n)) hcwd
    rw [← marked_free, ← getBlockIndex_direct s cwd hn] at hled
    exact hled.congr fun x _ => hrefs x
  · exact (keeps_setUsed s _ _).trans (keeps_setBlocks _ cwd n (-1))
  · rw [hrefs, Function.update_of_ne]
    rintro rfl
    rcases hx with hx | hx <;> exact hx rfl

/-- **Deleting an entry of a directory.** -/
theorem removeEntry_spec (env : Env) (h : Books strict A ∅ s) (hcwd : cwd ∈ A) :
    Post (removeEntry env cwd entry s) fun t =>
      Books strict A ∅ t ∧
      Reduces A s t cwd (dirBlocks (toInt (s.inodeTable cwd).stat.stSize)).toNat
        (textBlock (removeSubstring
          (dirString env s cwd (dirBlocks (toInt (s.inodeTable cwd).stat.stSize))) entry)) := by
  unfold removeEntry
  generalize htext : removeSubstring
    (dirString env s cwd (dirBlocks (toInt (s.inodeTable cwd).stat.stSize))) entry = text
  dsimp only
  rw [htext]
  split
  · exact Post.error _
  generalize hn : dirBlocks (toInt (s.inodeTable cwd).stat.stSize) = blocks
  have hcases : blocks = 0 ∨ blocks = 1 := by
    rw [← hn]
    exact dirBlocks_cases _
  obtain ⟨n, rfl, hn₂⟩ : ∃ n : Nat, blocks = n ∧ n < 2 := by
    rcases hcases with h | h
    · exact ⟨0, h, by omega⟩
    · exact ⟨1, h, by omega⟩
  rw [Int.toNat_natCast]
  have hzero : getBlockIndex s.disk (s.inodeTable cwd) 0 = refs s (cwd, dataSlot 0) :=
    getBlockIndex_direct s cwd (n := 0) (by omega)
  -- the text goes back to the first block, if there was a text
  have hstore : Books strict A ∅ (storeText cwd n text s) ∧
      (∀ x : Int × Slot, x.1 ∈ A → refs (storeText cwd n text s) x = refs s x) ∧
      (n ≠ 0 → 0 ≤ refs s (cwd, dataSlot 0) →
        (storeText cwd n text s).disk (refs s (cwd, dataSlot 0)) = textBlock text) ∧
      ∀ c, refs s (cwd, dataSlot 0) ≠ c → (storeText cwd n text s).disk c = s.disk c := by
    unfold storeText
    split
    · rename_i hn₀
      exact ⟨h, fun _ _ => rfl, fun hne => absurd (by exact_mod_cast hn₀) hne, fun _ _ => rfl⟩
    · rw [hzero]
      obtain ⟨hbooks, hrefs⟩ := h.write_data hcwd (isIndex_dataSlot 0) (textBlock text)
      exact ⟨hbooks, hrefs, fun _ _ => write_disk_self, fun c hc => write_disk_ne (Ne.symm hc)⟩
  obtain ⟨hbooks, hrefs, htxt, hdisk⟩ := hstore
  obtain ⟨t, hok, ht, hkeeps, htdisk, hother⟩ := shrinkDir_spec env hbooks hcwd
    (n := n) (by omega)
  have hkept := (storeText_keeps cwd n text s).trans hkeeps
  rw [hok, ok_bind]
  refine Post.ok ⟨ht.congr fun x _ => refs_modStat _ _ _ _, ?_⟩
  exact
    { avail := fun j => by rw [FS.modStat_avail, hkept.avail]
      stat_ne := fun j hj => by rw [FS.modStat_inodeTable_ne _ _ _ hj, hkept.stat]
      mode := by
        rw [FS.modStat_stat_self, hkept.stat]
      refs_ne := fun x hx hne => by rw [refs_modStat, hother x (Or.inl hne), hrefs x hx]
      own := fun sl hsl => by
        rw [refs_modStat, hother (cwd, sl) (Or.inr hsl), hrefs (cwd, sl) hcwd]
      text := fun hne h₀ => by rw [FS.modStat_disk, htdisk, htxt hne h₀]
      disk := fun c hc => by rw [FS.modStat_disk, htdisk, hdisk c hc] }

end Remove

end Sfs
