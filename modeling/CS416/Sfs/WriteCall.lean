import CS416.Sfs.Growth

/-!
# The specification of `sfs_write`

A write that the block map can take grows the file, then stores the data.  The
state in between is part of the specification: the two parts touch different
things.
-/

namespace Sfs

open CInt Outcome

/-- The blocks that a write up to `total` adds to a file of `size` bytes. -/
def addedBlocks (total size : Int) : Nat := (blocksOf total - blocksOf size).toNat

/-- A file of `B` blocks and `S` bytes can take the write: it stays within the
limit of 1110 blocks, and no block of the range lies behind an index block
that the file does not have. -/
def WriteFits (B S offset size : Int) : Prop :=
  0 ≤ offset ∧ B + addedBlocks (offset + size) S ≤ 1110 ∧
    ∀ n, offset / 512 ≤ n → n < blocksOf (offset + size) →
      Resolves (B + addedBlocks (offset + size) S) n

/-- A write that fits ends below 16 MB. -/
theorem WriteFits.total_le {B S offset size : Int} (h : WriteFits B S offset size)
    (hsize : 1 ≤ size) : offset + size ≤ 16777216 := by
  obtain ⟨h₀, _, hres⟩ := h
  have hlast := hres (blocksOf (offset + size) - 1) (by unfold blocksOf; omega) (by omega)
  unfold Resolves blocksOf at hlast
  omega

/-- Every block of the range is among the `B` blocks of the file. -/
def RangeMapped (B offset size : Int) : Prop :=
  ∀ n, offset / 512 ≤ n → n < blocksOf (offset + size) → n < B ∧ n < 1110

/-- What `sfs_write` does to a file of `B` blocks: `u` is the state after the
resizing and `v` the state after the write-back. -/
structure Wrote (A : Set Int) (s u v t : FS) (ino : Int) (B m : Nat) (buf : Nat → UInt8)
    (size : Nat) (offset : Int) : Prop where
  grew : Grew A s u ino B m
  stored : Stored A u v ino (B + m) (offset / 512).toNat (blocksOf (offset + size)).toNat
    (contBuffer (blockRead u.disk (getBlockIndex u.disk (u.inodeTable ino) (offset / 512)))
      (offset % 512).toNat buf size)
  state : t = v.modStat ino fun st => { st with stSize := toInt64 (st.stSize + size) }

section Write

variable {strict : Prop} {A held : Set Int} {s t u v : FS} {ino : Int} {B m : Nat}
  {buf : Nat → UInt8} {size : Nat} {offset : Int}

/-- Storing the bytes leaves the inodes alone. -/
theorem Stored.inodeTable {first last : Nat} {data : Nat → UInt8}
    (h : Stored A s t ino B first last data) : t.inodeTable = s.inodeTable := by
  obtain ⟨d, rfl⟩ := h.frame
  rfl

/-- It takes no block. -/
theorem Stored.diskBlocks {first last : Nat} {data : Nat → UInt8}
    (h : Stored A s t ino B first last data) : t.diskBlocks = s.diskBlocks := by
  obtain ⟨d, rfl⟩ := h.frame
  rfl

namespace Wrote

/-- The references are those after the growth. -/
theorem refs_eq (h : Wrote A s u v t ino B m buf size offset) {x : Int × Slot}
    (hx : x.1 ∈ A) : refs t x = refs u x := by
  rw [h.state, refs_modStat, h.stored.refs_eq x hx]

/-- The file has the new blocks. -/
theorem shape (h : Wrote A s u v t ino B m buf size offset) (hino : ino ∈ A) :
    Shape t ino (B + m) := fun sl => by
  rw [h.refs_eq (x := (ino, sl)) hino]
  exact h.grew.shape sl

/-- The other inodes refer to the same blocks. -/
theorem refs_ne (h : Wrote A s u v t ino B m buf size offset) {x : Int × Slot} (hx : x.1 ∈ A)
    (hne : x.1 ≠ ino) : refs t x = refs s x := by
  rw [h.refs_eq hx, h.grew.refs_ne x hx hne]

/-- The attributes of the file: its size and its blocks have grown. -/
theorem stat (h : Wrote A s u v t ino B m buf size offset) :
    (t.inodeTable ino).stat =
      { (s.inodeTable ino).stat with
        stBlocks := (s.inodeTable ino).stat.stBlocks + m
        stSize := toInt64 ((s.inodeTable ino).stat.stSize + size) } := by
  rw [h.state, FS.modStat_stat_self, h.stored.inodeTable, h.grew.stat]

/-- Those of the others are as before. -/
theorem stat_ne (h : Wrote A s u v t ino B m buf size offset) {j : Int} (hj : j ≠ ino) :
    (t.inodeTable j).stat = (s.inodeTable j).stat := by
  rw [h.state, FS.modStat_inodeTable_ne _ _ _ hj, h.stored.inodeTable, h.grew.stat_ne j hj]

/-- So are their arrays `blocks`. -/
theorem blocks_ne (h : Wrote A s u v t ino B m buf size offset) {j : Int} (hj : j ≠ ino) :
    (t.inodeTable j).blocks = (s.inodeTable j).blocks := by
  rw [h.state, FS.modStat_inodeTable_ne _ _ _ hj, h.stored.inodeTable, h.grew.blocks_ne j hj]

/-- The handles are as before. -/
theorem opens (h : Wrote A s u v t ino B m buf size offset) : t.openFiles = s.openFiles := by
  obtain ⟨d, hv⟩ := h.stored.frame
  rw [h.state, FS.modStat_openFiles, hv]
  exact h.grew.opens

/-- No inode is taken or freed. -/
theorem avail (h : Wrote A s u v t ino B m buf size offset) (j : Int) :
    (t.inodeTable j).avail = (s.inodeTable j).avail := by
  rw [h.state, FS.modStat_avail, h.stored.inodeTable, h.grew.avail]

/-- The marks are those after the growth. -/
theorem diskBlocks (h : Wrote A s u v t ino B m buf size offset) :
    t.diskBlocks = u.diskBlocks := by
  rw [h.state, FS.modStat_diskBlocks, h.stored.diskBlocks]

/-- The account after the growth is that after the write, -/
theorem books (h : Wrote A s u v t ino B m buf size offset) (hu : Books strict A held u) :
    Books strict A held t := by
  unfold Books
  rw [marked_congr h.diskBlocks]
  exact hu.congr fun x hx => h.refs_eq hx

/-- and the other way round. -/
theorem books_between (h : Wrote A s u v t ino B m buf size offset)
    (ht : Books strict A held t) : Books strict A held u := by
  unfold Books
  rw [← marked_congr h.diskBlocks]
  exact ht.congr fun x hx => (h.refs_eq hx).symm

/-- **A block that the inode does not refer to afterwards is not written**, except for block
`-1` if the range holds a block that the file does not have. -/
theorem disk_eq (h : Wrote A s u v t ino B m buf size offset) (hino : ino ∈ A) {c : Int}
    (hdom : 0 ≤ c ∨ RangeMapped (B + m) offset size)
    (hc : ∀ sl, 0 ≤ refs t (ino, sl) → refs t (ino, sl) ≠ c) : t.disk c = s.disk c := by
  have hne : ∀ sl, rank sl < B + m → refs u (ino, sl) ≠ c := fun sl hsl => by
    rw [← h.refs_eq (x := (ino, sl)) hino]
    exact hc sl ((h.shape hino sl).mpr hsl)
  have hwritten : 0 ≤ c ∨ ∀ n, (offset / 512).toNat ≤ n → n < (blocksOf (offset + size)).toNat →
      n < B + m ∧ n < 1110 :=
    hdom.imp_right fun hin n h₁ h₂ => by
      have hn := hin n (by omega) (by omega)
      omega
  rw [h.state, FS.modStat_disk, h.stored.disk c hwritten fun n _ _ hn hn' =>
      hne (dataSlot n) (by rw [rank_dataSlot hn']; exact hn),
    h.grew.disk c fun p _ hp => hne p hp]

end Wrote

/-- **`sfs_write` on a file that can take it.** -/
theorem sfsWrite_spec (env : Env) (fh : Int) (h : Books strict A held s) (hino : ino ∈ A)
    (hfh : ¬ handleOutOfRange fh) (hopen : (s.openFiles (handleIndex fh)).stIno = ino)
    (hino₀ : 0 ≤ ino) (hshape : Shape s ino B)
    (hcount : (s.inodeTable ino).stat.stBlocks = B)
    (hsize : (s.inodeTable ino).stat.stSize < 9223372036854775808)
    (hoff : offset ≤ (s.inodeTable ino).stat.stSize) (h₁ : 1 ≤ size)
    (hfit : WriteFits B (s.inodeTable ino).stat.stSize offset size) :
    OkUnless .noReturn (sfsWrite env fh buf size offset s) fun r =>
      r.1 = size ∧ Books strict A held r.2 ∧
        ∃ u v, Wrote A s u v r.2 ino B
          (addedBlocks (offset + size) (s.inodeTable ino).stat.stSize) buf size offset := by
  have htotal := hfit.total_le (by exact_mod_cast h₁)
  obtain ⟨h₀, hlimit, hres⟩ := hfit
  have hu64 : toU64 (offset + size) = offset + size := toU64_of_range (by omega) (by omega)
  unfold sfsWrite
  simp only [hopen]
  rw [if_neg hfh, if_neg (show ¬ ino < 0 by omega), if_neg (not_lt.mpr hoff), hu64]
  refine (growFile_spec env h hino hshape hcount (by omega) hsize (by omega) htotal
    (by unfold addedBlocks at hlimit; omega)).bind ?_
  rintro ⟨r, u⟩ ⟨hr, hgrew, hbooks⟩
  dsimp only at hr hgrew hbooks ⊢
  subst r
  rw [if_neg (by decide)]
  obtain ⟨v, hok, hstored⟩ := writeData_spec hbooks hino hgrew.shape buf size offset h₀ h₁
    htotal (fun n hn₀ hn₁ => by
      have hn := hres n hn₀ hn₁
      unfold addedBlocks at hn
      push_cast
      exact hn)
  rw [hok]
  have hwrote : Wrote A s u v _ ino B
      (addedBlocks (offset + size) (s.inodeTable ino).stat.stSize) buf size offset :=
    ⟨hgrew, hstored, rfl⟩
  exact Or.inr ⟨_, rfl, rfl, hwrote.books hbooks, u, v, hwrote⟩

end Write

end Sfs
