import CS416.Sfs.DirText
import CS416.Sfs.Filling

/-!
# The limit of a write

The growth loop of `sfs_write` takes and enters one block after the other, and
tests the limit and the result of `get_block` only when it comes to them.  A
write that the file and the disk can take is stored and read back; a write
beyond the limit fails late and keeps what has been added.
-/

namespace Sfs

open CInt Outcome

/-- The number of index blocks of a file of `n` blocks. -/
def indexBlocks (n : Nat) : Nat :=
  if n ≤ 10 then 0 else if n ≤ 110 then 1 else 2 + (n - 11) / 100

/-- Enough blocks are free for a write: those it adds, and the index blocks above them. -/
def EnoughFree (s : FS) (ino : Int) (size : Nat) (offset : Int) : Prop :=
  let st := (s.inodeTable ino).stat
  let added := addedBlocks (offset + size) st.stSize
  FreeBlocks (added + (indexBlocks (st.stBlocks.toNat + added) - indexBlocks st.stBlocks.toNat)) s

/-- The bytes written are read back, in every range. -/
def ReadsBack (t : FS) (fh : Int) (buf : Nat → UInt8) (size : Nat) (offset : Int) : Prop :=
  ∀ o n : Nat, offset ≤ o → o + n ≤ offset + size → 1 ≤ n →
    sfsRead fh n o t = .ok ((n : Int), (List.range n).map fun j => buf (o + j - offset.toNat))

/-- The file `ino` and all marks are as before. -/
structure SameFile (s t : FS) (ino : Int) : Prop where
  size : (t.inodeTable ino).stat.stSize = (s.inodeTable ino).stat.stSize
  count : (t.inodeTable ino).stat.stBlocks = (s.inodeTable ino).stat.stBlocks
  blocks : ∀ j, 0 ≤ j → j < 12 → (t.inodeTable ino).blocks j = (s.inodeTable ino).blocks j
  index : ∀ sl : Slot, sl.isIndex = true → 0 ≤ refs s (ino, sl) →
    blockRead t.disk (refs s (ino, sl)) = blockRead s.disk (refs s (ino, sl))
  marks : ∀ b, 0 ≤ b → b < numBlocks → t.diskBlocks b = s.diskBlocks b

/-- What a write promises: it returns its size and the bytes are read back, or it returns a
negative error and leaves the file as it was; and while enough blocks are free it returns
`-EFBIG` if and only if the file would need a logical block from 1110 on. -/
def WriteContract (env : Env) (fh : Int) (buf : Nat → UInt8) (size : Nat) (offset : Int)
    (s : FS) : Prop :=
  let ino := (s.openFiles (handleIndex fh)).stIno
  ∃ r t, sfsWrite env fh buf size offset s = .ok (r, t) ∧
    (r = size ∧ ReadsBack t fh buf size offset ∨ r < 0 ∧ SameFile s t ino) ∧
    (EnoughFree s ino size offset → (r = -EFBIG ↔ 1110 < blocksOf (offset + size)))

/-- The file and the disk can take the write: the file has, or gets, a block for every byte
up to its end, within the limit; `st_size` stays a 64-bit number; and enough blocks are free. -/
structure CanStore (s : FS) (ino : Int) (size : Nat) (offset : Int) : Prop where
  backed : blocksOf (offset + size) ≤ (s.inodeTable ino).stat.stBlocks +
    addedBlocks (offset + size) (s.inodeTable ino).stat.stSize
  limit : (s.inodeTable ino).stat.stBlocks +
    addedBlocks (offset + size) (s.inodeTable ino).stat.stSize ≤ 1110
  range : (s.inodeTable ino).stat.stSize + size < 9223372036854775808
  free : EnoughFree s ino size offset

section Growth

variable {strict : Prop} {A held : Set Int} {s t u v : FS} {ino : Int} {B m k : Nat}

/-- A file in its shape needs the index blocks that its next logical block is the first
to need. -/
theorem Shape.indexNeeds (h : Shape s ino B) (hB : B < 1110) :
    Sfs.indexNeeds s ino B = indexBlocks (B + 1) - indexBlocks B := by
  have hsingle : 0 ≤ (s.inodeTable ino).blocks 10 ↔ 10 < B := h .single
  have hdouble : 0 ≤ (s.inodeTable ino).blocks 11 ↔ 110 < B := h .double
  unfold Sfs.indexNeeds indexBlocks
  dsimp only
  by_cases h₁ : B < 10
  · rw [if_pos (by omega), if_pos (by omega), if_pos (by omega)]
  by_cases h₂ : B < 110
  · rw [if_neg (by omega), if_pos (by omega)]
    split_ifs <;> omega
  rw [if_neg (by omega), if_neg (by omega), if_pos (by omega)]
  by_cases h₃ : 110 < B
  · rw [if_neg (not_lt.mpr (hdouble.mpr h₃))]
    -- the entry is that of the sub-block that the logical block belongs to
    have hsub : 0 ≤ refs s (ino, .sub (Fin.ofNat 10 ((B - 110) / 100))) ↔
        110 + 100 * ((B - 110) / 100) < B := by
      rw [h, rank, Fin.val_ofNat, Nat.mod_eq_of_lt (by omega)]
    rw [refs, slotRef, entry_nonneg _ (hdouble.mpr h₃), Fin.val_ofNat,
      Nat.mod_eq_of_lt (show (B - 110) / 100 < 10 by omega)] at hsub
    have hindex : (((B : Int) - 110) / 100).toNat = (B - 110) / 100 := by omega
    rw [hindex]
    split_ifs <;> omega
  · obtain rfl : B = 110 := by omega
    rw [if_pos (not_le.mp fun h₀ => h₃ (hdouble.mp h₀))]
    rfl

/-- One round of the growth loop finds its blocks. -/
theorem growStep_returns (env : Env) (h : Shape s ino B) (hB : B < 1110)
    (hfree : FreeBlocks (k + (1 + (indexBlocks (B + 1) - indexBlocks B))) s) :
    ∃ t, (do
        let (block, s) ← getBlock s
        let s ← setBlockIndex env ino B block s
        return s.modStat ino fun st => { st with stBlocks := st.stBlocks + 1 }) =
      (.ok t : Except Stop FS) ∧ FreeBlocks k t := by
  rw [← h.indexNeeds hB] at hfree
  obtain ⟨b, hget, hfree₁⟩ := FreeBlocks.getBlock (k := k + Sfs.indexNeeds s ino B)
    (hfree.mono (by omega))
  obtain ⟨u, hset, hfree₂⟩ := FreeBlocks.setBlockIndex (s := s.setUsed b ALLOCD) hfree₁ env b
  rw [hget, ok_bind]
  dsimp only
  rw [hset]
  exact ⟨_, rfl, hfree₂⟩

/-- **Below the limit the growth loop finds its blocks.** -/
theorem growLoop_returns (env : Env) (n : Nat) (h : Books strict A held s) (hino : ino ∈ A)
    (hshape : Shape s ino B) (hB : B + n ≤ 1110)
    (hfree : FreeBlocks (n + (indexBlocks (B + n) - indexBlocks B)) s) :
    growLoop env ino n B s ≠ .error .noReturn := by
  induction n generalizing s B with
  | zero => exact nofun
  | succ n ih =>
      have hmono : indexBlocks B ≤ indexBlocks (B + 1) ∧
          indexBlocks (B + 1) ≤ indexBlocks (B + (n + 1)) := by
        unfold indexBlocks
        constructor <;> split_ifs <;> omega
      obtain ⟨t, hstep, hfree'⟩ := growStep_returns (k := n +
        (indexBlocks (B + (n + 1)) - indexBlocks (B + 1))) env hshape (by omega)
        (hfree.mono (by omega))
      obtain ⟨hgrew, hbooks⟩ := (growStep_spec env h hino hshape (by omega)).post t hstep
      rw [growLoop_succ env (by omega) n, hstep, ok_bind]
      apply ih hbooks hgrew.shape (by omega)
      rwa [Nat.add_assoc, Nat.add_comm 1 n]

/-- **Beyond the limit the growth loop fails**, after it has entered blocks up to 1110. -/
theorem growLoop_limit (env : Env) (ino : Int) (n : Nat) {i : Int} (h₀ : 0 ≤ i) (h₁ : i ≤ 1111)
    (hn : 1111 < i + n) (hfree : FreeBlocks (3 * n) s) :
    ∃ t, growLoop env ino n i s = .ok (-EFBIG, t) ∧
      (t.inodeTable ino).stat.stSize = (s.inodeTable ino).stat.stSize ∧
      (t.inodeTable ino).stat.stBlocks = (s.inodeTable ino).stat.stBlocks + (1111 - i) := by
  induction n generalizing s i with
  | zero => omega
  | succ n ih =>
      obtain ⟨b, hget, hfree₁⟩ := FreeBlocks.getBlock (k := 3 * n + 2) hfree
      obtain ⟨hb₀, _⟩ := (getBlock_outcome s).post _ hget
      dsimp only at hb₀
      rw [growLoop, hget, ok_bind]
      dsimp only
      rw [if_neg (not_lt.mpr hb₀)]
      by_cases hi : i = 1111
      · rw [if_pos (by simp only [maxFileBlocks]; omega)]
        refine ⟨_, rfl, rfl, ?_⟩
        rw [FS.setUsed_inodeTable, hi]
        omega
      · rw [if_neg (by simp only [maxFileBlocks]; omega)]
        have hneeds := indexNeeds_le (s.setUsed b ALLOCD) ino (toShort i)
        obtain ⟨u, hset, hfree₂⟩ :=
          (hfree₁.mono (Nat.add_le_add_left hneeds (3 * n))).setBlockIndex env b
        have hkeeps := (setBlockIndex_keeps env ino (toShort i) b _).post u hset
        rw [hset, ok_bind]
        obtain ⟨t, hloop, hsize, hcount⟩ := ih (s := u.modStat ino fun st =>
          { st with stBlocks := st.stBlocks + 1 }) (i := i + 1) (by omega) (by omega)
          (by push_cast at hn; omega) (hfree₂.congr rfl)
        refine ⟨t, hloop, ?_, ?_⟩
        · rw [hsize, FS.modStat_stat_self, hkeeps.stat, FS.setUsed_inodeTable]
        · rw [hcount, FS.modStat_stat_self, hkeeps.stat, FS.setUsed_inodeTable]
          dsimp only
          omega

end Growth

section Write

variable {strict : Prop} {A held : Set Int} {s t u v : FS} {ino fh offset : Int} {B m size : Nat}
  {buf : Nat → UInt8}

private theorem writeData_ne_noReturn (ino : Int) (buf : Nat → UInt8) (size : Nat) (offset : Int)
    (s : FS) : writeData ino buf size offset s ≠ .error .noReturn := by
  unfold writeData
  dsimp only
  split <;> exact nofun

/-- The resizing finds its blocks. -/
theorem growFile_returns (env : Env) {total : Int} (h : Books strict A held s) (hino : ino ∈ A)
    (hshape : Shape s ino B) (hcount : (s.inodeTable ino).stat.stBlocks = B)
    (hsize₀ : 0 ≤ (s.inodeTable ino).stat.stSize)
    (hsize₁ : (s.inodeTable ino).stat.stSize < 9223372036854775808)
    (ht₀ : 0 ≤ total) (ht₁ : total ≤ 16777216)
    (hm : addedBlocks total (s.inodeTable ino).stat.stSize = m) (hfit : B + m ≤ 1110)
    (hfree : FreeBlocks (m + (indexBlocks (B + m) - indexBlocks B)) s) :
    growFile env ino total s ≠ .error .noReturn := by
  have hround : toU64 (roundUp (s.inodeTable ino).stat.stSize) =
      blocksOf (s.inodeTable ino).stat.stSize * 512 := by
    rw [roundUp_eq hsize₀, toU64_of_range] <;> unfold blocksOf <;> omega
  unfold addedBlocks at hm
  unfold growFile
  dsimp only
  rw [hround, hcount]
  split
  · rename_i hgrow
    have hbig : (s.inodeTable ino).stat.stSize < 16777216 := by
      unfold blocksOf at hgrow
      omega
    rw [blocksNeeded_eq ht₀ ht₁ hsize₀ hbig, toInt_of_range (by omega) (by omega), hm]
    exact growLoop_returns env m h hino hshape hfit hfree
  · exact nofun

/-- The bytes of a file that `sfs_write` has just written. -/
theorem Wrote.byte_eq (h : Wrote A s u v t ino B m buf size offset) (hino : ino ∈ A)
    (ht : Books strict A held t) (h₀ : 0 ≤ offset) (hbacked : blocksOf (offset + size) ≤ B + m)
    (hlimit : B + m ≤ 1110) {p : Nat} (hp : offset ≤ p) (hp' : p < offset + size) :
    (blockRead t.disk (getBlockIndex t.disk (t.inodeTable ino) (p / 512 : Nat))).byte (p % 512) =
      buf (p - offset.toNat) := by
  have hn : p / 512 < B + m := by
    unfold blocksOf at hbacked
    omega
  have hn' : p / 512 < 1110 := by omega
  have hindex : getBlockIndex t.disk (t.inodeTable ino) (p / 512 : Nat) =
      refs t (ino, dataSlot (p / 512)) := by
    refine getBlockIndex_eq hn' ((h.shape hino).path_of_resolves hn' ?_)
    unfold Resolves
    omega
  have hpos : 0 ≤ refs t (ino, dataSlot (p / 512)) := by
    rw [h.shape hino, rank_dataSlot hn']
    exact hn
  have hself : refs t (ino, dataSlot (p / 512)) = refs u (ino, dataSlot (p / 512)) :=
    h.refs_eq (x := (ino, dataSlot (p / 512))) hino
  have hdisk : t.disk = v.disk := by
    rw [h.state]
    rfl
  have hlt := ht.ref_lt (x := (ino, dataSlot (p / 512))) hino hpos
  rw [hindex, blockRead_of_lt hlt, hdisk, hself,
    h.stored.data (p / 512) (by omega) (by unfold blocksOf; omega) hn hn' (p % 512) (by omega),
    contBuffer, if_pos (by omega)]
  congr 1
  omega

/-- A write that the file can take fits into its block map. -/
theorem CanStore.fits (h : CanStore s ino size offset) (h₀ : 0 ≤ offset)
    (hcount : (s.inodeTable ino).stat.stBlocks = B) :
    WriteFits B (s.inodeTable ino).stat.stSize offset size := by
  have hbacked := h.backed
  have hlimit := h.limit
  rw [hcount] at hbacked hlimit
  refine ⟨h₀, hlimit, fun n hn₀ hn₁ => ?_⟩
  unfold Resolves
  omega

/-- **A write that the file and the disk can take.** -/
theorem sfsWrite_stores (env : Env) (buf : Nat → UInt8) (h : Books strict A held s) (hino : ino ∈ A)
    (hfh : ¬ handleOutOfRange fh) (hopen : (s.openFiles (handleIndex fh)).stIno = ino)
    (hino₀ : 0 ≤ ino) (hshape : Shape s ino B)
    (hcount : (s.inodeTable ino).stat.stBlocks = B) (h₀ : 0 ≤ offset)
    (hoff : offset ≤ (s.inodeTable ino).stat.stSize) (h₁ : 1 ≤ size)
    (hcan : CanStore s ino size offset) :
    ∃ t u v, sfsWrite env fh buf size offset s = .ok ((size : Int), t) ∧
      Books strict A held t ∧ Wrote A s u v t ino B
        (addedBlocks (offset + size) (s.inodeTable ino).stat.stSize) buf size offset := by
  have hrange := hcan.range
  have hfit := hcan.fits h₀ hcount
  have htotal := hfit.total_le (by exact_mod_cast h₁)
  have hfree := hcan.free
  unfold EnoughFree at hfree
  dsimp only at hfree
  rw [hcount, Int.toNat_natCast] at hfree
  have hreturns : sfsWrite env fh buf size offset s ≠ .error .noReturn := by
    have hgrow := growFile_returns (m := addedBlocks (offset + size)
      (s.inodeTable ino).stat.stSize) env h hino hshape hcount (by omega) (by omega)
      (show 0 ≤ offset + (size : Int) by omega) htotal rfl (by have := hfit.2.1; omega) hfree
    unfold sfsWrite
    dsimp only
    rw [hopen, if_neg hfh, if_neg (not_lt.mpr hino₀), if_neg (not_lt.mpr hoff),
      toU64_of_range (x := offset + size) (by omega) (by omega)]
    cases hgrown : growFile env ino (offset + size) s with
    | error e =>
        intro hstop
        cases hstop
        exact hgrow hgrown
    | ok r =>
        rw [ok_bind]
        split
        · exact nofun
        · exact writeData_ne_noReturn _ _ _ _ _
  obtain ⟨⟨r, t⟩, heq, hr, hbooks, u, v, hw⟩ := (sfsWrite_spec env fh h hino hfh hopen hino₀ hshape
    hcount (by omega) hoff h₁ hfit).returns hreturns
  dsimp only at hr hbooks hw
  rw [hr] at heq
  exact ⟨t, u, v, heq, hbooks, hw⟩

/-- **What a write keeps of its promise.**  In every run of calls that meet their conditions,
a write that the file and the disk can take is stored and read back. -/
theorem write_contract (h : Reached BooksOk s) (hfh : ¬ handleOutOfRange fh)
    (hopen : 0 ≤ (s.openFiles (handleIndex fh)).stIno) (hfile : OnFile s fh) (h₀ : 0 ≤ offset)
    (hoff : offset ≤ (s.inodeTable (s.openFiles (handleIndex fh)).stIno).stat.stSize)
    (h₁ : 1 ≤ size) (hcan : CanStore s (s.openFiles (handleIndex fh)).stIno size offset)
    (env : Env) (buf : Nat → UInt8) : WriteContract env fh buf size offset s := by
  obtain ⟨_, hb⟩ := reached_books h
  obtain ⟨hA, hF⟩ := hfile hfh hopen
  unfold WriteContract
  dsimp only
  generalize hino : (s.openFiles (handleIndex fh)).stIno = ino at *
  obtain ⟨B, hshape, hcount, _⟩ := hb.files ino hA hF
  obtain ⟨t, u, v, heq, hbooks, hw⟩ :=
    sfsWrite_stores env buf hb.books hA hfh hino hopen hshape hcount h₀ hoff h₁ hcan
  have hbacked := hcan.backed
  have hlimit := hcan.limit
  have hrange := hcan.range
  rw [hcount] at hbacked hlimit
  have hopens : t.openFiles = s.openFiles := hw.opens
  have hsize : (t.inodeTable ino).stat.stSize = (s.inodeTable ino).stat.stSize + size := by
    rw [hw.stat]
    exact toInt64_of_range (by omega) hrange
  refine ⟨_, t, heq, Or.inl ⟨rfl, fun o n ho hend hn => ?_⟩, fun _ => ?_⟩
  · have hread := sfsRead_range (s := t) o n hfh
    unfold inodeOf at hread
    rw [hopens, hino, hsize] at hread
    rw [hread hopen (by omega) (by omega) hrange (by unfold blocksOf at hbacked; omega),
      Except.ok.injEq, Prod.mk.injEq]
    refine ⟨rfl, List.map_congr_left fun j hj => ?_⟩
    rw [List.mem_range] at hj
    exact hw.byte_eq hA hbooks h₀ hbacked (by exact_mod_cast hlimit) (by omega) (by omega)
  · constructor
    · intro hbig
      simp only [EFBIG] at hbig
      omega
    · intro hbig
      omega

/-- A write at the start of an empty file fails as its growth loop does. -/
theorem sfsWrite_of_growLoop (hfh : ¬ handleOutOfRange fh)
    (hopen : (s.openFiles (handleIndex fh)).stIno = ino) (hino : 0 ≤ ino)
    (hsize : (s.inodeTable ino).stat.stSize = 0) (h₁ : 1 ≤ size) (hmax : size ≤ 16777216)
    (hloop : growLoop env ino (blocksOf size).toNat (toInt (s.inodeTable ino).stat.stBlocks) s =
      .ok (-EFBIG, t)) : sfsWrite env fh buf size 0 s = .ok (-EFBIG, t) := by
  have hround : toU64 (roundUp 0) = 0 := by decide
  have hneeded : blocksNeeded size 0 = blocksOf size := by
    rw [blocksNeeded_eq (by omega) (by omega) (le_refl 0) (by decide)]
    unfold blocksOf
    omega
  have hgrow : growFile env ino (0 + size) s = .ok (-EFBIG, t) := by
    unfold growFile
    dsimp only
    rw [hsize, hround, if_pos (by omega), Int.zero_add, hneeded]
    exact hloop
  unfold sfsWrite
  dsimp only
  rw [hopen, if_neg hfh, if_neg (not_lt.mpr hino), hsize, if_neg (by decide),
    toU64_of_range (x := (0 : Int) + size) (by omega) (by omega), hgrow, ok_bind]
  rfl

/-- A write beyond the limit returns `-EFBIG` with 1111 blocks entered. -/
theorem sfsWrite_limit (env : Env) (buf : Nat → UInt8) (hfh : ¬ handleOutOfRange fh)
    (hopen : (s.openFiles (handleIndex fh)).stIno = ino) (hino : 0 ≤ ino)
    (hsize : (s.inodeTable ino).stat.stSize = 0) (hcount : (s.inodeTable ino).stat.stBlocks = 0)
    (hfit : 568832 < size) (hmax : size ≤ 16777216)
    (hfree : FreeBlocks (3 * (blocksOf size).toNat) s) :
    ∃ t, sfsWrite env fh buf size 0 s = .ok (-EFBIG, t) ∧
      (t.inodeTable ino).stat.stSize = 0 ∧ (t.inodeTable ino).stat.stBlocks = 1111 := by
  have hzero : toInt 0 = 0 := by decide
  obtain ⟨t, hloop, hsize', hcount'⟩ := growLoop_limit env ino (blocksOf size).toNat (i := 0)
    (le_refl 0) (by decide) (by unfold blocksOf; omega) hfree
  refine ⟨t, sfsWrite_of_growLoop hfh hopen hino hsize (by omega) hmax ?_, ?_, ?_⟩
  · rw [hcount, hzero]
    exact hloop
  · rw [hsize', hsize]
  · rw [hcount', hcount]
    rfl

/-- The same write once more takes a block, and enters it nowhere. -/
theorem sfsWrite_leaks (env : Env) (buf : Nat → UInt8) (hfh : ¬ handleOutOfRange fh)
    (hopen : (s.openFiles (handleIndex fh)).stIno = ino) (hino : 0 ≤ ino)
    (hsize : (s.inodeTable ino).stat.stSize = 0)
    (hcount : (s.inodeTable ino).stat.stBlocks = 1111) (h₁ : 1 ≤ size) (hmax : size ≤ 16777216)
    (hfree : HasFreeBlock s) :
    ∃ b, sfsWrite env fh buf size 0 s = .ok (-EFBIG, s.setUsed b ALLOCD) ∧
      (unmarked (s.setUsed b ALLOCD)).ncard + 1 = (unmarked s).ncard := by
  obtain ⟨b, hget, hfewer⟩ := getBlock_unmarked hfree
  obtain ⟨hb, _⟩ := (getBlock_outcome s).post _ hget
  dsimp only at hb
  obtain ⟨n, hn⟩ : ∃ n, (blocksOf size).toNat = n + 1 := by
    refine ⟨(blocksOf size).toNat - 1, ?_⟩
    unfold blocksOf
    omega
  refine ⟨b, sfsWrite_of_growLoop hfh hopen hino hsize h₁ hmax ?_, hfewer⟩
  have hindex : toInt 1111 = 1111 := by decide
  rw [hn, hcount, hindex, growLoop, hget, ok_bind]
  dsimp only
  rw [if_neg (not_lt.mpr hb), if_pos (by decide)]
  rfl

/-- `/a` has been created on a fresh mount: handle 0 is open on inode 1, without blocks. -/
theorem newFile_root : ∃ s, RootFiles BooksOk s [[letterA]] ∧
    (s.openFiles (handleIndex 0)).stIno = 1 ∧
    ((1 : Int) ∈ allocated s ∧ IsFile s 1) ∧ (s.inodeTable 1).stat.stSize = 0 ∧
    (s.inodeTable 1).stat.stBlocks = 0 := by
  have hok : BooksOk firstMount (.create (rootPath letterA) 0o100644) :=
    ⟨(fuseOk_root firstMount letterA (by decide +kernel)).1, fun _ _ =>
      fits_root (fresh_tree fresh_firstMount) (by decide) (by decide +kernel) (by decide +kernel)
        (by decide +kernel), nofun⟩
  obtain ⟨s, hcr, hs, _⟩ := (rootFiles_firstMount BooksOk).create [letterA] (by decide)
    (by decide) (by decide) (by decide) (by decide) hok (by decide +kernel)
  have hafter : after zeroEnv (.create (rootPath letterA) 0o100644) firstMount = s := by
    have hexec : exec zeroEnv (.create (rootPath letterA) 0o100644) firstMount = .ok (0, s) := by
      rw [exec, rootPath, hcr]
      rfl
    rw [after, hexec]
  refine ⟨s, hs, ?_⟩
  rw [← hafter]
  unfold allocated IsFile
  decide +kernel

/-- The largest file: 1110 blocks in one write. -/
theorem write_contract_largest : ∃ s, Reached BooksOk s ∧
    (s.inodeTable (s.openFiles (handleIndex 0)).stIno).stat.stSize = 0 ∧
      ∀ env buf, WriteContract env 0 buf 568320 0 s := by
  obtain ⟨s, hs, hino, hfile, hsize, hcount⟩ := newFile_root
  have hadded : addedBlocks (0 + (568320 : Nat)) 0 = 1110 := by decide
  refine ⟨s, hs.reached, by rw [hino]; exact hsize, fun env buf => ?_⟩
  apply write_contract hs.reached (by decide)
  · rw [hino]
    decide
  · intro _ _
    rw [hino]
    exact hfile
  · exact le_refl 0
  · rw [hino, hsize]
  · decide
  · rw [hino]
    refine ⟨?_, ?_, ?_, ?_⟩
    · rw [hsize, hcount, hadded]
      decide
    · rw [hsize, hcount, hadded]
      decide
    · rw [hsize]
      decide
    · unfold EnoughFree
      dsimp only
      rw [hsize, hcount, hadded]
      exact hs.free.mono (by decide)

/-- A write of 1112 blocks to an empty file returns `-EFBIG` and leaves 1111 of them. -/
theorem failed_write_grows_file :
    ¬ ∀ s fh, Reached FuseOk s → ¬ handleOutOfRange fh →
      0 ≤ (s.openFiles (handleIndex fh)).stIno → OnFile s fh → ∀ env buf size offset,
      0 ≤ offset → offset ≤ (s.inodeTable (s.openFiles (handleIndex fh)).stIno).stat.stSize →
      1 ≤ size → WriteContract env fh buf size offset s := by
  intro hclaim
  obtain ⟨s, hs, hino, hfile, hsize, hcount⟩ := newFile_root
  have hreached : Reached FuseOk s := hs.reached.mono fun _ _ _ hstep => ⟨hstep.1.1, hstep.2⟩
  have hcontract := hclaim s 0 hreached (by decide) (by rw [hino]; decide)
    (fun _ _ => by rw [hino]; exact hfile) zeroEnv (fun _ => 0) 569344 0 (le_refl 0)
    (by rw [hino, hsize]) (by decide)
  obtain ⟨t, hlimit, _, hgrown⟩ := sfsWrite_limit zeroEnv (fun _ => 0) (by decide) hino (by decide)
    hsize hcount (show 568832 < 569344 by decide) (by decide) (hs.free.mono (by decide))
  unfold WriteContract at hcontract
  dsimp only at hcontract
  obtain ⟨r, u, heq, hcases, _⟩ := hcontract
  rw [hlimit] at heq
  cases heq
  rcases hcases with ⟨hr, _⟩ | ⟨_, hsame⟩
  · exact absurd hr (by decide)
  · have hkept := hsame.count
    rw [hino, hgrown, hcount] at hkept
    exact absurd hkept (by decide)

end Write

end Sfs
