import CS416.Sfs.SetIndex

/-!
# Growing a file

The growth loop of `sfs_write` appends blocks at the index `st_blocks`.  A file
whose slots in use are exactly those of rank below `st_blocks` keeps that
shape, old references stay, and new ones are to blocks that were free.
-/

namespace Sfs

open CInt Outcome

/-- A slot depends on the disk and the array `blocks` only. -/
theorem slotRef_congr {d : Disk} {nd nd' : Inode} (h : nd.blocks = nd'.blocks) (sl : Slot) :
    slotRef d nd sl = slotRef d nd' sl := by
  cases sl <;> simp only [slotRef, h]

@[simp] theorem refs_modStat (s : FS) (ino : Int) (g : Stat → Stat) (x : Int × Slot) :
    refs (s.modStat ino g) x = refs s x :=
  slotRef_congr (FS.modStat_blocks s ino g x.1) x.2

/-- A file of `B` blocks: its slots in use are those of rank below `B`. -/
def Shape (s : FS) (ino : Int) (B : Nat) : Prop :=
  ∀ sl, 0 ≤ refs s (ino, sl) ↔ rank sl < B

/-- Inode `ino` has grown from `B` blocks by `m`. -/
structure Grew (A : Set Int) (s t : FS) (ino : Int) (B m : Nat) : Prop where
  names : t.nameTable = s.nameTable
  opens : t.openFiles = s.openFiles
  avail : ∀ j, (t.inodeTable j).avail = (s.inodeTable j).avail
  stat : (t.inodeTable ino).stat =
    { (s.inodeTable ino).stat with stBlocks := (s.inodeTable ino).stat.stBlocks + m }
  stat_ne : ∀ j, j ≠ ino → (t.inodeTable j).stat = (s.inodeTable j).stat
  blocks_ne : ∀ j, j ≠ ino → (t.inodeTable j).blocks = (s.inodeTable j).blocks
  shape : Shape t ino (B + m)
  old : ∀ sl, rank sl < B → refs t (ino, sl) = refs s (ino, sl)
  new : ∀ sl, B ≤ rank sl → 0 ≤ refs t (ino, sl) → s.diskBlocks (refs t (ino, sl)) = FREE
  refs_ne : ∀ x, x.1 ∈ A → x.1 ≠ ino → refs t x = refs s x
  used : ∀ c, s.diskBlocks c ≠ FREE → t.diskBlocks c = s.diskBlocks c
  disk : ∀ c, (∀ p, p.isIndex = true → rank p < B + m → refs t (ino, p) ≠ c) →
    t.disk c = s.disk c

section Growth

variable {strict : Prop} {A held : Set Int} {s t u : FS} {ino b : Int} {B m : Nat}

/-- What comes behind the blocks of a file refers to none. -/
theorem Shape.not_mapped (h : Shape s ino B) {sl : Slot} (hsl : B ≤ rank sl) :
    refs s (ino, sl) < 0 := by
  by_contra hn
  exact absurd ((h sl).mp (not_lt.mp hn)) (by omega)

/-- A file that gets no block. -/
theorem Grew.refl (h : Shape s ino B) : Grew A s s ino B 0 where
  names := rfl
  opens := rfl
  avail _ := rfl
  stat := by simp
  stat_ne _ _ := rfl
  blocks_ne _ _ := rfl
  shape := h
  old _ _ := rfl
  new sl hsl h₀ := absurd ((h sl).mp h₀) (by omega)
  refs_ne _ _ _ := rfl
  used _ _ := rfl
  disk _ _ := rfl

/-- What was free after more has been taken was free before. -/
theorem Grew.free_of_free (h : Grew A s t ino B m) {c : Int} (hc : t.diskBlocks c = FREE) :
    s.diskBlocks c = FREE := by
  by_contra hused
  rw [h.used c hused] at hc
  exact hused hc

/-- A file that grows twice. -/
theorem Grew.trans {m' : Nat} (h : Grew A s t ino B m) (h' : Grew A t u ino (B + m) m') :
    Grew A s u ino B (m + m') where
  names := h'.names.trans h.names
  opens := h'.opens.trans h.opens
  avail j := (h'.avail j).trans (h.avail j)
  stat := by
    rw [h'.stat, h.stat]
    simp only [Stat.mk.injEq, true_and, and_true]
    push_cast
    omega
  stat_ne j hj := (h'.stat_ne j hj).trans (h.stat_ne j hj)
  blocks_ne j hj := (h'.blocks_ne j hj).trans (h.blocks_ne j hj)
  shape := by
    rw [← Nat.add_assoc]
    exact h'.shape
  old sl hsl := (h'.old sl (by omega)).trans (h.old sl hsl)
  new sl hsl h₀ := by
    by_cases hm : rank sl < B + m
    · rw [h'.old sl hm] at h₀ ⊢
      exact h.new sl hsl h₀
    · exact h.free_of_free (h'.new sl (by omega) h₀)
  refs_ne x hx hne := (h'.refs_ne x hx hne).trans (h.refs_ne x hx hne)
  used c hc := (h'.used c (by rw [h.used c hc]; exact hc)).trans (h.used c hc)
  disk c hc := by
    rw [h'.disk c fun p hp hr => hc p hp (by omega)]
    refine h.disk c fun p hp hr => ?_
    rw [← h'.old p hr]
    exact hc p hp (by omega)

/-- The next logical block of a file in its shape. -/
theorem Placed.shape (h : Placed A s t ino B b) (hshape : Shape s ino B) (hB : B < 1110)
    (hb : 0 ≤ b) : Shape t ino (B + 1) := by
  intro sl
  by_cases hsl : sl = dataSlot B
  · rw [hsl, h.data, rank_dataSlot hB]
    exact ⟨fun _ => by omega, fun _ => hb⟩
  · rcases h.other sl hsl with heq | ⟨hmem, _, h₀, _⟩
    · rw [heq]
      refine (hshape sl).trans ⟨fun hlt => by omega, fun hlt => ?_⟩
      by_contra hge
      have hrank : rank sl = B := by omega
      rcases eq_of_rank_eq hrank with hd | hmem
      · exact hsl hd
      · have hpos := h.path sl hmem
        rw [heq] at hpos
        exact hge ((hshape sl).mp hpos)
    · have hle := rank_indexPath hB hmem
      exact ⟨fun _ => by omega, fun _ => h₀⟩

/-- One round of the growth loop. -/
theorem growStep_spec (env : Env) (h : Books strict A held s) (hino : ino ∈ A)
    (hshape : Shape s ino B) (hB : B < 1110) :
    OkUnless .noReturn (do
        let (block, s) ← getBlock s
        let s ← setBlockIndex env ino B block s
        return s.modStat ino fun st => { st with stBlocks := st.stBlocks + 1 })
      fun t => Grew A s t ino B 1 ∧ Books strict A held t := by
  refine (getBlock_outcome s).bind ?_
  rintro ⟨b, u⟩ hb
  dsimp only at hb ⊢
  have hrefs : refs u = refs s := by rw [hb.state]; rfl
  have hempty : refs u (ino, dataSlot B) < 0 := by
    rw [hrefs]
    exact hshape.not_mapped (by rw [rank_dataSlot hB])
  refine (setBlockIndex_spec env (h.take hb) hino hB (Set.mem_insert b held)
    (fun _ => hempty)).bind ?_
  rintro v ⟨hp, hbooks⟩
  have hheld : b ∉ held := fun hmem => not_mem_marked hb.free (h.held_used b hmem)
  rw [Set.insert_sdiff_self_of_notMem hheld] at hbooks
  -- a slot in use afterwards is old, or has rank `B`
  have hother : ∀ sl, sl ≠ dataSlot B → refs v (ino, sl) = refs s (ino, sl) ∨
      (sl ∈ indexPath B ∧ refs s (ino, sl) < 0 ∧ 0 ≤ refs v (ino, sl) ∧
        s.diskBlocks (refs v (ino, sl)) = FREE) := by
    intro sl hsl
    rcases hp.other sl hsl with heq | ⟨hmem, hneg, h₀, _, hfree⟩
    · exact Or.inl (by rw [heq, hrefs])
    · refine Or.inr ⟨hmem, by rw [← hrefs]; exact hneg, h₀, ?_⟩
      rw [hb.state, FS.setUsed_diskBlocks] at hfree
      by_cases hc : refs v (ino, sl) = b
      · rw [hc]
        exact hb.free
      · rwa [Function.update_of_ne hc] at hfree
  refine OkUnless.pure ⟨?_, ?_⟩
  · have hkeeps := hb.keeps.trans hp.keeps
    refine
      { names := hkeeps.names
        opens := hkeeps.opens
        avail := fun j => by rw [FS.modStat_avail, hkeeps.avail]
        stat := by rw [FS.modStat_stat_self, hkeeps.stat]; rfl
        stat_ne := fun j hj => by
          rw [FS.modStat_inodeTable_ne _ _ _ hj, hkeeps.stat]
        blocks_ne := fun j hj => by
          rw [FS.modStat_blocks, hp.blocks_ne j hj, hb.state, FS.setUsed_inodeTable]
        shape := fun sl => ?_
        old := fun sl hsl => ?_
        new := fun sl hsl h₀ => ?_
        refs_ne := fun x hx hne => by rw [refs_modStat, hp.refs_ne x hx hne, hrefs]
        used := fun c hc => ?_
        disk := fun c hc => ?_ }
    · rw [refs_modStat]
      have hshape' : Shape u ino B := by
        unfold Shape
        rw [hrefs]
        exact hshape
      exact hp.shape hshape' hB hb.nonneg sl
    · rw [refs_modStat]
      have hsl' : sl ≠ dataSlot B := by
        rintro rfl
        rw [rank_dataSlot hB] at hsl
        omega
      rcases hother sl hsl' with heq | ⟨_, hneg, _⟩
      · exact heq
      · have hpos := (hshape sl).mpr hsl
        omega
    · rw [refs_modStat] at h₀ ⊢
      by_cases hsl' : sl = dataSlot B
      · rw [hsl', hp.data]
        exact hb.free
      · rcases hother sl hsl' with heq | ⟨_, _, _, hfree⟩
        · rw [heq] at h₀
          exact absurd ((hshape sl).mp h₀) (by omega)
        · exact hfree
    · have hcb : c ≠ b := by
        rintro rfl
        exact hc hb.free
      have hu : u.diskBlocks c = s.diskBlocks c := by
        rw [hb.state, FS.setUsed_diskBlocks, Function.update_of_ne hcb]
      rw [FS.modStat_diskBlocks, hp.used c (by rw [hu]; exact hc), hu]
    · rw [FS.modStat_disk, hp.disk c, hb.state, FS.setUsed_disk]
      intro p hpm
      have hle := rank_indexPath hB hpm
      have hne := hc p (mem_indexPath_isIndex hpm) (by omega)
      rwa [refs_modStat] at hne
  · exact hbooks.congr fun x _ => refs_modStat _ _ _ _

/-- Below the limit neither error return of the loop is taken. -/
theorem growLoop_succ (env : Env) (hB : B < 1110) (n : Nat) :
    growLoop env ino (n + 1) B s =
      ((do
        let (block, s) ← getBlock s
        let s ← setBlockIndex env ino B block s
        return s.modStat ino fun st => { st with stBlocks := st.stBlocks + 1 }) :
          Except Stop FS) >>= fun t => growLoop env ino n (B + 1 : Nat) t := by
  have hshort : toShort (B : Int) = B := toShort_of_range (by omega) (by omega)
  rw [growLoop]
  rcases getBlock_outcome s with hfull | ⟨⟨b, u⟩, hok, hb⟩
  · rw [hfull]
    rfl
  · have hb₀ := hb.nonneg
    dsimp only at hb₀
    have hlimit : ¬ (B : Int) > maxFileBlocks := by
      simp only [maxFileBlocks]
      omega
    rw [hok, ok_bind, ok_bind]
    dsimp only
    rw [if_neg (show ¬ b < 0 by omega), if_neg hlimit, hshort, bind_assoc]
    refine bind_congr fun v => ?_
    rw [pure_bind, Nat.cast_succ]

/-- **The growth loop appends `n` blocks.** -/
theorem growLoop_spec (env : Env) (n : Nat) (h : Books strict A held s) (hino : ino ∈ A)
    (hshape : Shape s ino B) (hB : B + n ≤ 1110) :
    OkUnless .noReturn (growLoop env ino n B s) fun r =>
      r.1 = 0 ∧ Grew A s r.2 ino B n ∧ Books strict A held r.2 := by
  induction n generalizing s B with
  | zero => exact OkUnless.pure ⟨rfl, Grew.refl hshape, h⟩
  | succ n ih =>
      rw [growLoop_succ env (by omega) n]
      refine (growStep_spec env h hino hshape (by omega)).bind ?_
      rintro t ⟨hgrew, hbooks⟩
      refine (ih hbooks hgrew.shape (by omega)).imp ?_
      rintro ⟨r, u⟩ ⟨hr, hgrew', hbooks'⟩
      have htrans := hgrew.trans hgrew'
      rw [Nat.add_comm 1 n] at htrans
      exact ⟨hr, htrans, hbooks'⟩

end Growth

section Sizes

/-- The number of blocks that `n` bytes meet. -/
def blocksOf (n : Int) : Int := (n + 511) / 512

/-- `roundUp` goes to the end of the last block. -/
theorem roundUp_eq {n : Int} (h : 0 ≤ n) : roundUp n = blocksOf n * 512 := by
  unfold roundUp blocksOf
  rw [Int.tdiv_eq_ediv_of_nonneg h, Int.tmod_eq_emod_of_nonneg h]
  simp only [blockSize]
  split <;> omega

/-- The blocks by which a file grows. -/
theorem blocksNeeded_eq {total size : Int} (h₀ : 0 ≤ total) (h₁ : total ≤ 16777216)
    (h₂ : 0 ≤ size) (h₃ : size < 16777216) :
    blocksNeeded total size = blocksOf total - blocksOf size := by
  unfold blocksNeeded blocksOf
  rw [Int.tdiv_eq_ediv_of_nonneg h₂, Int.tmod_eq_emod_of_nonneg h₂]
  simp only [blockSize]
  rw [toInt_of_range] <;> split <;> split <;> omega

/-- The number of blocks that a range meets, small ranges included: there the
subtraction goes below zero and wraps around, and the sum comes out right. -/
theorem rangeBlocks_eq {offset size : Int} (h₀ : 0 ≤ offset) (h₁ : 0 ≤ size)
    (h₂ : offset + size ≤ 2 ^ 30) :
    rangeBlocks offset size = blocksOf (offset + size) - offset / 512 := by
  unfold rangeBlocks blocksOf
  rw [Int.tmod_eq_emod_of_nonneg h₀, toU64_of_range (x := offset + size) (by omega) (by omega)]
  simp only [blockSize]
  by_cases ha : offset % 512 = 0
  · rw [if_neg (not_not.mpr ha), if_neg (not_not.mpr ha),
      toU64_of_range (x := size - 0) (by omega) (by omega)]
    by_cases hb : (offset + size) % 512 = 0
    · rw [if_neg (not_not.mpr hb), toInt_of_range] <;> omega
    · rw [if_pos hb, toInt_of_range] <;> omega
  · rw [if_pos ha, if_pos ha]
    by_cases hk : 512 - offset % 512 ≤ size
    · rw [toU64_of_range (x := size - (512 - offset % 512)) (by omega) (by omega)]
      by_cases hb : (offset + size) % 512 = 0
      · rw [if_neg (not_not.mpr hb), toInt_of_range] <;> omega
      · rw [if_pos hb, toInt_of_range] <;> omega
    · have hb : (offset + size) % 512 ≠ 0 := by omega
      have hwrap : toU64 (size - (512 - offset % 512)) / 512 = 36028797018963967 := by
        unfold toU64
        omega
      have hsum : toInt (1 + 36028797018963967 + 1) = 1 := by decide
      rw [if_pos hb, hwrap, hsum]
      omega

/-- Block `k` has a byte of the range `[offset, offset + size)`. -/
def Meets (offset size k : Int) : Prop :=
  ∃ x, offset ≤ x ∧ x < offset + size ∧ 512 * k ≤ x ∧ x < 512 * (k + 1)

/-- A range meets the blocks from the one of its first byte to the one of its last. -/
theorem meets_iff {offset size : Int} (h₁ : 1 ≤ size) (k : Int) :
    Meets offset size k ↔ offset / 512 ≤ k ∧ k < blocksOf (offset + size) := by
  unfold Meets blocksOf
  constructor
  · intro h
    obtain ⟨x, h₂, h₃, h₄, h₅⟩ := h
    omega
  · intro h
    -- the first byte of the range or of the block, whichever comes later
    by_cases hfirst : offset ≤ 512 * k
    · exact ⟨512 * k, by omega, by omega, by omega, by omega⟩
    · exact ⟨offset, by omega, by omega, by omega, by omega⟩

/-- As many blocks meet the range. -/
theorem meets_card {offset size : Int} (h₁ : 1 ≤ size) :
    ({k | Meets offset size k} : Set Int).ncard =
      (blocksOf (offset + size) - offset / 512).toNat := by
  have hset : ({k | Meets offset size k} : Set Int) =
      (Finset.Ico (offset / 512) (blocksOf (offset + size)) : Finset Int) := by
    ext k
    rw [Set.mem_ofPred_eq, meets_iff h₁, Finset.mem_coe, Finset.mem_Ico]
  rw [hset, Set.ncard_coe_finset, Int.card_Ico]

end Sizes

/-- **The number of blocks that a range meets**, and a buffer of so many blocks has room for the
range from its place in the first block on. -/
theorem range_blocks_counted {offset size : Int} (h₀ : 0 ≤ offset) (h₁ : 1 ≤ size)
    (h₂ : offset + size ≤ 2 ^ 30) :
    rangeBlocks offset size = ({k | Meets offset size k} : Set Int).ncard ∧
      0 ≤ offset.tmod blockSize ∧
      offset.tmod blockSize + size ≤ rangeBlocks offset size * blockSize := by
  have hblocks := rangeBlocks_eq h₀ (by omega) h₂
  have hoffset : offset.tmod blockSize = offset % 512 := Int.tmod_eq_emod_of_nonneg h₀
  rw [hblocks, hoffset, meets_card h₁]
  simp only [blocksOf, blockSize]
  omega

/-- A range inside one block, where the subtraction wraps around. -/
theorem range_blocks_counted_short :
    rangeBlocks 10 100 = ({k | Meets 10 100 k} : Set Int).ncard ∧
      0 ≤ (10 : Int).tmod blockSize ∧
      (10 : Int).tmod blockSize + 100 ≤ rangeBlocks 10 100 * blockSize :=
  range_blocks_counted (by decide) (by decide) (by decide)

section File

variable {strict : Prop} {A held : Set Int} {s t : FS} {ino : Int} {B : Nat}

/-- **The resizing part of `sfs_write`.** -/
theorem growFile_spec (env : Env) {total : Int} (h : Books strict A held s) (hino : ino ∈ A)
    (hshape : Shape s ino B) (hcount : (s.inodeTable ino).stat.stBlocks = B)
    (hsize₀ : 0 ≤ (s.inodeTable ino).stat.stSize)
    (hsize₁ : (s.inodeTable ino).stat.stSize < 9223372036854775808)
    (ht₀ : 0 ≤ total) (ht₁ : total ≤ 16777216)
    (hfit : B + (blocksOf total - blocksOf (s.inodeTable ino).stat.stSize).toNat ≤ 1110) :
    OkUnless .noReturn (growFile env ino total s) fun r =>
      r.1 = 0 ∧ Grew A s r.2 ino B
        (blocksOf total - blocksOf (s.inodeTable ino).stat.stSize).toNat ∧
        Books strict A held r.2 := by
  have hround : toU64 (roundUp (s.inodeTable ino).stat.stSize) =
      blocksOf (s.inodeTable ino).stat.stSize * 512 := by
    rw [roundUp_eq hsize₀, toU64_of_range] <;> unfold blocksOf <;> omega
  unfold growFile
  dsimp only
  rw [hround, hcount]
  split
  · rename_i hgrow
    have hbig : (s.inodeTable ino).stat.stSize < 16777216 := by
      unfold blocksOf at hgrow
      omega
    rw [blocksNeeded_eq ht₀ ht₁ hsize₀ hbig, toInt_of_range (by omega) (by omega)]
    exact growLoop_spec env _ h hino hshape hfit
  · rename_i hstay
    have hzero : (blocksOf total - blocksOf (s.inodeTable ino).stat.stSize).toNat = 0 := by
      unfold blocksOf at hstay ⊢
      omega
    rw [hzero]
    exact OkUnless.pure ⟨rfl, Grew.refl hshape, h⟩

/-- For a file of `B` blocks, `get_block_index` of logical block `n` does not read
past an index block that is not there. -/
def Resolves (B n : Int) : Prop :=
  n < 10 ∨ (n < 110 ∧ 10 < B) ∨ (n < 1110 ∧ 110 + (n - 110) / 100 * 100 < B) ∨
    (1110 ≤ n ∧ n < 32768)

instance (B n : Int) : Decidable (Resolves B n) :=
  inferInstanceAs (Decidable (_ ∨ _ ∨ _ ∨ _))

/-- The index blocks on the way to a logical block are there. -/
theorem Shape.path_of_resolves (h : Shape s ino B) {n : Nat} (hn : n < 1110)
    (hres : Resolves B n) : ∀ p ∈ indexPath n, 0 ≤ refs s (ino, p) := by
  intro p hp
  rw [h p]
  unfold Resolves at hres
  unfold indexPath at hp
  split_ifs at hp
  · cases hp
  · rw [List.mem_singleton.mp hp, rank]
    omega
  · rcases List.mem_cons.mp hp with rfl | hp
    · rw [rank]
      omega
    · rw [List.mem_singleton.mp hp, rank, Fin.val_ofNat]
      omega

/-- The target of a block of the file, and of a block it does not have. -/
theorem Shape.getBlockIndex_cases (h : Shape s ino B) {n : Nat} (hres : Resolves B n) :
    n < B ∧ n < 1110 ∧ getBlockIndex s.disk (s.inodeTable ino) n = refs s (ino, dataSlot n) ∧
      0 ≤ refs s (ino, dataSlot n) ∨
    ¬ (n < B ∧ n < 1110) ∧ getBlockIndex s.disk (s.inodeTable ino) n < 0 := by
  by_cases hn : n < 1110
  · have hidx : getBlockIndex s.disk (s.inodeTable ino) n = refs s (ino, dataSlot n) :=
      getBlockIndex_eq hn (h.path_of_resolves hn hres)
    have hmapped := h (dataSlot n)
    rw [rank_dataSlot hn] at hmapped
    by_cases hB : n < B
    · exact Or.inl ⟨hB, hn, hidx, hmapped.mpr hB⟩
    · refine Or.inr ⟨by omega, ?_⟩
      rw [hidx]
      by_contra hge
      exact hB (hmapped.mp (not_lt.mp hge))
  · refine Or.inr ⟨by omega, ?_⟩
    rw [getBlockIndex_big _ _ (by omega)]
    decide

/-- Data blocks `first` to `last - 1` of inode `ino` have been written from `buf`. -/
structure Stored (A : Set Int) (s t : FS) (ino : Int) (B first last : Nat)
    (buf : Nat → UInt8) : Prop where
  frame : ∃ d, t = { s with disk := d }
  refs_eq : ∀ x, x.1 ∈ A → refs t x = refs s x
  data : ∀ n, first ≤ n → n < last → n < B → n < 1110 → ∀ j < 512,
    (t.disk (refs s (ino, dataSlot n))).byte j = buf (512 * (n - first) + j)
  disk : ∀ c, (0 ≤ c ∨ ∀ n, first ≤ n → n < last → n < B ∧ n < 1110) →
    (∀ n, first ≤ n → n < last → n < B → n < 1110 → refs s (ino, dataSlot n) ≠ c) →
      t.disk c = s.disk c

/-- The other blocks stay. -/
theorem write_disk_ne {c c' : Int} {blk : Block} (h : c' ≠ c) :
    (s.write c blk).disk c' = s.disk c' := by
  rw [FS.write_disk, blockWrite, Function.update_of_ne h]

/-- A block that is written lies there. -/
theorem write_disk_self {c : Int} {blk : Block} : (s.write c blk).disk c = blk := by
  rw [FS.write_disk, blockWrite, Function.update_self]

/-- A block with a negative number is nobody's index block. -/
theorem refs_write_neg {c : Int} {b : Block} (h : c < 0) (x : Int × Slot) :
    refs (s.write c b) x = refs s x := by
  have hentry : ∀ n k, entry (s.write c b).disk n k = entry s.disk n k := by
    intro n k
    by_cases hn : n = c
    · rw [entry_neg k (hn ▸ h), entry_neg k (hn ▸ h)]
    · rw [FS.write_disk, entry_write_ne k hn]
  obtain ⟨j, sl⟩ := x
  cases sl <;> simp only [refs, slotRef, FS.write_inodeTable, hentry]

/-- The write-back loop writes data blocks of the inode, and block `-1` where it has none. -/
theorem writeBack_spec (h : Books strict A held s) (hino : ino ∈ A) (hshape : Shape s ino B)
    (buf : Nat → UInt8) (first : Nat) (n i : Nat) (hlast : first + i + n ≤ 32768)
    (hres : ∀ k, first + i ≤ k → k < first + i + n → Resolves B k) :
    Stored A s (writeBack ino first buf n i s) ino B (first + i) (first + i + n)
      (fun j => buf (512 * i + j)) := by
  induction n generalizing i s with
  | zero =>
      exact ⟨⟨s.disk, rfl⟩, fun _ _ => rfl, fun n h₁ h₂ => absurd h₁ (by omega), fun _ _ _ => rfl⟩
  | succ n ih =>
      have hshort : toShort ((first : Int) + i) = (first + i : Nat) := by
        rw [toShort_of_range (by omega) (by omega)]
        push_cast
        rfl
      have hbuf : ∀ k j, first + (i + 1) ≤ k →
          512 * (i + 1) + (512 * (k - (first + (i + 1))) + j) =
            512 * i + (512 * (k - (first + i)) + j) := fun k j hk => by omega
      have hlast' : first + (i + 1) + n = first + i + (n + 1) := by omega
      rw [writeBack, hshort]
      rcases hshape.getBlockIndex_cases (hres (first + i) (le_refl _) (by omega)) with
        ⟨hB, hm, hidx, h₀⟩ | ⟨hm, hneg⟩
      · rw [hidx]
        generalize hblk : (Block.ofFn fun j => buf (512 * i + j)) = blk
        have hrefs : ∀ x : Int × Slot, x.1 ∈ A →
            refs (s.write (refs s (ino, dataSlot (first + i))) blk) x = refs s x :=
          fun x hx => h.refs_write_data hino (isIndex_dataSlot _) h₀ hx
        have hbooks : Books strict A held
            (s.write (refs s (ino, dataSlot (first + i))) blk) := h.congr hrefs
        have hshape' : Shape (s.write (refs s (ino, dataSlot (first + i))) blk) ino B :=
          fun sl => by rw [hrefs (ino, sl) hino]; exact hshape sl
        obtain ⟨⟨d, hframe⟩, hr, hdata, hdisk⟩ := ih (i := i + 1) hbooks hshape' (by omega)
          (fun k h₁ h₂ => hres k (by omega) (by omega))
        refine ⟨⟨d, hframe⟩, fun x hx => (hr x hx).trans (hrefs x hx), ?_, ?_⟩
        · intro k h₁ h₂ hkB hk j hj
          by_cases hkm : k = first + i
          · subst k
            rw [Nat.sub_self, Nat.mul_zero, Nat.zero_add, hdisk, write_disk_self, ← hblk,
              Block.byte_ofFn _ hj]
            · exact Or.inl h₀
            · intro k' h₁' _ hkB' hk'
              rw [hrefs (ino, dataSlot k') hino]
              refine h.ref_ne (x := (ino, dataSlot (first + i))) hino hino ?_ h₀
              rw [Ne, Prod.mk.injEq]
              rintro ⟨_, heq⟩
              have hinj := dataSlot_inj hk' hm heq
              omega
          · have hd := hdata k (by omega) (by omega) hkB hk j hj
            rw [hrefs (ino, dataSlot k) hino] at hd
            rw [hd, hbuf k j (by omega)]
        · intro c hdom hc
          rw [hdisk c (hdom.imp_right fun hin k h₁ h₂ => hin k (by omega) (by omega))
            fun k h₁ h₂ hkB hk => by
              rw [hrefs (ino, dataSlot k) hino]
              exact hc k (by omega) (by omega) hkB hk]
          exact write_disk_ne (Ne.symm (hc (first + i) (le_refl _) (by omega) hB hm))
      · generalize getBlockIndex s.disk (s.inodeTable ino) (first + i : Nat) = b at hneg ⊢
        generalize hblk : (Block.ofFn fun j => buf (512 * i + j)) = blk
        have hrefs : ∀ x, refs (s.write b blk) x = refs s x := refs_write_neg hneg
        obtain ⟨⟨d, hframe⟩, hr, hdata, hdisk⟩ := ih (i := i + 1)
          (s := s.write b blk) (h.congr fun x _ => hrefs x)
          (fun sl => by rw [hrefs]; exact hshape sl) (by omega)
          (fun k h₁ h₂ => hres k (by omega) (by omega))
        refine ⟨⟨d, hframe⟩, fun x hx => (hr x hx).trans (hrefs x), ?_, ?_⟩
        · intro k h₁ h₂ hkB hk j hj
          have hkm : k ≠ first + i := by
            rintro rfl
            exact hm ⟨hkB, hk⟩
          have hd := hdata k (by omega) (by omega) hkB hk j hj
          rw [hrefs] at hd
          rw [hd, hbuf k j (by omega)]
        · intro c hdom hc
          have hcb : c ≠ b := by
            rcases hdom with h₀ | hin
            · omega
            · exact absurd (hin (first + i) (le_refl _) (by omega)) hm
          rw [hdisk c (hdom.imp_right fun hin k h₁ h₂ => hin k (by omega) (by omega))
            fun k h₁ h₂ hkB hk => by
              rw [hrefs]
              exact hc k (by omega) (by omega) hkB hk]
          exact write_disk_ne hcb

/-- **The part of `sfs_write` after the resizing.** -/
theorem writeData_spec (h : Books strict A held s) (hino : ino ∈ A) (hshape : Shape s ino B)
    (buf : Nat → UInt8) (size : Nat) (offset : Int) (h₀ : 0 ≤ offset) (h₁ : 1 ≤ size)
    (h₂ : offset + size ≤ 16777216)
    (hres : ∀ n, offset / 512 ≤ n → n < blocksOf (offset + size) → Resolves B n) :
    ∃ v, writeData ino buf size offset s = .ok (size, v.modStat ino fun st =>
        { st with stSize := toInt64 (st.stSize + size) }) ∧
      Stored A s v ino B (offset / 512).toNat (blocksOf (offset + size)).toNat
        (contBuffer (blockRead s.disk
          (getBlockIndex s.disk (s.inodeTable ino) (offset / 512)))
        (offset % 512).toNat buf size) := by
  have hstart : toInt (offset / 512) = offset / 512 :=
    toInt_of_range (by omega) (by omega)
  have hshort : toShort (offset / 512) = offset / 512 :=
    toShort_of_range (by omega) (by omega)
  have hrange := rangeBlocks_eq h₀ (Int.natCast_nonneg size) (by omega)
  have hfirst : ((offset / 512).toNat : Int) = offset / 512 := Int.toNat_of_nonneg (by omega)
  have hblocks : (blocksOf (offset + size)).toNat =
      (offset / 512).toNat + 0 + (blocksOf (offset + size) - offset / 512).toNat := by
    unfold blocksOf
    omega
  unfold writeData
  rw [Int.tdiv_eq_ediv_of_nonneg h₀, Int.tmod_eq_emod_of_nonneg h₀, hrange]
  simp only [blockSize, hstart, hshort]
  rw [if_neg (by unfold blocksOf; omega), toInt_of_range (by omega) (by omega)]
  refine ⟨_, rfl, ?_⟩
  have hback := writeBack_spec h hino hshape
    (contBuffer (blockRead s.disk
      (getBlockIndex s.disk (s.inodeTable ino) (offset / 512))) (offset % 512).toNat buf size)
    (offset / 512).toNat (blocksOf (offset + size) - offset / 512).toNat 0
    (by unfold blocksOf; omega) (fun k hk₀ hk₁ => hres k (by omega) (by omega))
  rw [← hblocks, hfirst] at hback
  simpa using hback

end File

end Sfs
