import CS416.Sfs.WriteCall

/-!
# Files that are only appended to

Several files are open, and every write goes to the end of its file.  `Holds`
ties the size, the block count, the block map, the bitmap and the disk
together: the file holds exactly the bytes appended to it so far.
-/

namespace Sfs

open CInt Outcome

/-- A write at the current end of the file behind a handle. -/
structure Append where
  env : Env
  fh : Int
  chunk : List UInt8

/-- The inode behind a handle. -/
def inodeOf (s : FS) (fh : Int) : Int := (s.openFiles fh).stIno

/-- `sfs_write` with `offset` equal to the current size of the file. -/
def append (a : Append) (s : FS) : Except Stop (Int × FS) :=
  sfsWrite a.env a.fh (fun j => a.chunk.getD j 0) a.chunk.length
    (s.inodeTable (inodeOf s a.fh)).stat.stSize s

/-- A run of appends, with the results of the calls. -/
def appendAll : List Append → FS → Except Stop (List Int × FS)
  | [], s => return ([], s)
  | a :: as, s => do
      let (r, s) ← append a s
      let (rs, s) ← appendAll as s
      return (r :: rs, s)

/-- The concatenation of the chunks of one handle. -/
def bytesOf (fh : Int) (as : List Append) : List UInt8 :=
  (as.filter fun a => a.fh = fh).flatMap Append.chunk

/-- The handles in `H` are open on distinct files. -/
structure DistinctFiles (s : FS) (H : Set Int) : Prop where
  range : ∀ fh ∈ H, 0 ≤ fh ∧ fh < maxLink
  opened : ∀ fh ∈ H, 0 ≤ inodeOf s fh
  inj : ∀ fh ∈ H, ∀ fh' ∈ H, inodeOf s fh = inodeOf s fh' → fh = fh'

/-- A file without blocks. -/
structure Empty (s : FS) (ino : Int) : Prop where
  size : (s.inodeTable ino).stat.stSize = 0
  count : (s.inodeTable ino).stat.stBlocks = 0
  blocks : ∀ k, 0 ≤ k → k < 12 → (s.inodeTable ino).blocks k = -1

/-- The file `ino` holds the bytes `w`. -/
structure Holds (s : FS) (ino : Int) (w : List UInt8) : Prop where
  size : (s.inodeTable ino).stat.stSize = w.length
  count : (s.inodeTable ino).stat.stBlocks = (blocksOf w.length).toNat
  shape : Shape s ino (blocksOf w.length).toNat
  data : ∀ n j, j < 512 → 512 * n + j < w.length →
    (s.disk (refs s (ino, dataSlot n))).byte j = w.getD (512 * n + j) 0

/-- The inodes behind the handles in `H`. -/
def inodesOf (s : FS) (H : Set Int) : Set Int := {i | ∃ fh ∈ H, inodeOf s fh = i}

section Start

variable {s : FS} {ino : Int}

/-- An empty file refers to no block. -/
theorem Empty.refs_neg (h : Empty s ino) (sl : Slot) : refs s (ino, sl) < 0 := by
  have h₁₀ := h.blocks 10 (by decide) (by decide)
  have h₁₁ := h.blocks 11 (by decide) (by decide)
  cases sl with
  | direct i =>
      have hi := h.blocks (i : Nat) (by omega) (by omega)
      simp only [refs, slotRef, hi]
      decide
  | single => simp [refs, slotRef, h₁₀]
  | double => simp [refs, slotRef, h₁₁]
  | sdata k => simp [refs, slotRef, h₁₀, entry]
  | sub j => simp [refs, slotRef, h₁₁, entry]
  | ddata j k => simp [refs, slotRef, h₁₁, entry]

/-- It holds no bytes. -/
theorem Empty.holds (h : Empty s ino) : Holds s ino [] where
  size := h.size
  count := h.count
  shape sl := by
    have hneg := h.refs_neg sl
    simp only [List.length_nil, Nat.cast_zero, blocksOf]
    omega
  data n j _ hlt := by
    simp at hlt

/-- Nothing is referred to yet, so the books are in order. -/
theorem books_of_empty {A : Set Int} (h : ∀ i ∈ A, Empty s i) : Books False A ∅ s where
  excl x hx y _ h₀ _ := absurd ((h x.1 hx).refs_neg x.2) (by simpa using h₀)
  ref_used x hx h₀ := absurd ((h x.1 hx).refs_neg x.2) (by simpa using h₀)
  held_used b hb := absurd hb (Set.notMem_empty b)
  held_unref b hb := absurd hb (Set.notMem_empty b)
  used_nonneg b hb := hb.1
  exact hs := hs.elim

end Start

section Step

variable {A : Set Int} {s t u v : FS} {ino : Int} {w : List UInt8} {size : Nat}
  {buf : Nat → UInt8}

/-- An append of at most the limit fits. -/
theorem writeFits_append (h₁ : 1 ≤ size) (hlimit : w.length + size ≤ 568320) :
    WriteFits ((blocksOf w.length).toNat : Nat) w.length w.length size := by
  have hB : ((blocksOf w.length).toNat : Int) + addedBlocks (w.length + size) w.length =
      blocksOf (w.length + size) := by
    unfold addedBlocks blocksOf
    omega
  refine ⟨by omega, ?_, fun n h₀ hn => ?_⟩
  · rw [hB]
    unfold blocksOf
    omega
  · rw [hB]
    unfold Resolves
    unfold blocksOf at hn ⊢
    omega

/-- Growing leaves the old data blocks as they are. -/
theorem Grew.disk_old {strict : Prop} {held : Set Int} {B m n : Nat}
    (h : Grew A s u ino B m) (hu : Books strict A held u) (hino : ino ∈ A) (hn : n < B)
    (hn' : n < 1110) :
    refs u (ino, dataSlot n) = refs s (ino, dataSlot n) ∧ 0 ≤ refs u (ino, dataSlot n) ∧
      u.disk (refs u (ino, dataSlot n)) = s.disk (refs s (ino, dataSlot n)) := by
  have hold := h.old (dataSlot n) (by rw [rank_dataSlot hn']; exact hn)
  have h₀ : 0 ≤ refs u (ino, dataSlot n) :=
    (h.shape (dataSlot n)).mpr (by rw [rank_dataSlot hn']; omega)
  refine ⟨hold, h₀, ?_⟩
  rw [← hold]
  refine h.disk _ fun p hp _ => ?_
  refine hu.ref_ne (x := (ino, dataSlot n)) (y := (ino, p)) hino hino ?_ h₀
  rw [Ne, Prod.mk.injEq]
  rintro ⟨_, rfl⟩
  rw [isIndex_dataSlot] at hp
  cases hp

/-- The bytes of the written file. -/
theorem Wrote.holds_self {chunk : List UInt8}
    (h : Wrote A s u v t ino (blocksOf w.length).toNat
      (addedBlocks (w.length + chunk.length) w.length) (fun j => chunk.getD j 0)
      chunk.length w.length)
    (hino : ino ∈ A) (hu : Books False A ∅ u) (hw : Holds s ino w)
    (hlimit : w.length + chunk.length ≤ 568320) : Holds t ino (w ++ chunk) := by
  have hB : (blocksOf w.length).toNat + addedBlocks (w.length + chunk.length) w.length =
      (blocksOf (w ++ chunk).length).toNat := by
    rw [List.length_append]
    unfold addedBlocks blocksOf
    omega
  have hstat := h.stat
  refine ⟨?_, ?_, ?_, ?_⟩
  · rw [hstat]
    dsimp only
    rw [hw.size, List.length_append, Nat.cast_add, toInt64_of_range (by omega) (by omega)]
  · rw [hstat]
    dsimp only
    rw [hw.count, ← hB]
    push_cast
    rfl
  · rw [← hB]
    exact h.shape hino
  · intro n j hj hlt
    rw [List.length_append] at hlt
    have hn : n < (blocksOf w.length).toNat +
        addedBlocks (w.length + chunk.length) w.length := by
      rw [hB, List.length_append]
      unfold blocksOf
      omega
    have hn' : n < 1110 := by omega
    have hself : refs t (ino, dataSlot n) = refs u (ino, dataSlot n) :=
      h.refs_eq (x := (ino, dataSlot n)) hino
    rw [h.state, FS.modStat_disk, ← h.state, hself]
    by_cases hstart : n < w.length / 512
    · -- in front of the first block written
      obtain ⟨_, h₀, hdisk⟩ := h.grew.disk_old hu hino (n := n)
        (by unfold blocksOf; omega) hn'
      rw [h.stored.disk _ (Or.inl h₀), hdisk, hw.data n j hj (by omega),
        List.getD_append _ _ _ _ (by omega)]
      intro k hk₀ _ _ hk
      refine hu.ref_ne (x := (ino, dataSlot n)) (y := (ino, dataSlot k)) hino hino ?_ h₀
      rw [Ne, Prod.mk.injEq]
      rintro ⟨_, heq⟩
      have hkn := dataSlot_inj hk hn' heq
      omega
    · have hfirst : ((w.length : Int) / 512).toNat = w.length / 512 := by omega
      rw [h.stored.data n (by omega) (by unfold blocksOf; omega) hn hn' j hj, hfirst]
      have hoff : ((w.length : Int) % 512).toNat = w.length % 512 := by omega
      unfold contBuffer
      rw [hoff]
      by_cases hpos : w.length ≤ 512 * n + j
      · rw [if_pos (by omega), List.getD_append_right _ _ _ _ hpos]
        congr 1
        omega
      · -- the bytes of the first block in front of the append
        have hns : n = w.length / 512 := by omega
        obtain ⟨_, h₀, hdisk⟩ := h.grew.disk_old hu hino (n := n)
          (by unfold blocksOf; omega) hn'
        have hlt' := hu.ref_lt (x := (ino, dataSlot n)) hino h₀
        have hstart' : (w.length : Int) / 512 = (n : Nat) := by omega
        have hidx : getBlockIndex u.disk (u.inodeTable ino) (n : Nat) =
            refs u (ino, dataSlot n) := by
          refine getBlockIndex_eq hn' (h.grew.shape.path_of_resolves hn' ?_)
          unfold Resolves
          push_cast
          omega
        rw [if_neg (by omega), hstart', hidx, blockRead_of_lt hlt', hdisk,
          List.getD_append _ _ _ _ (by omega), ← hw.data n j hj (by omega)]
        congr 1
        omega

/-- **A write leaves the bytes of the other files alone.** -/
theorem Wrote.holds_other {strict : Prop} {held : Set Int} {B m : Nat} {offset : Int}
    {ino' : Int} (h : Wrote A s u v t ino B m buf size offset) (hino : ino ∈ A)
    (ht : Books strict A held t) (hino' : ino' ∈ A) (hne : ino' ≠ ino) (hw : Holds s ino' w)
    (hlimit : w.length ≤ 568320) : Holds t ino' w := by
  have hrefs : ∀ sl, refs t (ino', sl) = refs s (ino', sl) := fun sl =>
    h.refs_ne (x := (ino', sl)) hino' hne
  have hstat := h.stat_ne hne
  refine ⟨by rw [hstat]; exact hw.size, by rw [hstat]; exact hw.count, fun sl => ?_, ?_⟩
  · rw [hrefs]
    exact hw.shape sl
  · intro n j hj hlt
    have hn' : n < 1110 := by omega
    have h₀ : 0 ≤ refs t (ino', dataSlot n) := by
      rw [hrefs, hw.shape, rank_dataSlot hn']
      unfold blocksOf
      omega
    have hsame : t.disk (refs t (ino', dataSlot n)) = s.disk (refs t (ino', dataSlot n)) := by
      refine h.disk_eq hino (Or.inl h₀) fun sl _ => ?_
      refine ht.ref_ne (x := (ino', dataSlot n)) (y := (ino, sl)) hino' hino ?_ h₀
      rw [Ne, Prod.mk.injEq]
      exact fun heq => hne heq.1.symm
    rw [hsame, hrefs]
    exact hw.data n j hj hlt

end Step

section Read

variable {A held : Set Int} {strict : Prop} {s : FS} {fh : Int} {w : List UInt8}

/-- A handle of the table is taken as it is. -/
theorem handle_in_range (hfh : 0 ≤ fh ∧ fh < maxLink) :
    handleIndex fh = fh ∧ ¬ handleOutOfRange fh := by
  simp only [maxLink] at hfh
  refine ⟨toInt64_of_range (by omega) (by omega), ?_⟩
  rw [handleOutOfRange, toU64_of_range hfh.1 (by omega)]
  simp only [maxLink]
  omega

/-- **Reading a range below the size of the file**: the bytes of its blocks. -/
theorem sfsRead_range (offset size : Nat) (hfh : ¬ handleOutOfRange fh)
    (hopen : 0 ≤ inodeOf s (handleIndex fh))
    (hoff : (offset : Int) < (s.inodeTable (inodeOf s (handleIndex fh))).stat.stSize)
    (hend : (offset : Int) + size ≤ (s.inodeTable (inodeOf s (handleIndex fh))).stat.stSize)
    (hsize : (s.inodeTable (inodeOf s (handleIndex fh))).stat.stSize < 9223372036854775808)
    (hmax : offset + size ≤ 16777216) :
    sfsRead fh size offset s = .ok ((size : Int), (List.range size).map fun j =>
      (blockRead s.disk (getBlockIndex s.disk (s.inodeTable (inodeOf s (handleIndex fh)))
        ((offset + j) / 512 : Nat))).byte ((offset + j) % 512)) := by
  have hblocks := rangeBlocks_eq (Int.natCast_nonneg offset) (Int.natCast_nonneg size)
    (by omega)
  unfold inodeOf at *
  unfold sfsRead
  dsimp only
  rw [if_neg hfh, if_neg (not_lt.mpr hopen), if_neg (not_le.mpr hoff),
    toU64_of_range (x := (offset : Int) + size) (by omega) (by omega),
    toU64_of_range (x := (s.inodeTable (s.openFiles (handleIndex fh)).stIno).stat.stSize)
      (by omega) (by omega), if_neg (not_lt.mpr hend),
    Int.tdiv_eq_ediv_of_nonneg (by omega), Int.tmod_eq_emod_of_nonneg (by omega), hblocks]
  simp only [blockSize]
  rw [if_neg (by unfold blocksOf; omega), toInt_of_range (x := (offset : Int) / 512) (by omega)
    (by omega), toInt_of_range (x := (size : Int)) (by omega) (by omega)]
  rw [Except.ok.injEq, Prod.mk.injEq, Int.toNat_natCast]
  refine ⟨rfl, List.map_congr_left fun j hj => ?_⟩
  rw [List.mem_range] at hj
  -- byte `j` of the range is byte `pos % 512` of block `pos / 512`
  have hpos : (offset : Int) / 512 + (((((offset : Int) % 512).toNat + j) / 512 : Nat) : Int) =
      (((offset + j) / 512 : Nat) : Int) := by omega
  have hmod : (((offset : Int) % 512).toNat + j) % 512 = (offset + j) % 512 := by omega
  rw [hpos, hmod, toShort_of_range (by omega) (by omega)]

/-- **Reading a range of a file that holds `w`.** -/
theorem Holds.sfsRead_eq (hw : Holds s (inodeOf s fh) w) (hs : Books strict A held s)
    (hino : inodeOf s fh ∈ A) (hopen : 0 ≤ inodeOf s fh) (hfh : 0 ≤ fh ∧ fh < maxLink)
    (hlimit : w.length ≤ 568320) {offset size : Nat} (hoff : offset < w.length)
    (hend : offset + size ≤ w.length) :
    sfsRead fh size offset s = .ok ((size : Int), (w.drop offset).take size) := by
  obtain ⟨hindex, hrange⟩ := handle_in_range hfh
  have hread := sfsRead_range (s := s) offset size hrange
    (by rwa [hindex]) (by rw [hindex, hw.size]; omega) (by rw [hindex, hw.size]; omega)
    (by rw [hindex, hw.size]; omega) (by omega)
  rw [hread, hindex, Except.ok.injEq, Prod.mk.injEq]
  refine ⟨rfl, ?_⟩
  have hlen : ((w.drop offset).take size).length = size := by
    rw [List.length_take, List.length_drop]
    omega
  refine List.ext_getElem (by simp [hlen]) fun j hj₁ hj₂ => ?_
  rw [hlen] at hj₂
  rw [List.getElem_map, List.getElem_range, List.getElem_take, List.getElem_drop]
  have hn : (offset + j) / 512 < 1110 := by omega
  have hidx : getBlockIndex s.disk (s.inodeTable (inodeOf s fh))
      (((offset + j) / 512 : Nat) : Int) =
      refs s (inodeOf s fh, dataSlot ((offset + j) / 512)) := by
    refine getBlockIndex_eq hn (hw.shape.path_of_resolves hn ?_)
    unfold Resolves blocksOf
    omega
  have h₀ : 0 ≤ refs s (inodeOf s fh, dataSlot ((offset + j) / 512)) := by
    rw [hw.shape, rank_dataSlot hn]
    unfold blocksOf
    omega
  have hlt := hs.ref_lt (x := (inodeOf s fh, dataSlot ((offset + j) / 512))) hino h₀
  rw [hidx, blockRead_of_lt hlt, hw.data _ _ (by omega) (by omega)]
  have hidx' : 512 * ((offset + j) / 512) + (offset + j) % 512 = offset + j := by omega
  rw [hidx', List.getD_eq_getElem _ _ (by omega)]

end Read

section Run

variable {s t : FS} {H : Set Int} {as : List Append}

/-- The invariant of a run of appends: every file holds its bytes. -/
structure Appended (s₀ s : FS) (H : Set Int) (w : Int → List UInt8) : Prop where
  opens : s.openFiles = s₀.openFiles
  books : Books False (inodesOf s₀ H) ∅ s
  holds : ∀ fh ∈ H, Holds s (inodeOf s₀ fh) (w fh)

/-- **One append.** -/
theorem append_step {s₀ : FS} {w : Int → List UInt8} (a : Append)
    (hfiles : DistinctFiles s₀ H) (ha : a.fh ∈ H) (hne : a.chunk ≠ [])
    (hinv : Appended s₀ s H w)
    (hlimit : ∀ fh ∈ H, (Function.update w a.fh (w a.fh ++ a.chunk) fh).length ≤ 568320) :
    OkUnless .noReturn (append a s) fun r =>
      r.1 = a.chunk.length ∧
        Appended s₀ r.2 H (Function.update w a.fh (w a.fh ++ a.chunk)) := by
  have hinode : inodeOf s a.fh = inodeOf s₀ a.fh := by rw [inodeOf, hinv.opens, inodeOf]
  have hino : inodeOf s₀ a.fh ∈ inodesOf s₀ H := ⟨a.fh, ha, rfl⟩
  have hw := hinv.holds a.fh ha
  have hlen : (w a.fh).length + a.chunk.length ≤ 568320 := by
    have hl := hlimit a.fh ha
    rwa [Function.update_self, List.length_append] at hl
  have hpos : 1 ≤ a.chunk.length := List.length_pos_iff.mpr hne
  obtain ⟨hindex, hrange⟩ := handle_in_range (hfiles.range a.fh ha)
  unfold append
  rw [hinode, hw.size]
  refine (sfsWrite_spec a.env a.fh hinv.books hino hrange (by rw [hindex, ← hinode]; rfl)
    (hfiles.opened a.fh ha) hw.shape hw.count (by rw [hw.size]; omega)
    (by rw [hw.size]) hpos (by rw [hw.size]; exact writeFits_append hpos hlen)).imp ?_
  rintro ⟨r, t⟩ ⟨hr, hbooks, u, v, hwrote⟩
  dsimp only at hr hbooks hwrote ⊢
  rw [hw.size] at hwrote
  have hu := hwrote.books_between hbooks
  refine ⟨hr, hwrote.opens.trans hinv.opens, hbooks, fun fh hfh => ?_⟩
  by_cases heq : fh = a.fh
  · rw [heq, Function.update_self]
    exact hwrote.holds_self hino hu hw hlen
  · rw [Function.update_of_ne heq]
    refine hwrote.holds_other hino hbooks ⟨fh, hfh, rfl⟩
      (fun h => heq (hfiles.inj fh hfh a.fh ha h)) (hinv.holds fh hfh) ?_
    have hl := hlimit fh hfh
    rwa [Function.update_of_ne heq] at hl

private theorem bytesOf_cons (fh : Int) (a : Append) (as : List Append) :
    bytesOf fh (a :: as) = (if a.fh = fh then a.chunk else []) ++ bytesOf fh as := by
  unfold bytesOf
  by_cases h : a.fh = fh
  · simp [h]
  · simp [h]

/-- **A run of appends**, from files that hold `w`. -/
theorem appendAll_spec {s₀ : FS} (hfiles : DistinctFiles s₀ H) (as : List Append)
    (w : Int → List UInt8) (hinv : Appended s₀ s H w)
    (has : ∀ a ∈ as, a.fh ∈ H ∧ a.chunk ≠ [])
    (hlimit : ∀ fh ∈ H, (w fh ++ bytesOf fh as).length ≤ 568320) :
    OkUnless .noReturn (appendAll as s) fun r =>
      r.1 = as.map (fun a => (a.chunk.length : Int)) ∧
        Appended s₀ r.2 H fun fh => w fh ++ bytesOf fh as := by
  induction as generalizing s w with
  | nil =>
      refine OkUnless.pure ⟨rfl, hinv.opens, hinv.books, fun fh hfh => ?_⟩
      simpa [bytesOf] using hinv.holds fh hfh
  | cons a as ih =>
      obtain ⟨hfh, hne⟩ := has a (List.mem_cons_self ..)
      have hbytes : ∀ fh, Function.update w a.fh (w a.fh ++ a.chunk) fh ++ bytesOf fh as =
          w fh ++ bytesOf fh (a :: as) := by
        intro fh
        rw [bytesOf_cons]
        by_cases h : a.fh = fh
        · subst h
          simp
        · rw [Function.update_of_ne (Ne.symm h), if_neg h, List.nil_append]
      have hlimit' : ∀ fh ∈ H,
          (Function.update w a.fh (w a.fh ++ a.chunk) fh ++ bytesOf fh as).length ≤ 568320 :=
        fun fh hfh => by rw [hbytes]; exact hlimit fh hfh
      rw [appendAll]
      refine (append_step a hfiles hfh hne hinv fun fh hfh => ?_).bind ?_
      · have hl := hlimit' fh hfh
        rw [List.length_append] at hl
        omega
      rintro ⟨r, t⟩ ⟨hr, hinv'⟩
      dsimp only at hr hinv' ⊢
      refine (ih _ hinv' (fun b hb => has b (List.mem_cons_of_mem a hb)) hlimit').bind ?_
      rintro ⟨rs, u⟩ ⟨hrs, hinv''⟩
      refine OkUnless.pure ⟨by rw [hr, hrs, List.map_cons], ?_⟩
      simpa only [hbytes] using hinv''

/-- **Appended bytes read back.**  Any interleaving of appends to distinct empty
files returns the sizes, and every range of every file reads as the
concatenation of its chunks. -/
theorem appended_bytes_read_back {s₀ : FS} (hfiles : DistinctFiles s₀ H)
    (hempty : ∀ fh ∈ H, Empty s₀ (inodeOf s₀ fh)) (as : List Append)
    (has : ∀ a ∈ as, a.fh ∈ H ∧ a.chunk ≠ [])
    (hlimit : ∀ fh ∈ H, (bytesOf fh as).length ≤ maxFileBlocks * blockSize)
    (hfree : appendAll as s₀ ≠ .error .noReturn) :
    ∃ t, appendAll as s₀ = .ok (as.map fun a => (a.chunk.length : Int), t) ∧
      ∀ fh ∈ H, (t.inodeTable (inodeOf t fh)).stat.stSize = (bytesOf fh as).length ∧
        ∀ offset size : Nat, offset < (bytesOf fh as).length →
          offset + size ≤ (bytesOf fh as).length →
          sfsRead fh size offset t =
            .ok ((size : Int), ((bytesOf fh as).drop offset).take size) := by
  have hlimit' : ∀ fh ∈ H, (bytesOf fh as).length ≤ 568320 := fun fh hfh => by
    have hl := hlimit fh hfh
    simp only [maxFileBlocks, blockSize] at hl
    omega
  have hstart : Appended s₀ s₀ H fun _ => [] := by
    refine ⟨rfl, books_of_empty ?_, fun fh hfh => (hempty fh hfh).holds⟩
    rintro i ⟨fh, hfh, rfl⟩
    exact hempty fh hfh
  obtain ⟨⟨rs, t⟩, hok, hrs, hinv⟩ := (appendAll_spec hfiles as (fun _ => []) hstart has
    (by simpa using hlimit')).returns hfree
  dsimp only at hrs hinv
  refine ⟨t, by rw [hok, hrs], fun fh hfh => ?_⟩
  have hinode : inodeOf t fh = inodeOf s₀ fh := by rw [inodeOf, hinv.opens, inodeOf]
  have hholds : Holds t (inodeOf t fh) (bytesOf fh as) := by
    rw [hinode]
    simpa using hinv.holds fh hfh
  refine ⟨hholds.size, fun offset size hoff hend => ?_⟩
  exact hholds.sfsRead_eq hinv.books ⟨fh, hfh, hinode.symm⟩
    (hinode ▸ hfiles.opened fh hfh) (hfiles.range fh hfh) (hlimit' fh hfh) hoff hend

/-- Two new files, open on the handles 0 and 1. -/
def twoFiles : FS :=
  after zeroEnv (.create (rootPath letterB) 0o100644)
    (after zeroEnv (.create (rootPath letterA) 0o100644) firstMount)

/-- Three interleaved appends to the two files. -/
theorem appended_bytes_read_back_twoFiles :
    ∃ t, appendAll [⟨zeroEnv, 0, [1, 2, 3]⟩, ⟨zeroEnv, 1, [4]⟩, ⟨zeroEnv, 0, [5]⟩] twoFiles =
        .ok ([3, 1, 1], t) ∧
      sfsRead 0 3 1 t = .ok (3, [2, 3, 5]) := by
  have hfiles : DistinctFiles twoFiles {0, 1} := by
    refine ⟨?_, ?_, ?_⟩
    · rintro fh (rfl | rfl) <;> decide
    · rintro fh (rfl | rfl) <;> decide +kernel
    · rintro fh (rfl | rfl) fh' (rfl | rfl) <;> decide +kernel
  have hempty : ∀ fh ∈ ({0, 1} : Set Int), Empty twoFiles (inodeOf twoFiles fh) := by
    rintro fh (rfl | rfl)
    · refine ⟨by decide +kernel, by decide +kernel, fun k h₀ h₁ => ?_⟩
      interval_cases k <;> decide +kernel
    · refine ⟨by decide +kernel, by decide +kernel, fun k h₀ h₁ => ?_⟩
      interval_cases k <;> decide +kernel
  have hok : (appendAll [⟨zeroEnv, 0, [1, 2, 3]⟩, ⟨zeroEnv, 1, [4]⟩, ⟨zeroEnv, 0, [5]⟩]
      twoFiles).toBool = true := by decide +kernel
  obtain ⟨t, ht, hread⟩ := appended_bytes_read_back hfiles hempty
    [⟨zeroEnv, 0, [1, 2, 3]⟩, ⟨zeroEnv, 1, [4]⟩, ⟨zeroEnv, 0, [5]⟩]
    (by simp) (by rintro fh (rfl | rfl) <;> decide)
    (fun herr => by rw [herr] at hok; cases hok)
  exact ⟨t, ht, (hread 0 (by simp)).2 1 3 (by decide) (by decide)⟩

end Run

end Sfs
