import CS416.Sfs.Overwrite

/-!
# Reading a range

`sfs_read` clips the request to the size of the file and gathers the blocks
that the rest meets.  At and beyond the end of the file it returns `EOF`, a
negative number, and the sum that it clips by is taken modulo 2^64.
-/

namespace Sfs

open CInt

/-- A regular file with a mapped block for each of its bytes. -/
structure Readable (s : FS) (ino : Int) : Prop where
  regular : isRegMode (s.inodeTable ino).stat.stMode = true
  nonneg : 0 ≤ (s.inodeTable ino).stat.stSize
  mapped : ∀ n : Int, 0 ≤ n → n < blocksOf (s.inodeTable ino).stat.stSize →
    0 ≤ getBlockIndex s.disk (s.inodeTable ino) n ∧
      getBlockIndex s.disk (s.inodeTable ino) n < numBlocks

/-- The read contract: the bytes of the file from `offset` on, `size` of them or all there are. -/
def ReadsRange (s : FS) (fh : Int) (size offset : Nat) : Prop :=
  let ino := inodeOf s (handleIndex fh)
  sfsRead fh size offset s =
    .ok (min (size : Int) (max 0 ((s.inodeTable ino).stat.stSize - offset)),
      ((fileBytes s ino).drop offset).take size)

section Read

variable {s : FS} {fh ino : Int} {size offset : Nat}

private theorem Readable.size_le (h : Readable s ino) :
    (s.inodeTable ino).stat.stSize ≤ 568320 := by
  by_contra hgt
  have hblocks : 1110 < blocksOf (s.inodeTable ino).stat.stSize := by
    unfold blocksOf
    omega
  have hmapped := (h.mapped 1110 (by decide) hblocks).1
  rw [getBlockIndex_big _ _ le_rfl] at hmapped
  omega

private theorem fileBytes_length (s : FS) (ino : Int) :
    (fileBytes s ino).length = (s.inodeTable ino).stat.stSize.toNat := by
  simp [fileBytes]

/-- The gathered bytes of a range are the bytes of the file. -/
theorem gather_eq (s : FS) (ino : Int) (offset n : Nat)
    (hend : (offset : Int) + n ≤ (s.inodeTable ino).stat.stSize)
    (hmax : (s.inodeTable ino).stat.stSize ≤ 568320) :
    ((List.range n).map fun j =>
      let p := ((offset : Int) % 512).toNat + j
      (blockRead s.disk (getBlockIndex s.disk (s.inodeTable ino)
        (toShort ((offset : Int) / 512 + (p / 512 : Nat))))).byte (p % 512)) =
    ((fileBytes s ino).drop offset).take n := by
  have hlen := fileBytes_length s ino
  have hright : (((fileBytes s ino).drop offset).take n).length = n := by
    rw [List.length_take, List.length_drop]
    omega
  apply List.ext_getElem
  · simp [hright]
  · intro j hj _
    have hjn : j < n := by simpa using hj
    simp only [List.getElem_map, List.getElem_range, List.getElem_take, List.getElem_drop,
      fileBytes]
    -- byte `j` of the range is byte `pos % 512` of block `pos / 512`
    have hblock : (offset : Int) / 512 + (((((offset : Int) % 512).toNat + j) / 512 : Nat) : Int) =
        (((offset + j) / 512 : Nat) : Int) := by omega
    have hbyte : (((offset : Int) % 512).toNat + j) % 512 = (offset + j) % 512 := by omega
    rw [hblock, hbyte, toShort_of_range (by omega) (by omega)]

/-- A request that does not wrap around, inside the file. -/
theorem sfsRead_inside (hfh : ¬ handleOutOfRange fh) (hopen : 0 ≤ inodeOf s (handleIndex fh))
    (hfile : Readable s (inodeOf s (handleIndex fh)))
    (hin : (offset : Int) < (s.inodeTable (inodeOf s (handleIndex fh))).stat.stSize)
    (hsum : offset + size < 18446744073709551616) : ReadsRange s fh size offset := by
  have hmax := hfile.size_le
  unfold ReadsRange sfsRead
  unfold inodeOf at *
  dsimp only
  generalize hino : (s.openFiles (handleIndex fh)).stIno = ino at *
  rw [if_neg hfh, if_neg (not_lt.mpr hopen), if_neg (not_le.mpr hin),
    toU64_of_range (x := (offset : Int) + size) (by omega) (by omega),
    toU64_of_range (x := (s.inodeTable ino).stat.stSize) (by omega) (by omega),
    toU64_of_range (x := (s.inodeTable ino).stat.stSize - offset) (by omega) (by omega)]
  -- the clipped size
  have hclip : (if (offset : Int) + size > (s.inodeTable ino).stat.stSize then
      (s.inodeTable ino).stat.stSize - offset else (size : Int)) =
      min (size : Int) ((s.inodeTable ino).stat.stSize - offset) := by
    split <;> omega
  obtain ⟨n, hn⟩ : ∃ n : Nat,
      min (size : Int) ((s.inodeTable ino).stat.stSize - offset) = (n : Int) :=
    ⟨_, (Int.toNat_of_nonneg (by omega)).symm⟩
  have hblocks : rangeBlocks offset n = blocksOf ((offset : Int) + n) - (offset : Int) / 512 :=
    rangeBlocks_eq (by omega) (by omega) (by omega)
  simp only [hclip, hn]
  rw [Int.tdiv_eq_ediv_of_nonneg (by omega), Int.tmod_eq_emod_of_nonneg (by omega), hblocks]
  simp only [blockSize]
  rw [if_neg (by unfold blocksOf; omega), toInt_of_range (x := (offset : Int) / 512) (by omega)
    (by omega), toInt_of_range (x := (n : Int)) (by omega) (by omega)]
  have hresult : min (size : Int) (max 0 ((s.inodeTable ino).stat.stSize - offset)) = n := by
    rw [← hn]
    omega
  have hbytes := gather_eq s ino offset n (by omega) hmax
  have htake : ((fileBytes s ino).drop offset).take size =
      ((fileBytes s ino).drop offset).take n := by
    have hlen := fileBytes_length s ino
    rw [List.take_eq_take_iff, List.length_drop]
    omega
  rw [hresult, htake, ← hbytes]
  rfl

/-- A request that wraps around is not clipped and runs off the buffer. -/
theorem sfsRead_wraps (hfh : ¬ handleOutOfRange fh) (hopen : 0 ≤ inodeOf s (handleIndex fh))
    (hmax : (s.inodeTable (inodeOf s (handleIndex fh))).stat.stSize ≤ 568320)
    (hin : (offset : Int) < (s.inodeTable (inodeOf s (handleIndex fh))).stat.stSize)
    (hsize : size < 18446744073709551616) (hsum : 18446744073709551616 ≤ offset + size) :
    sfsRead fh size offset s = .error .undefined := by
  unfold sfsRead
  unfold inodeOf at *
  dsimp only
  generalize (s.openFiles (handleIndex fh)).stIno = ino at *
  have hwrap : toU64 ((offset : Int) + size) = (offset : Int) + size - 18446744073709551616 := by
    unfold toU64
    omega
  have hrange : rangeBlocks offset size < 2147483648 := by
    unfold rangeBlocks toInt
    exact Int.bmod_lt (by decide)
  have hclip : ¬ (offset : Int) + size - 18446744073709551616 >
      (s.inodeTable ino).stat.stSize := by omega
  rw [if_neg hfh, if_neg (not_lt.mpr hopen), if_neg (not_le.mpr hin), hwrap,
    toU64_of_range (x := (s.inodeTable ino).stat.stSize) (by omega) (by omega),
    if_neg hclip, Int.tmod_eq_emod_of_nonneg (by omega)]
  simp only [blockSize]
  rw [if_pos (Or.inr (by omega))]

/-- **When `sfs_read` meets its contract**: inside the file, unless the sum of offset and size
wraps around. -/
theorem reads_range_iff (hfh : ¬ handleOutOfRange fh)
    (hopen : 0 ≤ inodeOf s (handleIndex fh)) (hfile : Readable s (inodeOf s (handleIndex fh)))
    (h₁ : 1 ≤ size) (hsize : size < 18446744073709551616) :
    ReadsRange s fh size offset ↔
      (offset : Int) < (s.inodeTable (inodeOf s (handleIndex fh))).stat.stSize ∧
        offset + size < 18446744073709551616 := by
  constructor
  · intro h
    by_cases hin : (offset : Int) < (s.inodeTable (inodeOf s (handleIndex fh))).stat.stSize
    · refine ⟨hin, ?_⟩
      by_contra hsum
      have herror := sfsRead_wraps hfh hopen hfile.size_le hin hsize (not_lt.mp hsum)
      unfold ReadsRange at h
      rw [herror] at h
      cases h
    · -- the end of the file: the result is `EOF`
      have heof : sfsRead fh size offset s = .ok (eofCode, []) := by
        unfold sfsRead
        unfold inodeOf at hopen hin
        dsimp only
        rw [if_neg hfh, if_neg (not_lt.mpr hopen), if_pos (not_lt.mp hin)]
      unfold ReadsRange at h
      rw [heof] at h
      simp only [Except.ok.injEq, Prod.mk.injEq, eofCode] at h
      omega
  · intro h
    exact sfsRead_inside hfh hopen hfile h.1 h.2

private theorem readable_threeBytes : Readable threeBytes (inodeOf threeBytes (handleIndex 0)) where
  regular := by decide +kernel
  nonneg := by decide +kernel
  mapped n h₀ h₁ := by
    have hsize : blocksOf (threeBytes.inodeTable (inodeOf threeBytes (handleIndex 0))).stat.stSize
        = 1 := by decide +kernel
    rw [hsize] at h₁
    obtain rfl : n = 0 := by omega
    decide +kernel

/-- Two bytes of three, and the end of the file. -/
theorem reads_range_threeBytes :
    ReadsRange threeBytes 0 2 1 ∧ ¬ ReadsRange threeBytes 0 1 3 := by
  have hfh : ¬ handleOutOfRange 0 := by decide
  have hopen : 0 ≤ inodeOf threeBytes (handleIndex 0) := by decide +kernel
  have hsize : (threeBytes.inodeTable (inodeOf threeBytes (handleIndex 0))).stat.stSize = 3 := by
    decide +kernel
  constructor
  · apply (reads_range_iff hfh hopen readable_threeBytes (by decide) (by decide)).mpr
    rw [hsize]
    decide
  · intro h
    have hin := ((reads_range_iff hfh hopen readable_threeBytes (by decide) (by decide)).mp h).1
    rw [hsize] at hin
    exact absurd hin (by decide)

/-- A read of one byte at the end of a file of three bytes returns -1. -/
theorem read_at_end_negative :
    ¬ ∀ s fh, ¬ handleOutOfRange fh → 0 ≤ inodeOf s (handleIndex fh) →
      Readable s (inodeOf s (handleIndex fh)) → ∀ size offset, 1 ≤ size →
      size < 18446744073709551616 → ReadsRange s fh size offset := by
  intro hclaim
  have hread := hclaim threeBytes 0 (by decide) (by decide +kernel) readable_threeBytes 1 3
    (by decide) (by decide)
  have hresult : ((sfsRead 0 1 (3 : Nat) threeBytes).toOption.map Prod.fst) = some (-1) := by
    decide +kernel
  unfold ReadsRange at hread
  rw [hread] at hresult
  simp only [Except.toOption, Option.map_some, Option.some.injEq] at hresult
  omega

end Read

end Sfs
