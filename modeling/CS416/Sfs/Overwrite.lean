import CS416.Sfs.Append
import CS416.Sfs.Namespace

/-!
# Overwriting in place

`sfs_write` adds the number of bytes written to `st_size` wherever they go, so
an overwrite inside a file leaves the file longer than it was.
-/

namespace Sfs

open CInt Outcome

/-- The bytes of the file `ino` that its size counts. -/
def fileBytes (s : FS) (ino : Int) : List UInt8 :=
  (List.range (s.inodeTable ino).stat.stSize.toNat).map fun p =>
    (blockRead s.disk (getBlockIndex s.disk (s.inodeTable ino) (p / 512 : Nat))).byte (p % 512)

/-- `size` bytes of `buf` put over `old` at `offset`. -/
def overwrite (old : List UInt8) (offset size : Nat) (buf : Nat → UInt8) : List UInt8 :=
  old.mapIdx fun p b => if offset ≤ p ∧ p < offset + size then buf (p - offset) else b

/-- A regular file whose bytes are backed by distinct blocks that are no index blocks. -/
structure Backed (s : FS) (ino : Int) : Prop where
  regular : isRegMode (s.inodeTable ino).stat.stMode = true
  nonneg : 0 ≤ (s.inodeTable ino).stat.stSize
  count : (s.inodeTable ino).stat.stBlocks = blocksOf (s.inodeTable ino).stat.stSize
  limit : (s.inodeTable ino).stat.stBlocks ≤ 1110
  mapped : ∀ n : Nat, n < (s.inodeTable ino).stat.stBlocks →
    0 ≤ refs s (ino, dataSlot n) ∧ refs s (ino, dataSlot n) < numBlocks
  inj : ∀ m n : Nat, m < (s.inodeTable ino).stat.stBlocks →
    n < (s.inodeTable ino).stat.stBlocks →
    refs s (ino, dataSlot m) = refs s (ino, dataSlot n) → m = n
  noIndex : ∀ n : Nat, n < (s.inodeTable ino).stat.stBlocks →
    ∀ p : Slot, p.isIndex = true → refs s (ino, p) ≠ refs s (ino, dataSlot n)

/-- The write replaces the bytes of its range and nothing else. -/
def OverwritesInPlace (env : Env) (fh : Int) (buf : Nat → UInt8) (size offset : Nat) (s : FS) :
    Prop :=
  let ino := inodeOf s (handleIndex fh)
  ∃ t, sfsWrite env fh buf size offset s = .ok ((size : Int), t) ∧
    sfsRead fh (s.inodeTable ino).stat.stSize.toNat 0 t =
      .ok ((s.inodeTable ino).stat.stSize, overwrite (fileBytes s ino) offset size buf) ∧
    (t.inodeTable ino).stat.stSize = (s.inodeTable ino).stat.stSize ∧
    (t.inodeTable ino).stat.stBlocks = (s.inodeTable ino).stat.stBlocks

section Overwrite

variable {s : FS} {env : Env} {fh : Int} {buf : Nat → UInt8} {size offset : Nat}

private theorem writeData_stat (s : FS) (ino : Int) (buf : Nat → UInt8) (h₀ : 1 ≤ size)
    (h₁ : (offset : Int) + size ≤ 16777216) :
    ∃ t, writeData ino buf size offset s = .ok ((size : Int), t) ∧
      (t.inodeTable ino).stat = { (s.inodeTable ino).stat with
        stSize := toInt64 ((s.inodeTable ino).stat.stSize + size) } := by
  have hrange := rangeBlocks_eq (Int.natCast_nonneg offset) (Int.natCast_nonneg size)
    (by omega)
  unfold writeData
  rw [Int.tdiv_eq_ediv_of_nonneg (by omega), Int.tmod_eq_emod_of_nonneg (by omega), hrange]
  simp only [blockSize]
  rw [if_neg (by unfold blocksOf; omega), toInt_of_range (x := (size : Int)) (by omega) (by omega)]
  refine ⟨_, rfl, ?_⟩
  rw [FS.modStat_stat_self, (writeBack_keeps _ _ _ _ _ s).stat]

/-- **No overwrite leaves the size of the file as it was.**  The call returns its size and
adds no block, but `st_size` grows by the number of bytes written. -/
theorem overwrite_grows_size (s : FS) (env : Env) (fh : Int) (buf : Nat → UInt8)
    (size offset : Nat) (hfh : ¬ handleOutOfRange fh)
    (hopen : 0 ≤ inodeOf s (handleIndex fh)) (hfile : Backed s (inodeOf s (handleIndex fh)))
    (h₁ : 1 ≤ size)
    (hend : (offset : Int) + size ≤ (s.inodeTable (inodeOf s (handleIndex fh))).stat.stSize) :
    (∃ t, sfsWrite env fh buf size offset s = .ok ((size : Int), t) ∧
      (t.inodeTable (inodeOf s (handleIndex fh))).stat.stBlocks =
        (s.inodeTable (inodeOf s (handleIndex fh))).stat.stBlocks ∧
      (t.inodeTable (inodeOf s (handleIndex fh))).stat.stSize =
        (s.inodeTable (inodeOf s (handleIndex fh))).stat.stSize + size) ∧
    ¬ OverwritesInPlace env fh buf size offset s := by
  have hcount := hfile.count
  have hlimit := hfile.limit
  have hsize : (s.inodeTable (inodeOf s (handleIndex fh))).stat.stSize ≤ 568320 := by
    unfold blocksOf at hcount
    omega
  -- the range ends inside the file, so nothing is added
  have hwrite : ∃ t, sfsWrite env fh buf size offset s = .ok ((size : Int), t) ∧
      (t.inodeTable (inodeOf s (handleIndex fh))).stat =
        { (s.inodeTable (inodeOf s (handleIndex fh))).stat with
          stSize := toInt64 ((s.inodeTable (inodeOf s (handleIndex fh))).stat.stSize + size) } := by
    unfold inodeOf at hopen hend hsize ⊢
    generalize hi : (s.openFiles (handleIndex fh)).stIno = ino at hopen hend hsize ⊢
    have hround : roundUp (s.inodeTable ino).stat.stSize =
        blocksOf (s.inodeTable ino).stat.stSize * 512 := roundUp_eq (by omega)
    have hfull : ¬ (offset : Int) + size > toU64 (roundUp (s.inodeTable ino).stat.stSize) := by
      rw [hround, toU64_of_range (by unfold blocksOf; omega) (by unfold blocksOf; omega)]
      unfold blocksOf
      omega
    unfold sfsWrite
    simp only [hi]
    rw [if_neg hfh, if_neg (not_lt.mpr hopen), if_neg (show ¬ (offset : Int) > _ by omega),
      toU64_of_range (x := (offset : Int) + size) (by omega) (by omega), growFile, if_neg hfull]
    obtain ⟨t, ht, hstat⟩ := writeData_stat s ino buf h₁
      (show (offset : Int) + size ≤ 16777216 by omega)
    exact ⟨t, ht, hstat⟩
  obtain ⟨t, ht, hstat⟩ := hwrite
  have hgrown : (t.inodeTable (inodeOf s (handleIndex fh))).stat.stSize =
      (s.inodeTable (inodeOf s (handleIndex fh))).stat.stSize + size := by
    rw [hstat]
    exact toInt64_of_range (by omega) (by omega)
  refine ⟨⟨t, ht, by rw [hstat], hgrown⟩, ?_⟩
  rintro ⟨t', ht', _, hsame, _⟩
  rw [ht, Except.ok.injEq, Prod.mk.injEq] at ht'
  rw [← ht'.2, hgrown] at hsame
  omega

/-- A file of three bytes, open on handle 0: inode 1, in block 1. -/
def threeBytes : FS :=
  { zeroMemory with
    inodeTable := Function.update zeroMemory.inodeTable 1
      ⟨ALLOCD, { Stat.zero with stMode := 0o100644, stNlink := 1, stSize := 3, stBlocks := 1 },
        Function.update (fun _ => -1) 0 1⟩
    openFiles := Function.update (fun _ => ⟨0, -1, 0⟩) 0 ⟨1, 1, 0⟩ }

private theorem backed_threeBytes : Backed threeBytes (inodeOf threeBytes (handleIndex 0)) := by
  have hino : inodeOf threeBytes (handleIndex 0) = 1 := by decide
  have hone : ∀ n : Nat, (n : Int) < (threeBytes.inodeTable 1).stat.stBlocks → n = 0 := by
    intro n hn
    have hcount : (threeBytes.inodeTable 1).stat.stBlocks = 1 := by decide
    omega
  have href : refs threeBytes (1, dataSlot 0) = 1 := by decide
  rw [hino]
  refine ⟨by decide, by decide, by decide, by decide, fun n hn => ?_, fun m n hm hn _ => ?_,
    fun n hn p hp => ?_⟩
  · rw [hone n hn, href]
    decide
  · rw [hone m hm, hone n hn]
  · rw [hone n hn, href]
    cases p with
    | single => decide
    | double => decide
    | sub j => simp [refs, slotRef, threeBytes, entry]
    | direct l => cases hp
    | sdata k => cases hp
    | ddata j k => cases hp

/-- One byte over the first of three. -/
theorem overwrite_grows_size_threeBytes :
    ∃ t, sfsWrite zeroEnv 0 (fun _ => 65) 1 (0 : Nat) threeBytes = .ok (1, t) ∧
      (t.inodeTable 1).stat.stSize = 4 := by
  have h := overwrite_grows_size threeBytes zeroEnv 0 (fun _ => 65) 1 0 (by decide) (by decide)
    backed_threeBytes (le_refl 1) (by decide)
  obtain ⟨t, ht, _, hsize⟩ := h.1
  exact ⟨t, ht, hsize⟩

/-- `A` over the first byte of a file of three bytes: `st_size` becomes 4. -/
theorem overwrite_changes_size :
    ¬ ∀ s fh, ¬ handleOutOfRange fh → 0 ≤ inodeOf s (handleIndex fh) →
      Backed s (inodeOf s (handleIndex fh)) → ∀ env buf size offset, 1 ≤ size →
      ((offset : Nat) : Int) + (size : Nat) ≤
        (s.inodeTable (inodeOf s (handleIndex fh))).stat.stSize →
      OverwritesInPlace env fh buf size offset s := by
  intro h
  obtain ⟨t, ht, _, hsize, _⟩ := h threeBytes 0 (by decide) (by decide) backed_threeBytes zeroEnv
    (fun _ => 65) 1 0 (le_refl 1) (by decide)
  have hval : (sfsWrite zeroEnv 0 (fun _ => 65) 1 (0 : Nat) threeBytes).toOption.map
      (fun r => (r.2.inodeTable 1).stat.stSize) = some 4 := by decide +kernel
  rw [ht] at hval
  have hthree : (threeBytes.inodeTable 1).stat.stSize = 3 := by decide
  have hino : inodeOf threeBytes (handleIndex 0) = 1 := by decide
  rw [hino] at hsize
  have hfour := Option.some.inj hval
  dsimp only at hfour
  omega

end Overwrite

end Sfs
