import CS416.Lib.CInt

/-!
# Blocks and the disk file

`block.c` moves blocks of 512 bytes between a buffer and the disk file.  The
file system reads some of these blocks as arrays of `short`s; `Block.short`
and `Block.setShort` are that view, two little-endian bytes an entry.

Block I/O moves whole blocks, and the disk is indexed by the block number that
is asked for, a `short` nearly everywhere.  A negative number is a place too:
`block.c` does not declare `pread` and `pwrite`, so the offset goes to them as
the unsigned 32 bits of an `int`, and block `-1` is the block at byte
4294966784, far behind the 32768 blocks of the file system.  What is written
there stays.  Only the scan of `sfs_init` asks for block 32768: it finds the end
of the file or a hole, and `block_read` leaves the buffer cleared.
-/

namespace Sfs

open CInt

/-- `BLOCK_SIZE` -/
abbrev blockSize : Int := 512

/-- `NUM_BLOCKS` -/
abbrev numBlocks : Int := 32768

/-- The contents of one disk block. -/
@[ext] structure Block where
  bytes : Fin 512 → UInt8

namespace Block

/-- Byte `j` of a block; a buffer is only ever read below 512. -/
def byte (b : Block) (j : Nat) : UInt8 :=
  if h : j < 512 then b.bytes ⟨j, h⟩ else 0

/-- The block holding the first 512 bytes of a buffer. -/
def ofFn (f : Nat → UInt8) : Block := ⟨fun j => f j⟩

def zero : Block := ofFn fun _ => 0

@[simp] theorem byte_ofFn (f : Nat → UInt8) {j : Nat} (h : j < 512) :
    (ofFn f).byte j = f j := by simp [byte, ofFn, h]

@[simp] theorem byte_zero (j : Nat) : zero.byte j = 0 := by
  simp [byte, zero, ofFn]

/-- A block is its bytes. -/
theorem ext_byte {a b : Block} (h : ∀ j < 512, a.byte j = b.byte j) : a = b := by
  ext j
  simpa [byte] using congrArg UInt8.toNat (h j j.isLt)

/-- `((short *)buf)[k]` -/
def short (b : Block) (k : Nat) : Int :=
  toShort ((b.byte (2 * k)).toNat + 256 * (b.byte (2 * k + 1)).toNat)

/-- `((short *)buf)[k] = v` -/
def setShort (b : Block) (k : Nat) (v : Int) : Block :=
  ofFn fun j =>
    if j = 2 * k then UInt8.ofNat (v % 256).toNat
    else if j = 2 * k + 1 then UInt8.ofNat (v / 256 % 256).toNat
    else b.byte j

/-- `for (i = 0; i < n; i++) ((short *)buf)[i] = v;` -/
def fillShorts (b : Block) (n : Nat) (v : Int) : Block :=
  match n with
  | 0 => b
  | n + 1 => (b.fillShorts n v).setShort n v

@[simp] theorem short_zero (k : Nat) : zero.short k = 0 := by
  simp [short, toShort]

/-- A number that is put into a block is read back. -/
theorem short_setShort_self (b : Block) {k : Nat} {v : Int} (hk : k < 256)
    (h₀ : -32768 ≤ v) (h₁ : v < 32768) : (b.setShort k v).short k = v := by
  have hlo : ((b.setShort k v).byte (2 * k)).toNat = (v % 256).toNat := by
    rw [setShort, byte_ofFn _ (by omega)]
    simp only [if_true, UInt8.toNat_ofNat']
    omega
  have hhi : ((b.setShort k v).byte (2 * k + 1)).toNat = (v / 256 % 256).toNat := by
    rw [setShort, byte_ofFn _ (by omega), if_neg (by omega), if_pos rfl]
    simp only [UInt8.toNat_ofNat']
    omega
  have hsum : ((v % 256).toNat : Int) + 256 * ((v / 256 % 256).toNat : Int) = v % 65536 := by
    omega
  rw [short, hlo, hhi, hsum, toShort, Int.bmod_def]
  split <;> omega

/-- The other numbers stay. -/
theorem short_setShort_ne (b : Block) {j k : Nat} {v : Int} (hj : j < 256)
    (hne : j ≠ k) : (b.setShort k v).short j = b.short j := by
  have hlo : (b.setShort k v).byte (2 * j) = b.byte (2 * j) := by
    rw [setShort, byte_ofFn _ (by omega), if_neg (by omega), if_neg (by omega)]
  have hhi : (b.setShort k v).byte (2 * j + 1) = b.byte (2 * j + 1) := by
    rw [setShort, byte_ofFn _ (by omega), if_neg (by omega), if_neg (by omega)]
  rw [short, hlo, hhi, short]

/-- The first `n` numbers are filled. -/
theorem short_fillShorts (b : Block) {n k : Nat} {v : Int} (hn : n ≤ 256)
    (hk : k < 256) (h₀ : -32768 ≤ v) (h₁ : v < 32768) :
    (b.fillShorts n v).short k = if k < n then v else b.short k := by
  induction n with
  | zero => simp [fillShorts]
  | succ n ih =>
      rw [fillShorts]
      by_cases hkn : k = n
      · subst k
        rw [short_setShort_self _ hk h₀ h₁, if_pos (by omega)]
      · have hiff : k < n + 1 ↔ k < n := by omega
        simp only [short_setShort_ne _ hk hkn, ih (by omega), hiff]

end Block

/-- The disk file by block number: block `n` lies at byte `512 * n` modulo `2 ^ 32`, which are
different places for all numbers whose offset is an `int`. -/
abbrev Disk := Int → Block

/-- `block_read`: the buffer it leaves behind. -/
def blockRead (d : Disk) (n : Int) : Block :=
  if n < numBlocks then d n else Block.zero

/-- `block_write` -/
def blockWrite (d : Disk) (n : Int) (b : Block) : Disk := Function.update d n b

/-- A block of the disk is read as it lies there. -/
theorem blockRead_of_lt {d : Disk} {n : Int} (h : n < numBlocks) : blockRead d n = d n :=
  if_pos h

/-- A block that is written is read back. -/
theorem blockRead_write_self {d : Disk} {n : Int} {b : Block} (h : n < numBlocks) :
    blockRead (blockWrite d n b) n = b := by
  rw [blockRead_of_lt h, blockWrite, Function.update_self]

/-- The other blocks stay. -/
theorem blockRead_write_ne {d : Disk} {m n : Int} {b : Block} (h : m ≠ n) :
    blockRead (blockWrite d n b) m = blockRead d m := by
  rw [blockRead, blockWrite, Function.update_of_ne h, blockRead]

end Sfs
