import CS416.Lib.Memory
import CS416.Sfs.Calls

/-!
# Unmount and remount

`sfs_destroy` lays the tables out behind a key in a buffer and writes the
buffer to the blocks from `system_block` on; `sfs_init` looks for the key from
the top of the disk downwards and copies the tables back.  Both run over the
bytes of the globals, at the sizes of the C structures.

The bytes of the buffer behind the last table are never set, and are not read
either.  The first probe of the scan is block 32768, outside the disk file.
-/

namespace Sfs

open CInt Search Memory

/-- `sizeof(inode_table)`: 128 entries of 176 bytes -/
abbrev sizeofInodeTable : Nat := 22528

/-- `sizeof(name_table)`: 128 entries of 136 bytes -/
abbrev sizeofNameTable : Nat := 17408

/-- `sizeof(disk_blocks)` -/
abbrev sizeofDiskBlocks : Nat := 65536

/-- `sizeof(open_files)`: 128 entries of 16 bytes -/
abbrev sizeofOpenFiles : Nat := 2048

/-- `KEY` -/
def KEY : Nat := 0xA7C4144BEF51B825

/-- The globals of `sfs.c`, byte by byte. -/
structure Globals where
  inodeTable : Fin sizeofInodeTable → UInt8
  nameTable : Fin sizeofNameTable → UInt8
  diskBlocks : Fin sizeofDiskBlocks → UInt8
  openFiles : Fin sizeofOpenFiles → UInt8
  rootInode : Fin 4 → UInt8
  rootBlock : Fin 4 → UInt8
  systemBlock : Int
  cwdInode : Fin 4 → UInt8

/-- The bytes of an `int64_t`, least significant first. -/
def int64Bytes (v : Nat) : Fin 8 → UInt8 :=
  fun j => UInt8.ofNat (v / 256 ^ (j : Nat))

/-- `*(int64_t *)buf`, as the unsigned number it is compared as. -/
def int64At (buf : Fin 8 → UInt8) : Nat :=
  ∑ j : Fin 8, (buf j).toNat * 256 ^ (j : Nat)

/-- `reserve` -/
def reserve : Nat :=
  8 + sizeofInodeTable + sizeofNameTable + sizeofDiskBlocks + sizeofOpenFiles + 2 * 4

/-- `reserve_blocks = (reserve + BLOCK_SIZE) / BLOCK_SIZE` -/
def imageBlocks : Nat := (reserve + 512) / 512

/-- The image takes the reserved blocks. -/
theorem imageBlocks_eq : imageBlocks = 211 := by
  decide

/-- The buffer of `sfs_destroy` after its copies; `junk` is what `malloc` returned. -/
def saveTables (g : Globals) (junk : Buffer UInt8) : Buffer UInt8 :=
  let pos := 0
  let buf := store junk pos (int64Bytes KEY)
  let pos := pos + 8
  let buf := store buf pos g.inodeTable
  let pos := pos + sizeofInodeTable
  let buf := store buf pos g.nameTable
  let pos := pos + sizeofNameTable
  let buf := store buf pos g.diskBlocks
  let pos := pos + sizeofDiskBlocks
  let buf := store buf pos g.openFiles
  let pos := pos + sizeofOpenFiles
  let buf := store buf pos g.rootInode
  let pos := pos + 4
  store buf pos g.rootBlock

/-- `for (i = 0; i < n; i++) block_write(system_block+i, buf+i*BLOCK_SIZE);` -/
def writeBlocks (d : Disk) (systemBlock : Int) (buf : Buffer UInt8) : Nat → Disk
  | 0 => d
  | n + 1 => blockWrite (writeBlocks d systemBlock buf n) (systemBlock + n)
      (Block.ofFn fun j => buf (n * 512 + j))

/-- `sfs_destroy` -/
def sfsDestroy (junk : Buffer UInt8) (g : Globals) (d : Disk) : Disk :=
  writeBlocks d g.systemBlock (saveTables g junk) imageBlocks

/-- The scan for `KEY`: the number of probes before the one that finds it. -/
def findKey (d : Disk) : Option Int :=
  findFrom (fun i => int64At (load (blockRead d (numBlocks - i)).byte 0 8) = KEY)
    numBlocks.toNat 0

/-- `for (i = 0; i < n; i++) block_read(system_block+i, buf+i*BLOCK_SIZE);` -/
def readBlocks (d : Disk) (systemBlock : Int) (junk : Buffer UInt8) : Nat → Buffer UInt8
  | 0 => junk
  | n + 1 => store (readBlocks d systemBlock junk n) (n * 512)
      (blockRead d (systemBlock + n)).bytes

/-- The copies of `sfs_init` out of its buffer. -/
def loadTables (buf : Buffer UInt8) (g : Globals) : Globals :=
  let pos := 8
  let g := { g with inodeTable := load buf pos _ }
  let pos := pos + sizeofInodeTable
  let g := { g with nameTable := load buf pos _ }
  let pos := pos + sizeofNameTable
  let g := { g with diskBlocks := load buf pos _ }
  let pos := pos + sizeofDiskBlocks
  let g := { g with openFiles := load buf pos _ }
  let pos := pos + sizeofOpenFiles
  let g := { g with rootInode := load buf pos _ }
  let pos := pos + 4
  { g with rootBlock := load buf pos _ }

/-- The part of `sfs_init` that reads an image back: the globals and the buffer it starts
with are those of a new process. -/
def restoreTables (junk : Buffer UInt8) (g : Globals) (d : Disk) (systemBlock : Int) : Globals :=
  let g := loadTables (readBlocks d systemBlock junk imageBlocks)
    { g with systemBlock := systemBlock }
  { g with cwdInode := g.rootInode }

/-- `sfs_init`; a disk without an image is set up by `sfsInitFresh`. -/
def sfsInit (junk : Buffer UInt8) (g : Globals) (d : Disk) : Option Globals :=
  (findKey d).map fun i => restoreTables junk g d (numBlocks - i)

/-- No slice of the image but the first begins with the key. -/
def KeyOnce (image : Buffer UInt8) : Prop :=
  ∀ i, 1 ≤ i → i < imageBlocks → int64At (load image (i * 512) 8) ≠ KEY

/-- What one unmount and mount find in the memory they do not set. -/
structure Cycle where
  saveJunk : Buffer UInt8
  loadJunk : Buffer UInt8
  globals : Globals

/-- `sfs_destroy`, then `sfs_init` in a new process. -/
def Cycle.run (c : Cycle) (x : Globals × Disk) : Option (Globals × Disk) :=
  let d := sfsDestroy c.saveJunk x.1 x.2
  (sfsInit c.loadJunk c.globals d).map fun g => (g, d)

/-- Any number of unmounts and mounts. -/
def runCycles : List Cycle → Globals × Disk → Option (Globals × Disk)
  | [], x => some x
  | c :: cs, x => (c.run x).bind (runCycles cs)

section Buffers

variable {d : Disk} {b : Int} {buf junk : Buffer UInt8} {g g' : Globals} {n k i : Nat}

private theorem int64At_int64Bytes_key : int64At (int64Bytes KEY) = KEY := by
  decide

/-- A blank block does not have the key. -/
theorem int64At_zero : int64At (fun _ => 0) ≠ KEY := by
  decide

/-- Blocks outside the image stay. -/
theorem writeBlocks_ne {c : Int} (h : c < b ∨ b + n ≤ c) :
    writeBlocks d b buf n c = d c := by
  induction n with
  | zero => rfl
  | succ n ih =>
      have hne : c ≠ b + n := by omega
      rw [writeBlocks, blockWrite, Function.update_of_ne hne, ih (by omega)]

/-- A block of the image is read back. -/
theorem blockRead_writeBlocks (h₁ : b + n ≤ numBlocks) (hk : k < n) :
    blockRead (writeBlocks d b buf n) (b + k) = Block.ofFn fun j => buf (k * 512 + j) := by
  induction n with
  | zero => omega
  | succ n ih =>
      rw [writeBlocks]
      by_cases hkn : k = n
      · subst k
        exact blockRead_write_self (by omega)
      · rw [blockRead_write_ne (by omega)]
        exact ih (by omega) (by omega)

private theorem readBlocks_apply (hi : i < n * 512) :
    readBlocks d b junk n i = (blockRead d (b + (i / 512 : Nat))).byte (i % 512) := by
  induction n with
  | zero => omega
  | succ n ih =>
      rw [readBlocks]
      by_cases hin : i < n * 512
      · rw [store_outside (Or.inl hin), ih hin]
      · have hdiv : i / 512 = n := by omega
        have hsplit : i = n * 512 + i % 512 := by omega
        rw [hdiv, Block.byte, dif_pos (Nat.mod_lt _ (by decide))]
        conv_lhs => rw [hsplit]
        exact store_inside (Nat.mod_lt _ (by decide))

/-- The blocks that were written read back as the buffer. -/
theorem readBlocks_writeBlocks (h₁ : b + n ≤ numBlocks) (hi : i < n * 512) :
    readBlocks (writeBlocks d b buf n) b junk n i = buf i := by
  rw [readBlocks_apply hi, blockRead_writeBlocks h₁ (by omega),
    Block.byte_ofFn _ (Nat.mod_lt _ (by decide))]
  congr 1
  omega

end Buffers

section Tables

variable {buf buf' junk junk' : Buffer UInt8} {g g' : Globals} {i : Nat}

private theorem loadTables_congr (h : ∀ i < reserve, buf i = buf' i) :
    loadTables buf g = loadTables buf' g := by
  have hload : ∀ p m, p + m ≤ reserve → load buf p m = load buf' p m := fun p m hle =>
    load_congr fun i _ hi => h i (by omega)
  unfold loadTables
  simp only [hload 8 sizeofInodeTable (by decide),
    hload (8 + sizeofInodeTable) sizeofNameTable (by decide),
    hload (8 + sizeofInodeTable + sizeofNameTable) sizeofDiskBlocks (by decide),
    hload (8 + sizeofInodeTable + sizeofNameTable + sizeofDiskBlocks) sizeofOpenFiles (by decide),
    hload (8 + sizeofInodeTable + sizeofNameTable + sizeofDiskBlocks + sizeofOpenFiles) 4
      (by decide),
    hload (8 + sizeofInodeTable + sizeofNameTable + sizeofDiskBlocks + sizeofOpenFiles + 4) 4
      (by decide)]

/-- The image begins with the key. -/
theorem load_saveTables_key : load (saveTables g junk) 0 8 = int64Bytes KEY := by
  simp only [saveTables, Nat.zero_add]
  repeat rw [load_store_disjoint (by decide)]
  exact load_store_self

/-- **The two layouts agree.**  What `sfs_init` copies out is what `sfs_destroy` copied in. -/
theorem loadTables_saveTables : loadTables (saveTables g junk) g' =
    { g with systemBlock := g'.systemBlock, cwdInode := g'.cwdInode } := by
  simp only [loadTables, saveTables, Nat.zero_add]
  simp only [load_store_self]
  congr 1 <;> · repeat rw [load_store_disjoint (by decide)]
                exact load_store_self

/-- The image up to its last table does not depend on the buffer it was built in. -/
theorem saveTables_congr (hi : i < reserve) : saveTables g junk i = saveTables g junk' i := by
  refine store_congr fun h₇ => store_congr fun h₆ => store_congr fun h₅ =>
    store_congr fun h₄ => store_congr fun h₃ => store_congr fun h₂ => store_congr fun h₁ => ?_
  -- the seven copies leave no gap below `reserve`
  simp only [reserve, sizeofInodeTable, sizeofNameTable, sizeofDiskBlocks, sizeofOpenFiles]
    at hi h₁ h₂ h₃ h₄ h₅ h₆ h₇
  omega

/-- The first eight bytes of every slice are bytes of a table. -/
theorem KeyOnce.congr_junk (h : KeyOnce (saveTables g junk)) : KeyOnce (saveTables g junk') := by
  intro i hi₀ hi₁
  rw [show load (saveTables g junk') (i * 512) 8 = load (saveTables g junk) (i * 512) 8 from
    load_congr fun j _ hj => saveTables_congr ?_]
  · exact h i hi₀ hi₁
  · rw [imageBlocks_eq] at hi₁
    simp only [reserve, sizeofInodeTable, sizeofNameTable, sizeofDiskBlocks, sizeofOpenFiles]
    omega

/-- The tables come back from any blocks that hold the whole image. -/
theorem loadTables_readBlocks {d : Disk} {b : Int} {n : Nat}
    (h₁ : b + n ≤ numBlocks) (hn : reserve ≤ n * 512) :
    loadTables (readBlocks (writeBlocks d b (saveTables g junk) n) b junk' n) g' =
      { g with systemBlock := g'.systemBlock, cwdInode := g'.cwdInode } := by
  rw [loadTables_congr fun i hi => readBlocks_writeBlocks h₁ (by omega),
    loadTables_saveTables]

end Tables

section Remount

variable {d : Disk} {junk junk' : Buffer UInt8} {g fresh : Globals}

/-- The blocks from `system_block` on begin with the slices of the image. -/
theorem slice_sfsDestroy {k : Nat} (hsys : g.systemBlock = numBlocks - reserveBlocks)
    (hk : k < imageBlocks) :
    load (blockRead (sfsDestroy junk g d) (numBlocks - reserveBlocks + k)).byte 0 8 =
      load (saveTables g junk) (k * 512) 8 := by
  unfold sfsDestroy
  rw [hsys, blockRead_writeBlocks (by decide) hk]
  funext j
  simp only [load, Nat.zero_add]
  exact Block.byte_ofFn _ (by omega)

/-- **The scan stops at the image.**  It passes block 32768, which reads as zeros, and
the slices of the image above its first one. -/
theorem findKey_sfsDestroy (hsys : g.systemBlock = numBlocks - reserveBlocks)
    (hkey : KeyOnce (saveTables g junk)) :
    findKey (sfsDestroy junk g d) = some reserveBlocks := by
  refine findFrom_eq_some (by decide) (by decide) ?_ fun j hj₀ hj₁ => ?_
  · have hfirst :
        load (blockRead (sfsDestroy junk g d) (numBlocks - reserveBlocks + (0 : Nat))).byte
        0 8 = load (saveTables g junk) (0 * 512) 8 := slice_sfsDestroy hsys (by decide)
    rw [Nat.cast_zero, add_zero, Nat.zero_mul, load_saveTables_key] at hfirst
    rw [hfirst]
    simp [int64At_int64Bytes_key]
  · simp only [decide_eq_false_iff_not]
    rcases Int.eq_ofNat_of_zero_le hj₀ with ⟨n, rfl⟩
    by_cases hn : n = 0
    · subst n
      have hzero : load (blockRead (sfsDestroy junk g d) (numBlocks - (0 : Nat))).byte 0 8 =
          fun _ => 0 := by
        funext j
        rw [blockRead, if_neg (by decide)]
        exact Block.byte_zero _
      rw [hzero]
      exact int64At_zero
    · simp only [reserveBlocks] at hj₁
      have hpos : numBlocks - (n : Int) = numBlocks - reserveBlocks + ((211 - n : Nat) : Int) := by
        simp only [numBlocks, reserveBlocks]
        omega
      have hlt : 211 - n < imageBlocks := by rw [imageBlocks_eq]; omega
      rw [hpos, slice_sfsDestroy hsys hlt]
      exact hkey _ (by omega) hlt

/-- **What the next mount loads** is what the unmount has saved. -/
theorem loadTables_sfsDestroy (hsys : g.systemBlock = numBlocks - reserveBlocks) :
    loadTables (readBlocks (sfsDestroy junk g d) g.systemBlock junk' imageBlocks) fresh =
      { g with systemBlock := fresh.systemBlock, cwdInode := fresh.cwdInode } := by
  have htop : g.systemBlock + imageBlocks ≤ numBlocks := by rw [hsys]; decide
  have hroom : reserve ≤ imageBlocks * 512 := by decide
  exact loadTables_readBlocks htop hroom

/-- **One unmount and mount.** -/
theorem sfsInit_sfsDestroy (hsys : g.systemBlock = numBlocks - reserveBlocks)
    (hkey : KeyOnce (saveTables g junk)) :
    sfsInit junk' fresh (sfsDestroy junk g d) = some { g with cwdInode := g.rootInode } := by
  rw [sfsInit, findKey_sfsDestroy hsys hkey, Option.map_some, ← hsys, restoreTables,
    loadTables_sfsDestroy hsys]

/-- `sfs_destroy` writes nothing below the image. -/
theorem sfsDestroy_below {b : Int} (h : b < g.systemBlock) : sfsDestroy junk g d b = d b :=
  writeBlocks_ne (Or.inl h)

/-- **Unmount and remount round trip.**  Whatever the tables hold, whatever the disk and the
memory of either process held before, the scan finds the image where it was written, and the
mount, any number of times, gives the tables back. -/
theorem tables_survive_remount (g : Globals) (d : Disk) (junk : Buffer UInt8)
    (hsys : g.systemBlock = numBlocks - reserveBlocks) (hkey : KeyOnce (saveTables g junk)) :
    (∀ fresh junk', sfsInit junk' fresh (sfsDestroy junk g d) =
      some { g with cwdInode := g.rootInode }) ∧
    ∀ c cs, ∃ d', runCycles (c :: cs) (g, d) = some ({ g with cwdInode := g.rootInode }, d') ∧
      ∀ b < g.systemBlock, d' b = d b := by
  refine ⟨fun fresh junk' => sfsInit_sfsDestroy hsys hkey, fun c cs => ?_⟩
  induction cs generalizing c g d junk with
  | nil =>
      refine ⟨sfsDestroy c.saveJunk g d, ?_, fun b hb => sfsDestroy_below hb⟩
      rw [runCycles, Cycle.run, sfsInit_sfsDestroy hsys hkey.congr_junk]
      rfl
  | cons c' cs ih =>
      have hstep : c.run (g, d) =
          some ({ g with cwdInode := g.rootInode }, sfsDestroy c.saveJunk g d) := by
        rw [Cycle.run, sfsInit_sfsDestroy hsys hkey.congr_junk]
        rfl
      obtain ⟨d', hrun, hbelow⟩ := ih { g with cwdInode := g.rootInode }
        (sfsDestroy c.saveJunk g d) junk hsys hkey c'
      refine ⟨d', ?_, fun b hb => (hbelow b hb).trans (sfsDestroy_below hb)⟩
      rw [runCycles, hstep, Option.bind_some]
      exact hrun

/-- A process whose memory is zero. -/
def blankGlobals : Globals where
  inodeTable := fun _ => 0
  nameTable := fun _ => 0
  diskBlocks := fun _ => 0
  openFiles := fun _ => 0
  rootInode := fun _ => 0
  rootBlock := fun _ => 0
  systemBlock := numBlocks - reserveBlocks
  cwdInode := fun _ => 1

end Remount

end Sfs
