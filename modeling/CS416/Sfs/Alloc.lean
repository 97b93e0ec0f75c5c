import CS416.Sfs.State

/-!
# Allocation of inodes, names, handles and blocks

The six small allocators of `sfs.c`, and the block map of an inode: ten
direct blocks, a block of 100 entries behind `blocks[10]`, and ten such
blocks behind `blocks[11]`.
-/

namespace Sfs

open CInt Search

/-- `get_inode` -/
def getInode (s : FS) : Int × FS :=
  match findFrom (fun i => (s.inodeTable i).avail = FREE) maxNodes.toNat 0 with
  | some i =>
      (i, s.modInode i fun nd =>
        { nd with
          avail := ALLOCD
          blocks := fun j => if 0 ≤ j ∧ j < 12 then -1 else nd.blocks j })
  | none => (-1, s)

/-- `for (; n > 0; n--, k++) if (buf[k] > 0) disk_blocks[buf[k]] = FREE; else break;` -/
def freeRun (buf : Block) : Nat → Nat → (Int → Int) → Int → Int
  | 0, _, used => used
  | n + 1, k, used =>
      if 0 < buf.short k then
        freeRun buf n (k + 1) (Function.update used (buf.short k) FREE)
      else used

/-- The loop of `free_inode` over the index blocks behind `blocks[11]`. -/
def freeSubs (d : Disk) (buf : Block) : Nat → Nat → (Int → Int) → Int → Int
  | 0, _, used => used
  | n + 1, i, used =>
      if 0 < buf.short i then
        freeSubs d buf n (i + 1)
          (Function.update (freeRun (blockRead d (buf.short i)) 100 0 used)
            (buf.short i) FREE)
      else used

/-- `for (i = 0; i < n; i++) disk_blocks[blocks[i]] = FREE;` -/
def freeDirect (blocks : Int → Int) : Nat → (Int → Int) → Int → Int
  | 0, used => used
  | n + 1, used => Function.update (freeDirect blocks n used) (blocks n) FREE

/-- The part of `free_inode` for the blocks behind `blocks[11]`. -/
def freeDouble (d : Disk) (blocks : Int → Int) (used : Int → Int) : Int → Int :=
  if 0 < blocks 11 then
    Function.update (freeSubs d (blockRead d (blocks 11)) 10 0 used) (blocks 11) FREE
  else used

/-- The part of `free_inode` for the blocks behind `blocks[10]`. -/
def freeSingle (d : Disk) (blocks : Int → Int) (used : Int → Int) : Int → Int :=
  if 0 < blocks 10 then
    Function.update (freeRun (blockRead d (blocks 10)) 100 0 used) (blocks 10) FREE
  else used

/-- What `free_inode` leaves in `disk_blocks`.  The guard of its last loop
compares the address of the array `blocks` with zero, so it always holds. -/
def freeBlocks (d : Disk) (blocks : Int → Int) (used : Int → Int) : Int → Int :=
  freeDirect blocks 10 (freeSingle d blocks (freeDouble d blocks used))

/-- `free_inode` -/
def freeInode (ino : Int) (s : FS) : FS :=
  let s := s.modStat ino fun st => { st with stNlink := toU64 (st.stNlink - 1) }
  if 0 < (s.inodeTable ino).stat.stNlink then s
  else
    { s with diskBlocks := freeBlocks s.disk (s.inodeTable ino).blocks s.diskBlocks }.modInode
      ino fun nd =>
        { avail := FREE
          stat := Stat.zero
          blocks := fun j => if 0 ≤ j ∧ j < 10 then -1 else nd.blocks j }

/-- `get_mapping` -/
def getMapping (s : FS) : Int × FS :=
  match findFrom (fun i => (s.nameTable i).avail = FREE) maxLink.toNat 0 with
  | some i => (i, s.setName i { s.nameTable i with avail := ALLOCD })
  | none => (-1, s)

/-- `free_mapping` -/
def freeMapping (m : Int) (s : FS) : FS :=
  s.setName m { avail := FREE, stIno := -1, path := [] }

/-- The loop of `get_block`.  Its counter is a `short`, so it never reaches
`NUM_BLOCKS`: after 32767 it goes on at -32768, in front of the table. -/
def getBlockScan (used : Int → Int) : Nat → Int → Option Int
  | 0, _ => none
  | n + 1, i =>
      if i < numBlocks then
        if used i = FREE then some i else getBlockScan used n (toShort (i + 1))
      else some (-1)

/-- `get_block`.  Its counter takes 65536 values; the call stops without a
result when the scan has left the table. -/
def getBlock (s : FS) : Except Stop (Int × FS) :=
  match getBlockScan s.diskBlocks 65536 0 with
  | some i => if 0 ≤ i then .ok (i, s.setUsed i ALLOCD) else .error .noReturn
  | none => .error .noReturn

/-- `get_block_index` -/
def getBlockIndex (d : Disk) (nd : Inode) (blockNum : Int) : Int :=
  if blockNum < 10 then nd.blocks blockNum
  else if blockNum < 110 then
    (blockRead d (nd.blocks 10)).short (blockNum - 10).toNat
  else if blockNum < 1110 then
    let subIndex := (blockRead d (nd.blocks 11)).short ((blockNum - 110) / 100).toNat
    (blockRead d subIndex).short ((blockNum - 110) % 100).toNat
  else -1

/-- The index block behind `blocks[10]`, allocated and cleared if there is none. -/
def openSingle (ino : Int) (s : FS) : Except Stop (Block × FS) :=
  if (s.inodeTable ino).blocks 10 < 0 then do
    let (b, s) ← getBlock s
    let s := s.setBlocks ino 10 b
    return ((blockRead s.disk b).fillShorts 100 (-1), s)
  else return (blockRead s.disk ((s.inodeTable ino).blocks 10), s)

/-- The index block behind `blocks[11]`.  A new one is written out with ten
cleared entries; the rest of it is what the stack buffer held. -/
def openDouble (env : Env) (ino : Int) (s : FS) : Except Stop (Block × FS) :=
  if (s.inodeTable ino).blocks 11 < 0 then do
    let (b, s) ← getBlock s
    let s := s.setBlocks ino 11 b
    let buf := (Block.ofFn env.junk).fillShorts 10 (-1)
    return (buf, s.write b buf)
  else return (blockRead s.disk ((s.inodeTable ino).blocks 11), s)

/-- The second-level index block at entry `k` of `buf`, the block behind
`blocks[11]`; a new one is entered there. -/
def openSub (ino : Int) (k : Nat) (buf : Block) (s : FS) :
    Except Stop (Int × Block × FS) :=
  if buf.short k < 0 then do
    let (b, s) ← getBlock s
    let buf := buf.setShort k b
    let s := s.write ((s.inodeTable ino).blocks 11) buf
    return (b, buf.fillShorts 100 (-1), s)
  else return (buf.short k, blockRead s.disk (buf.short k), s)

/-- `set_block_index` on the inode `inode_table[ino]` -/
def setBlockIndex (env : Env) (ino blockNum index : Int) (s : FS) : Except Stop FS :=
  if blockNum < 10 then return s.setBlocks ino blockNum index
  else if blockNum < 110 then do
    let (buf, s) ← openSingle ino s
    return s.write ((s.inodeTable ino).blocks 10) (buf.setShort (blockNum - 10).toNat index)
  else if blockNum ≤ 1110 then do
    let (buf, s) ← openDouble env ino s
    let (subIndex, buf, s) ← openSub ino ((blockNum - 110) / 100).toNat buf s
    return s.write subIndex (buf.setShort ((blockNum - 110) % 100).toNat index)
  else return s

/-- `free_block` -/
def freeBlock (i : Int) (s : FS) : FS := s.setUsed i FREE

/-- `get_fh` -/
def getFh (s : FS) : Int :=
  (findFrom (fun i => (s.openFiles i).stIno < 0) maxLink.toNat 0).getD (-1)

/-- The index that `fi->fh`, an unsigned 64-bit field, names in `open_files`. -/
def handleIndex (fh : Int) : Int := toInt64 fh

/-- `free_fh`; its parameter is an `int`. -/
def freeFh (fh : Int) (s : FS) : FS :=
  s.setOpen (toInt fh) { refcnt := 0, stIno := -1, pos := 0 }

end Sfs
