import CS416.Sfs.Alloc
import CS416.Sfs.Names

/-!
# The calls of the file system

One definition for each function of `sfs_oper` that reads or changes the
tables or the disk.  A call returns its C result and the new state, or stops.

`sfs_create` and `sfs_mkdir` append an entry to the parent directory by the
same statements, `sfs_unlink` and `sfs_rmdir` delete one by the same
statements; the two are `appendEntry` and `removeEntry`.
-/

namespace Sfs

open CInt CString

/-- Where the text of a directory ends: the logical block and the position in
it of the first `NUL`, from logical block `i` on.  From 1110 on there is only
block `-1`, which is read again and again if it has no `NUL`: the position is
512 then. -/
def textEndFrom (s : FS) (nd : Inode) : Nat → Int → Int × Nat
  | 0, i => (i, (stringAt 0 (blockBytes (blockRead s.disk (getBlockIndex s.disk nd i)))).length)
  | n + 1, i =>
      let text := stringAt 0 (blockBytes (blockRead s.disk (getBlockIndex s.disk nd i)))
      if text.length < 512 then (i, text.length) else textEndFrom s nd n (i + 1)

def textEnd (s : FS) (ino : Int) : Int × Nat :=
  textEndFrom s (s.inodeTable ino) 1110 0

/-- The directory buffer of two blocks after `sprintf(ptr, "/%s/%i", ...)`.
Its second half is not initialised; in `sfs_mkdir`, which allocates one block
only, it is the memory behind the buffer. -/
def appendBuffer (env : Env) (blk : Block) (pos : Nat) (entry : Path) (j : Nat) : UInt8 :=
  if pos ≤ j ∧ j ≤ pos + entry.length then (entry ++ [0]).getD (j - pos) 0
  else if j < 512 then blk.byte j else env.junk j

/-- The block a directory gets when the text in it, taken by `st_size`, has no
room for `size` more bytes: it becomes logical block `i + 1`. -/
def growDir (env : Env) (cwd i size : Int) (buf : Nat → UInt8) (s : FS) :
    Except Stop FS :=
  if (s.inodeTable cwd).stat.stSize.tmod blockSize + size > blockSize then do
    let (block, s) ← getBlock s
    let s ← setBlockIndex env cwd (toShort (i + 1)) block s
    return s.write block (Block.ofFn fun j => buf (512 + j))
  else return s

/-- Write `/name/ino` where the text of the directory of inode `cwd` ends. -/
def putEntry (env : Env) (cwd : Int) (entry : Path) (s : FS) : Except Stop FS := do
  let i := (textEnd s cwd).1
  let target := getBlockIndex s.disk (s.inodeTable cwd) i
  let buf := appendBuffer env (blockRead s.disk target) (textEnd s cwd).2 entry
  let size : Int := entry.length + 1
  let s ← growDir env cwd i size buf (s.write target (Block.ofFn buf))
  return s.modStat cwd fun st =>
    { st with stSize := toInt64 (st.stSize + size), stNlink := toU64 (st.stNlink + 1) }

/-- Enter `/name/ino` into the directory of inode `cwd`. -/
def appendEntry (env : Env) (cwd : Int) (entry : Path) (s : FS) : Except Stop FS :=
  if (textEnd s cwd).2 < 512 then putEntry env cwd entry s else .error .noReturn

/-- `size/BLOCK_SIZE + (size%BLOCK_SIZE) ? 1 : 0`, where `?:` binds last. -/
def dirBlocks (size : Int) : Int :=
  if size.tdiv blockSize + size.tmod blockSize ≠ 0 then 1 else 0

/-- The string in the buffer that `blocks` blocks of a directory are read to. -/
def dirString (env : Env) (s : FS) (cwd blocks : Int) : Path :=
  if blocks = 0 then stringAt 0 env.behind
  else
    stringAt 0
      (blockBytes (blockRead s.disk (getBlockIndex s.disk (s.inodeTable cwd) 0)) ++ env.behind)

/-- Write the text back to the blocks it was read from. -/
def storeText (cwd blocks : Int) (text : Path) (s : FS) : FS :=
  if blocks = 0 then s
  else s.write (getBlockIndex s.disk (s.inodeTable cwd) 0) (textBlock text)

/-- Give up logical block `blocks` of a directory if its size, less `resize`,
takes fewer whole blocks. -/
def shrinkDir (env : Env) (cwd size resize blocks : Int) (s : FS) : Except Stop FS :=
  if size.tdiv blockSize > (size - resize).tdiv blockSize then
    setBlockIndex env cwd blocks (-1)
      (s.setUsed (getBlockIndex s.disk (s.inodeTable cwd) blocks) FREE)
  else return s

/-- Delete `/name/ino` from the directory of inode `cwd`.  A text longer than
the block would make the length of the `memset` negative. -/
def removeEntry (env : Env) (cwd : Int) (entry : Path) (s : FS) : Except Stop FS :=
  let size := toInt (s.inodeTable cwd).stat.stSize
  let blocks := dirBlocks size
  let text := removeSubstring (dirString env s cwd blocks) entry
  let resize : Int := blockSize - text.length
  if resize < 0 then .error .undefined
  else do
    let s ← shrinkDir env cwd size resize blocks (storeText cwd blocks text s)
    return s.modStat cwd fun st =>
      { st with stSize := toInt64 (st.stSize - resize), stNlink := toU64 (st.stNlink - 1) }

/-- `sfs_getattr`, for the case that the path is found; the other one fills
the buffer with defaults and returns `-ENOENT`. -/
def sfsGetattr (env : Env) (path : Path) (s : FS) : Int × Stat :=
  let mapping := pathLookup s path
  if mapping < 0 then
    (-ENOENT,
      { stMode := 0o100777, stNlink := 1, stUid := env.uid, stGid := env.gid
        stSize := 0, stBlocks := 0
        stAtime := env.atime, stMtime := env.mtime, stCtime := env.ctime })
  else (0, (s.inodeTable mapping).stat)

/-- Fill in `name_table[mapping]` and look the parent directory up. -/
def enterName (mapping inode : Int) (path : Path) (s : FS) : FS :=
  let s := s.setName mapping { s.nameTable mapping with stIno := inode, path := path }
  { s with cwdInode := (s.nameTable (pathLookup s (getCwdPath path))).stIno }

/-- `sfs_create`; `fi` is `fi->fh`.  The test `fi->fh < 0` is on an unsigned
field and never holds. -/
def sfsCreate (env : Env) (path : Path) (mode : Nat) (fi : Int) (s : FS) :
    Except Stop (Int × Int × FS) :=
  if pathLookup s path > 0 then .ok (-EEXIST, fi, s)
  else
    let fi := toU64 (getFh s)
    let (inode, s) := getInode s
    let s := s.setOpen (handleIndex fi) { refcnt := 1, stIno := inode, pos := 0 }
    let s := s.modStat inode fun _ =>
      { stMode := mode, stNlink := 1, stUid := env.uid, stGid := env.gid
        stSize := 0, stBlocks := 0
        stAtime := env.atime, stMtime := env.mtime, stCtime := env.ctime }
    let (mapping, s) := getMapping s
    if mapping < 0 then .ok (-ENOMEM, fi, freeFh fi (freeInode inode s))
    else if ¬ PathFits path then .error .undefined
    else do
      let s := enterName mapping inode path s
      let s ← appendEntry env s.cwdInode (dirEntry (getName path) inode) s
      return (0, fi, s)

/-- `sfs_mkdir` -/
def sfsMkdir (env : Env) (path : Path) (mode : Nat) (s : FS) : Except Stop (Int × FS) :=
  if pathLookup s path > 0 then .ok (-EEXIST, s)
  else do
    let (inode, s) := getInode s
    let s := s.modStat inode fun _ =>
      { stMode := mode ||| S_IFDIR, stNlink := 2, stUid := env.uid, stGid := env.gid
        stSize := 512, stBlocks := 1
        stAtime := env.atime, stMtime := env.mtime, stCtime := env.ctime }
    let (b, s) ← getBlock s
    let s := s.setBlocks inode 0 b
    let (mapping, s) := getMapping s
    if mapping < 0 then .ok (-ENOMEM, freeInode inode s)
    else if ¬ PathFits path then .error .undefined
    else do
      let s := enterName mapping inode path s
      let s := s.write (getBlockIndex s.disk (s.inodeTable inode) 0)
        (textBlock (dirHeader inode s.cwdInode))
      let s ← appendEntry env s.cwdInode (dirEntry (getName path) inode) s
      return (0, s)

/-- `sfs_unlink` -/
def sfsUnlink (env : Env) (path : Path) (s : FS) : Except Stop (Int × FS) :=
  let mapping := pathLookup s path
  if mapping < 0 then .ok (-ENOENT, s)
  else do
    let ino := (s.nameTable mapping).stIno
    let cwd := (s.nameTable (pathLookup s (getCwdPath path))).stIno
    let s := { s with cwdInode := cwd }
    let s ← removeEntry env cwd (dirEntry (getName path) ino) s
    return (0, freeMapping mapping (freeInode ino s))

/-- `sfs_rmdir`.  The count of slashes it takes of the parent's text is not
used. -/
def sfsRmdir (env : Env) (path : Path) (s : FS) : Except Stop (Int × FS) :=
  let mapping := pathLookup s path
  if mapping < 0 then .ok (-ENOENT, s)
  else
    let ino := (s.nameTable mapping).stIno
    let cwd := (s.nameTable (pathLookup s (getCwdPath path))).stIno
    let s := { s with cwdInode := cwd }
    if (s.inodeTable ino).stat.stNlink > 2 then .ok (-ENOTEMPTY, s)
    else do
      let s ← removeEntry env cwd (dirEntry (getName path) ino) s
      return (0, freeMapping mapping (freeInode ino s))

/-- `sfs_open`.  The test `access(path, R_OK) == EACCES` never holds, since
`access` returns `0` or `-1`.  The result on success is the handle. -/
def sfsOpen (path : Path) (fi : Int) (s : FS) : Int × Int × FS :=
  let mapping := pathLookup s path
  if mapping < 0 then (-ENOENT, fi, s)
  else
    let ino := (s.nameTable mapping).stIno
    if isDirMode (s.inodeTable ino).stat.stMode then (-EISDIR, fi, s)
    else
      let fh := getFh s
      if fh < 0 then (-ENOMEM, fi, s)
      else
        (fh, toU64 fh,
          s.setOpen (handleIndex (toU64 fh)) { refcnt := 1, stIno := ino, pos := 0 })

/-- `sfs_release` -/
def sfsRelease (fh : Int) (s : FS) : Int × FS := (0, freeFh fh s)

/-- `fi->fh < 0 || fi->fh > MAX_LINK-1`, on an unsigned field. -/
def handleOutOfRange (fh : Int) : Prop := toU64 fh > maxLink - 1

instance (fh : Int) : Decidable (handleOutOfRange fh) :=
  inferInstanceAs (Decidable (_ > _))

/-- `read_blocks` of `sfs_read` and `write_blocks` of `sfs_write`: the number
of blocks that the range meets, in 64-bit unsigned arithmetic. -/
def rangeBlocks (offset size : Int) : Int :=
  let blockOffset := offset.tmod blockSize
  toInt
    ((if blockOffset ≠ 0 then 1 else 0) +
      toU64 (size - (if blockOffset ≠ 0 then blockSize - blockOffset else 0)) / blockSize +
      (if toU64 (offset + size) % blockSize ≠ 0 then 1 else 0))

/-- `sfs_read`: its result and the bytes it puts into the buffer.  It stops
when the copy would run over the end of the block-aligned buffer. -/
def sfsRead (fh : Int) (size : Nat) (offset : Int) (s : FS) :
    Except Stop (Int × List UInt8) :=
  let ino := (s.openFiles (handleIndex fh)).stIno
  if handleOutOfRange fh then .ok (-EBADF, [])
  else if ino < 0 then .ok (-EBADF, [])
  else
    let nd := s.inodeTable ino
    if offset ≥ nd.stat.stSize then .ok (eofCode, [])
    else
      let size : Int :=
        if toU64 (offset + size) > toU64 nd.stat.stSize then toU64 (nd.stat.stSize - offset)
        else size
      let startBlock := toInt (offset.tdiv blockSize)
      let blockOffset := offset.tmod blockSize
      if blockOffset < 0 ∨ blockOffset + size > rangeBlocks offset size * blockSize then
        .error .undefined
      else
        .ok (toInt size, (List.range size.toNat).map fun j =>
          let p := blockOffset.toNat + j
          (blockRead s.disk
            (getBlockIndex s.disk nd (toShort (startBlock + (p / 512 : Nat))))).byte (p % 512))

/-- The growth loop of `sfs_write`: its result is `0`, or the error that the
call returns. -/
def growLoop (env : Env) (ino : Int) : Nat → Int → FS → Except Stop (Int × FS)
  | 0, _, s => return (0, s)
  | n + 1, i, s => do
      let (block, s) ← getBlock s
      if block < 0 then return (-ENOMEM, s)
      else if i > maxFileBlocks then return (-EFBIG, s)
      else do
        let s ← setBlockIndex env ino (toShort i) block s
        growLoop env ino n (i + 1)
          (s.modStat ino fun st => { st with stBlocks := st.stBlocks + 1 })

/-- `blocks_needed` of `sfs_write` -/
def blocksNeeded (total stSize : Int) : Int :=
  toInt
    (total / blockSize - stSize.tdiv blockSize - (if stSize.tmod blockSize ≠ 0 then 1 else 0) +
      (if total % blockSize ≠ 0 then 1 else 0))

/-- `((st_size)/BLOCK_SIZE + (((st_size)%BLOCK_SIZE) ? 1 : 0))*BLOCK_SIZE` -/
def roundUp (stSize : Int) : Int :=
  (stSize.tdiv blockSize + (if stSize.tmod blockSize ≠ 0 then 1 else 0)) * blockSize

/-- The resizing part of `sfs_write`. -/
def growFile (env : Env) (ino : Int) (total : Int) (s : FS) : Except Stop (Int × FS) :=
  let st := (s.inodeTable ino).stat
  if total > toU64 (roundUp st.stSize) then
    growLoop env ino (blocksNeeded total st.stSize).toNat (toInt st.stBlocks) s
  else return (0, s)

/-- `for (i = 0; i < n; i++) block_write(get_block_index(inode, start + i), pos + i*512);`,
from `i` on. -/
def writeBack (ino start : Int) (buf : Nat → UInt8) : Nat → Nat → FS → FS
  | 0, _, s => s
  | n + 1, i, s =>
      writeBack ino start buf n (i + 1)
        (s.write (getBlockIndex s.disk (s.inodeTable ino) (toShort (start + i)))
          (Block.ofFn fun j => buf (512 * i + j)))

/-- The cleared buffer of `sfs_write` after its first block has been loaded and
the data copied to `blockOffset`. -/
def contBuffer (first : Block) (blockOffset : Nat) (buf : Nat → UInt8) (size j : Nat) : UInt8 :=
  if blockOffset ≤ j ∧ j < blockOffset + size then buf (j - blockOffset) else first.byte j

/-- The part of `sfs_write` after the resizing.  It stops when the copy would run
over the end of the block-aligned buffer. -/
def writeData (ino : Int) (buf : Nat → UInt8) (size : Nat) (offset : Int) (s : FS) :
    Except Stop (Int × FS) :=
  let startBlock := toInt (offset.tdiv blockSize)
  let blockOffset := offset.tmod blockSize
  if blockOffset < 0 ∨ blockOffset + size > rangeBlocks offset size * blockSize then
    .error .undefined
  else
    let first := blockRead s.disk
      (getBlockIndex s.disk (s.inodeTable ino) (toShort startBlock))
    let s := writeBack ino startBlock (contBuffer first blockOffset.toNat buf size)
      (rangeBlocks offset size).toNat 0 s
    return (toInt size, s.modStat ino fun st =>
      { st with stSize := toInt64 (st.stSize + size) })

/-- `sfs_write` -/
def sfsWrite (env : Env) (fh : Int) (buf : Nat → UInt8) (size : Nat) (offset : Int) (s : FS) :
    Except Stop (Int × FS) :=
  let ino := (s.openFiles (handleIndex fh)).stIno
  if handleOutOfRange fh then .ok (-EBADF, s)
  else if ino < 0 then .ok (-EBADF, s)
  else if offset > (s.inodeTable ino).stat.stSize then .ok (0, s)
  else do
    let (r, s) ← growFile env ino (toU64 (offset + size)) s
    if r < 0 then return (r, s)
    else writeData ino buf size offset s

/-- Every second token, as `filler` gets them: the names without the inode
numbers between them. -/
def everyOther : List Path → List Path
  | [] => []
  | [name] => [name]
  | name :: _ :: rest => name :: everyOther rest

/-- `sfs_readdir`: its result and the names it hands to `filler`. -/
def sfsReaddir (env : Env) (path : Path) (s : FS) : Int × List Path :=
  let mapping := pathLookup s path
  if mapping < 0 then (-ENOENT, [])
  else
    let nd := s.inodeTable (s.nameTable mapping).stIno
    let text :=
      if dirBlocks nd.stat.stSize = 0 then stringAt 0 env.behind
      else stringAt 0 (blockBytes (blockRead s.disk (nd.blocks 0)) ++ env.behind)
    (0, everyOther (strtok slash text))

/-- The tables after the four `memset`s of `sfs_init`. -/
def clearTables (s : FS) : FS :=
  { s with
    inodeTable := fun i =>
      if 0 ≤ i ∧ i < maxNodes then ⟨FREE, Stat.zero, fun _ => 0⟩ else s.inodeTable i
    nameTable := fun i =>
      if 0 ≤ i ∧ i < maxLink then ⟨FREE, 0, []⟩ else s.nameTable i
    diskBlocks := fun i => if 0 ≤ i ∧ i < numBlocks then FREE else s.diskBlocks i
    openFiles := fun i => if 0 ≤ i ∧ i < maxLink then ⟨0, 0, 0⟩ else s.openFiles i }

/-- `for (i = 0; i < MAX_LINK; i++) open_files[i].st_ino = -1;` -/
def closeAll (s : FS) : FS :=
  { s with openFiles := fun i =>
      if 0 ≤ i ∧ i < maxLink then { s.openFiles i with stIno := -1 } else s.openFiles i }

/-- `reserve_blocks`: the tables take 107536 bytes, and `(reserve + BLOCK_SIZE)/BLOCK_SIZE`
blocks are set aside for them. -/
abbrev reserveBlocks : Int := 211

/-- The part of `sfs_init` that sets up a disk without a saved image.  The
block it writes for the root directory is read from a literal of nine bytes. -/
def sfsInitFresh (env : Env) (s : FS) : Except Stop FS := do
  let (rootInode, s) := getInode (clearTables s)
  let s := s.modStat rootInode fun _ =>
    { stMode := 0o040777, stNlink := 2, stUid := env.uid, stGid := env.gid
      stSize := blockSize, stBlocks := 1
      stAtime := env.atime, stMtime := env.mtime, stCtime := env.ctime }
  let s := s.modInode rootInode fun nd =>
    { nd with blocks := fun j => if 0 ≤ j ∧ j < 12 then -1 else nd.blocks j }
  let (rootMapping, s) := getMapping (closeAll s)
  let s := s.setName rootMapping
    { s.nameTable rootMapping with stIno := rootInode, path := [slash] }
  let (rootBlock, s) ← getBlock s
  let s ← setBlockIndex env rootInode 0 rootBlock s
  let s := s.write 0 Block.zero
  let s := s.write 0 (Block.ofFn fun j =>
    if j < 8 then (dirHeader 0 0).getD j 0 else if j = 8 then 0 else env.junk j)
  let s := s.modStat rootInode fun st => { st with stSize := 9 }
  return { s with
    rootInode := rootInode
    rootBlock := rootBlock
    systemBlock := numBlocks - reserveBlocks }

end Sfs
