import CS416.Lib.Search
import CS416.Sfs.Disk

/-!
# The tables of the file system

The globals of `sfs.c` and the disk file form one state record.  A table is
indexed by an `int`, as in C, and a cell outside its bounds is memory next to
the table: the code does use index `-1`, and then touches that cell and no
entry of the table.

Two things stop a call without a result: `get_block` running past the end of
`disk_blocks`, and the uses of the C library whose effect the language leaves
undefined.
-/

namespace Sfs

open CInt

/-- `MAX_NODES`, the length of `inode_table` -/
abbrev maxNodes : Int := 128

/-- `MAX_LINK`, the length of `name_table` and of `open_files` -/
abbrev maxLink : Int := 128

/-- `MAX_PATH_LEN` -/
abbrev maxPathLen : Nat := 128

/-- `MAX_FILE_BLOCKS` -/
abbrev maxFileBlocks : Int := 1110

/-- `FREE`, as an `avail` flag and as an entry of `disk_blocks` -/
abbrev FREE : Int := 0

/-- `ALLOCD` -/
abbrev ALLOCD : Int := 1

abbrev ENOENT : Int := 2
abbrev EBADF : Int := 9
abbrev ENOMEM : Int := 12
abbrev EEXIST : Int := 17
abbrev EISDIR : Int := 21
abbrev EFBIG : Int := 27
abbrev ENOTEMPTY : Int := 39

/-- The `EOF` of `stdio.h`. -/
abbrev eofCode : Int := -1

/-- The type bits of `st_mode`, and the type of a directory. -/
abbrev S_IFMT : Nat := 0o170000
abbrev S_IFDIR : Nat := 0o040000

/-- `S_ISDIR` -/
def isDirMode (mode : Nat) : Bool := mode &&& S_IFMT = S_IFDIR

/-- The fields of `struct stat` that the file system sets. -/
structure Stat where
  stMode : Nat
  stNlink : Int
  stUid : Nat
  stGid : Nat
  stSize : Int
  stBlocks : Int
  stAtime : Int
  stMtime : Int
  stCtime : Int
  deriving DecidableEq

/-- `memset(&stat, 0, sizeof(struct stat))` -/
def Stat.zero : Stat := ⟨0, 0, 0, 0, 0, 0, 0, 0, 0⟩

/-- `inode_t`; `blocks` has the indices `0` to `11`. -/
structure Inode where
  avail : Int
  stat : Stat
  blocks : Int → Int

/-- A path: the bytes of a C string. -/
abbrev Path := List UInt8

/-- `path_map_t` -/
structure PathMap where
  avail : Int
  stIno : Int
  path : Path

/-- `file_entry_t` -/
structure FileEntry where
  refcnt : Int
  stIno : Int
  pos : Int

/-- The globals of `sfs.c`, with the disk file. -/
structure FS where
  inodeTable : Int → Inode
  nameTable : Int → PathMap
  openFiles : Int → FileEntry
  diskBlocks : Int → Int
  rootInode : Int
  rootBlock : Int
  systemBlock : Int
  cwdInode : Int
  disk : Disk

/-- What a call takes from outside the program: the identity of the process,
the three times it reads, the bytes of memory it has not initialised, and the
rest of a string that runs off the end of a buffer. -/
structure Env where
  uid : Nat
  gid : Nat
  atime : Int
  mtime : Int
  ctime : Int
  junk : Nat → UInt8
  behind : List UInt8

/-- Why a call ends without a result: it loops forever, looking for a free block or for the
end of a directory, or its behaviour is undefined. -/
inductive Stop
  | noReturn
  | undefined
  deriving DecidableEq

namespace FS

/-- Assign to a field of `inode_table[ino]`. -/
def modInode (s : FS) (ino : Int) (f : Inode → Inode) : FS :=
  { s with inodeTable := Function.update s.inodeTable ino (f (s.inodeTable ino)) }

/-- Assign to a field of `inode_table[ino].stat`. -/
def modStat (s : FS) (ino : Int) (f : Stat → Stat) : FS :=
  s.modInode ino fun nd => { nd with stat := f nd.stat }

/-- `inode_table[ino].blocks[k] = b` -/
def setBlocks (s : FS) (ino k b : Int) : FS :=
  s.modInode ino fun nd => { nd with blocks := Function.update nd.blocks k b }

/-- `disk_blocks[b] = v` -/
def setUsed (s : FS) (b v : Int) : FS :=
  { s with diskBlocks := Function.update s.diskBlocks b v }

/-- `block_write` on the disk file. -/
def write (s : FS) (n : Int) (b : Block) : FS :=
  { s with disk := blockWrite s.disk n b }

def setName (s : FS) (m : Int) (e : PathMap) : FS :=
  { s with nameTable := Function.update s.nameTable m e }

def setOpen (s : FS) (fh : Int) (e : FileEntry) : FS :=
  { s with openFiles := Function.update s.openFiles fh e }

section Fields

variable (s : FS) (ino k b v m fh : Int) (f : Inode → Inode) (g : Stat → Stat)
  (blk : Block) (e : PathMap) (o : FileEntry)

@[simp] theorem modInode_nameTable : (s.modInode ino f).nameTable = s.nameTable := rfl
@[simp] theorem modInode_openFiles : (s.modInode ino f).openFiles = s.openFiles := rfl
@[simp] theorem modInode_diskBlocks : (s.modInode ino f).diskBlocks = s.diskBlocks := rfl
@[simp] theorem modInode_disk : (s.modInode ino f).disk = s.disk := rfl
@[simp] theorem modInode_inodeTable_self :
    (s.modInode ino f).inodeTable ino = f (s.inodeTable ino) := by simp [modInode]

theorem modInode_inodeTable_ne {j : Int} (h : j ≠ ino) :
    (s.modInode ino f).inodeTable j = s.inodeTable j := by simp [modInode, h]

@[simp] theorem modStat_nameTable : (s.modStat ino g).nameTable = s.nameTable := rfl
@[simp] theorem modStat_openFiles : (s.modStat ino g).openFiles = s.openFiles := rfl
@[simp] theorem modStat_diskBlocks : (s.modStat ino g).diskBlocks = s.diskBlocks := rfl
@[simp] theorem modStat_disk : (s.modStat ino g).disk = s.disk := rfl
@[simp] theorem modStat_avail (j : Int) :
    ((s.modStat ino g).inodeTable j).avail = (s.inodeTable j).avail := by
  by_cases h : j = ino
  · subst j; simp [modStat]
  · simp [modStat, modInode_inodeTable_ne, h]
@[simp] theorem modStat_blocks (j : Int) :
    ((s.modStat ino g).inodeTable j).blocks = (s.inodeTable j).blocks := by
  by_cases h : j = ino
  · subst j; simp [modStat]
  · simp [modStat, modInode_inodeTable_ne, h]
@[simp] theorem modStat_stat_self :
    ((s.modStat ino g).inodeTable ino).stat = g (s.inodeTable ino).stat := by simp [modStat]

theorem modStat_inodeTable_ne {j : Int} (h : j ≠ ino) :
    (s.modStat ino g).inodeTable j = s.inodeTable j :=
  modInode_inodeTable_ne s ino _ h

@[simp] theorem setBlocks_nameTable : (s.setBlocks ino k b).nameTable = s.nameTable := rfl
@[simp] theorem setBlocks_openFiles : (s.setBlocks ino k b).openFiles = s.openFiles := rfl
@[simp] theorem setBlocks_diskBlocks : (s.setBlocks ino k b).diskBlocks = s.diskBlocks := rfl
@[simp] theorem setBlocks_disk : (s.setBlocks ino k b).disk = s.disk := rfl
@[simp] theorem setBlocks_avail (j : Int) :
    ((s.setBlocks ino k b).inodeTable j).avail = (s.inodeTable j).avail := by
  by_cases h : j = ino
  · subst j; simp [setBlocks]
  · simp [setBlocks, modInode_inodeTable_ne, h]
@[simp] theorem setBlocks_stat (j : Int) :
    ((s.setBlocks ino k b).inodeTable j).stat = (s.inodeTable j).stat := by
  by_cases h : j = ino
  · subst j; simp [setBlocks]
  · simp [setBlocks, modInode_inodeTable_ne, h]
@[simp] theorem setBlocks_blocks_self :
    ((s.setBlocks ino k b).inodeTable ino).blocks =
      Function.update (s.inodeTable ino).blocks k b := by simp [setBlocks]

theorem setBlocks_inodeTable_ne {j : Int} (h : j ≠ ino) :
    (s.setBlocks ino k b).inodeTable j = s.inodeTable j :=
  modInode_inodeTable_ne s ino _ h

@[simp] theorem setUsed_inodeTable : (s.setUsed b v).inodeTable = s.inodeTable := rfl
@[simp] theorem setUsed_nameTable : (s.setUsed b v).nameTable = s.nameTable := rfl
@[simp] theorem setUsed_openFiles : (s.setUsed b v).openFiles = s.openFiles := rfl
@[simp] theorem setUsed_disk : (s.setUsed b v).disk = s.disk := rfl
@[simp] theorem setUsed_diskBlocks :
    (s.setUsed b v).diskBlocks = Function.update s.diskBlocks b v := rfl

@[simp] theorem write_inodeTable : (s.write b blk).inodeTable = s.inodeTable := rfl
@[simp] theorem write_nameTable : (s.write b blk).nameTable = s.nameTable := rfl
@[simp] theorem write_openFiles : (s.write b blk).openFiles = s.openFiles := rfl
@[simp] theorem write_diskBlocks : (s.write b blk).diskBlocks = s.diskBlocks := rfl
@[simp] theorem write_disk : (s.write b blk).disk = blockWrite s.disk b blk := rfl

@[simp] theorem setName_inodeTable : (s.setName m e).inodeTable = s.inodeTable := rfl
@[simp] theorem setName_openFiles : (s.setName m e).openFiles = s.openFiles := rfl
@[simp] theorem setName_diskBlocks : (s.setName m e).diskBlocks = s.diskBlocks := rfl
@[simp] theorem setName_disk : (s.setName m e).disk = s.disk := rfl
@[simp] theorem setName_nameTable :
    (s.setName m e).nameTable = Function.update s.nameTable m e := rfl

@[simp] theorem setOpen_inodeTable : (s.setOpen fh o).inodeTable = s.inodeTable := rfl
@[simp] theorem setOpen_nameTable : (s.setOpen fh o).nameTable = s.nameTable := rfl
@[simp] theorem setOpen_diskBlocks : (s.setOpen fh o).diskBlocks = s.diskBlocks := rfl
@[simp] theorem setOpen_disk : (s.setOpen fh o).disk = s.disk := rfl
@[simp] theorem setOpen_openFiles :
    (s.setOpen fh o).openFiles = Function.update s.openFiles fh o := rfl

end Fields

end FS

end Sfs
