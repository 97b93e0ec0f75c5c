import CS416.Lib.Bytes
import CS416.Sfs.Agreement
import CS416.Sfs.Mount

/-!
# The tables as bytes

`sfs_destroy` and `sfs_init` copy the tables byte by byte.  `encode` gives the
bytes of the tables as the compiler lays them out: `short` takes 2 bytes, `int`
4, `off_t` 8, a structure is padded to the alignment of its fields, and
`struct stat` is the one of Linux on x86-64.  A table whose fields hold values
of their types is read back from its bytes.
-/

namespace Sfs

open CInt CString Memory

/-- `sizeof(inode_t)`, `sizeof(path_map_t)` and `sizeof(file_entry_t)` -/
abbrev sizeofInode : Nat := 176
abbrev sizeofPathMap : Nat := 136
abbrev sizeofFileEntry : Nat := 16

/-- `blocks` of an inode: twelve `short`s. -/
def blocksBytes (blocks : Int → Int) : Fin 24 → UInt8 :=
  fun j => Bytes.array 2 (fun k => Bytes.object (Bytes.ofInt 2 (blocks k))) j

/-- An `inode_t`.  The fields of `stat` that are never set, and the padding, are the zeros
of the `memset` that cleared the table. -/
def inodeBytes (nd : Inode) : Buffer UInt8 :=
  let buf := store (fun _ => 0) 0 (Bytes.ofInt 2 nd.avail)
  let buf := store buf 24 (Bytes.ofInt 8 nd.stat.stNlink)
  let buf := store buf 32 (Bytes.ofInt 4 nd.stat.stMode)
  let buf := store buf 36 (Bytes.ofInt 4 nd.stat.stUid)
  let buf := store buf 40 (Bytes.ofInt 4 nd.stat.stGid)
  let buf := store buf 56 (Bytes.ofInt 8 nd.stat.stSize)
  let buf := store buf 72 (Bytes.ofInt 8 nd.stat.stBlocks)
  let buf := store buf 80 (Bytes.ofInt 8 nd.stat.stAtime)
  let buf := store buf 96 (Bytes.ofInt 8 nd.stat.stMtime)
  let buf := store buf 112 (Bytes.ofInt 8 nd.stat.stCtime)
  store buf 152 (blocksBytes nd.blocks)

/-- A `path_map_t`; behind the string in `path` is what earlier strings left there. -/
def nameBytes (stale : Nat → UInt8) (e : PathMap) : Buffer UInt8 :=
  let buf := store (fun _ => 0) 0 (Bytes.ofInt 2 e.avail)
  let buf := store buf 4 (Bytes.ofInt 4 e.stIno)
  store buf 8 fun j : Fin maxPathLen => (e.path ++ [0]).getD j (stale j)

/-- A `file_entry_t` -/
def openBytes (e : FileEntry) : Buffer UInt8 :=
  let buf := store (fun _ => 0) 0 (Bytes.ofInt 4 e.refcnt)
  let buf := store buf 4 (Bytes.ofInt 4 e.stIno)
  store buf 8 (Bytes.ofInt 8 e.pos)

/-- **The bytes of the globals.** -/
def encode (stale : Nat → Nat → UInt8) (s : FS) : Globals where
  inodeTable := fun j => Bytes.array sizeofInode (fun i => inodeBytes (s.inodeTable i)) j
  nameTable := fun j => Bytes.array sizeofPathMap (fun m => nameBytes (stale m) (s.nameTable m)) j
  diskBlocks := fun j => Bytes.array 2 (fun b => Bytes.object (Bytes.ofInt 2 (s.diskBlocks b))) j
  openFiles := fun j => Bytes.array sizeofFileEntry (fun fh => openBytes (s.openFiles fh)) j
  rootInode := Bytes.ofInt 4 s.rootInode
  rootBlock := Bytes.ofInt 4 s.rootBlock
  systemBlock := s.systemBlock
  cwdInode := Bytes.ofInt 4 s.cwdInode

def loadInode (buf : Buffer UInt8) : Inode where
  avail := Bytes.toInt (load buf 0 2)
  stat :=
    { stMode := Bytes.toNat (load buf 32 4), stNlink := Bytes.toNat (load buf 24 8)
      stUid := Bytes.toNat (load buf 36 4), stGid := Bytes.toNat (load buf 40 4)
      stSize := Bytes.toInt (load buf 56 8), stBlocks := Bytes.toInt (load buf 72 8)
      stAtime := Bytes.toInt (load buf 80 8), stMtime := Bytes.toInt (load buf 96 8)
      stCtime := Bytes.toInt (load buf 112 8) }
  blocks := fun k => Bytes.toInt (load buf (152 + 2 * k.toNat) 2)

def loadName (buf : Buffer UInt8) : PathMap where
  avail := Bytes.toInt (load buf 0 2)
  stIno := Bytes.toInt (load buf 4 4)
  path := stringAt 0 ((List.range maxPathLen).map fun j => buf (8 + j))

def loadFile (buf : Buffer UInt8) : FileEntry where
  refcnt := Bytes.toInt (load buf 0 4)
  stIno := Bytes.toInt (load buf 4 4)
  pos := Bytes.toInt (load buf 8 8)

/-- **The globals as the program sees them**, with `mem` around the tables. -/
def decode (mem : FS) (g : Globals) (d : Disk) : FS where
  inodeTable := fun i =>
    if 0 ≤ i ∧ i < maxNodes then
      loadInode (Bytes.recordAt sizeofInode (Bytes.object g.inodeTable) i.toNat)
    else mem.inodeTable i
  nameTable := fun m =>
    if 0 ≤ m ∧ m < maxLink then
      loadName (Bytes.recordAt sizeofPathMap (Bytes.object g.nameTable) m.toNat)
    else mem.nameTable m
  openFiles := fun fh =>
    if 0 ≤ fh ∧ fh < maxLink then
      loadFile (Bytes.recordAt sizeofFileEntry (Bytes.object g.openFiles) fh.toNat)
    else mem.openFiles fh
  diskBlocks := fun b =>
    if 0 ≤ b ∧ b < numBlocks then
      Bytes.toInt (load (Bytes.recordAt 2 (Bytes.object g.diskBlocks) b.toNat) 0 2)
    else mem.diskBlocks b
  rootInode := Bytes.toInt g.rootInode
  rootBlock := Bytes.toInt g.rootBlock
  systemBlock := g.systemBlock
  cwdInode := Bytes.toInt g.cwdInode
  disk := d

/-- The values of an `inode_t` that its fields can hold. -/
structure TypedInode (nd : Inode) : Prop where
  avail : -32768 ≤ nd.avail ∧ nd.avail < 32768
  mode : nd.stat.stMode < 4294967296
  nlink : 0 ≤ nd.stat.stNlink ∧ nd.stat.stNlink < 18446744073709551616
  uid : nd.stat.stUid < 4294967296
  gid : nd.stat.stGid < 4294967296
  size : -9223372036854775808 ≤ nd.stat.stSize ∧ nd.stat.stSize < 9223372036854775808
  count : -9223372036854775808 ≤ nd.stat.stBlocks ∧ nd.stat.stBlocks < 9223372036854775808
  atime : -9223372036854775808 ≤ nd.stat.stAtime ∧ nd.stat.stAtime < 9223372036854775808
  mtime : -9223372036854775808 ≤ nd.stat.stMtime ∧ nd.stat.stMtime < 9223372036854775808
  ctime : -9223372036854775808 ≤ nd.stat.stCtime ∧ nd.stat.stCtime < 9223372036854775808
  blocks : ∀ k, 0 ≤ k → k < 12 → -32768 ≤ nd.blocks k ∧ nd.blocks k < 32768

structure TypedName (e : PathMap) : Prop where
  avail : -32768 ≤ e.avail ∧ e.avail < 32768
  ino : -2147483648 ≤ e.stIno ∧ e.stIno < 2147483648
  path : e.path.length < maxPathLen ∧ 0 ∉ e.path

structure TypedFile (e : FileEntry) : Prop where
  refcnt : -2147483648 ≤ e.refcnt ∧ e.refcnt < 2147483648
  ino : -2147483648 ≤ e.stIno ∧ e.stIno < 2147483648
  pos : -9223372036854775808 ≤ e.pos ∧ e.pos < 9223372036854775808

/-- **The tables hold values of their types.** -/
structure Typed (s : FS) : Prop where
  node : ∀ i, 0 ≤ i → i < maxNodes → TypedInode (s.inodeTable i)
  name : ∀ m, 0 ≤ m → m < maxLink → TypedName (s.nameTable m)
  file : ∀ fh, 0 ≤ fh → fh < maxLink → TypedFile (s.openFiles fh)
  used : ∀ b, 0 ≤ b → b < numBlocks → -32768 ≤ s.diskBlocks b ∧ s.diskBlocks b < 32768
  root : (-2147483648 ≤ s.rootInode ∧ s.rootInode < 2147483648) ∧
    -2147483648 ≤ s.rootBlock ∧ s.rootBlock < 2147483648

section Fields

variable {nd : Inode} {e : PathMap} {o : FileEntry} {stale : Nat → UInt8} {v : Int} {k : Nat}

private theorem toInt_short (h : -32768 ≤ v ∧ v < 32768) : Bytes.toInt (Bytes.ofInt 2 v) = v :=
  Bytes.toInt_ofInt (by decide) (by omega) (by omega)

private theorem toInt_int (h : -2147483648 ≤ v ∧ v < 2147483648) :
    Bytes.toInt (Bytes.ofInt 4 v) = v :=
  Bytes.toInt_ofInt (by decide) (by omega) (by omega)

private theorem toInt_long (h : -9223372036854775808 ≤ v ∧ v < 9223372036854775808) :
    Bytes.toInt (Bytes.ofInt 8 v) = v :=
  Bytes.toInt_ofInt (by decide) (by omega) (by omega)

private theorem toNat_mode {m : Nat} (h : m < 4294967296) : Bytes.toNat (Bytes.ofInt 4 m) = m := by
  have hm := Bytes.toNat_ofInt_of_lt (n := 4) (v := m) (by omega) (by norm_num; omega)
  exact_mod_cast hm

/-- The entries of `blocks` lie behind the fields of `stat`. -/
theorem load_blocks (nd : Inode) (h : k < 12) :
    load (inodeBytes nd) (152 + 2 * k) 2 = Bytes.ofInt 2 (nd.blocks k) := by
  have hrecord := Bytes.load_recordAt_object (n := 24) (p := 0) (m := 2) (i := k)
    (fun k => Bytes.object (Bytes.ofInt 2 (nd.blocks k))) (le_refl 2) (by omega)
  rw [Bytes.load_object] at hrecord
  refine (Bytes.load_store_piece (by omega)).trans (Eq.trans ?_ hrecord)
  funext j
  rw [load, load, Bytes.recordAt, Nat.zero_add]
  rfl

/-- The fields of an inode lie apart from each other. -/
theorem load_inodeBytes (nd : Inode) :
    load (inodeBytes nd) 0 2 = Bytes.ofInt 2 nd.avail ∧
    load (inodeBytes nd) 24 8 = Bytes.ofInt 8 nd.stat.stNlink ∧
    load (inodeBytes nd) 32 4 = Bytes.ofInt 4 nd.stat.stMode ∧
    load (inodeBytes nd) 36 4 = Bytes.ofInt 4 nd.stat.stUid ∧
    load (inodeBytes nd) 40 4 = Bytes.ofInt 4 nd.stat.stGid ∧
    load (inodeBytes nd) 56 8 = Bytes.ofInt 8 nd.stat.stSize ∧
    load (inodeBytes nd) 72 8 = Bytes.ofInt 8 nd.stat.stBlocks ∧
    load (inodeBytes nd) 80 8 = Bytes.ofInt 8 nd.stat.stAtime ∧
    load (inodeBytes nd) 96 8 = Bytes.ofInt 8 nd.stat.stMtime ∧
    load (inodeBytes nd) 112 8 = Bytes.ofInt 8 nd.stat.stCtime := by
  unfold inodeBytes
  refine ⟨?_, ?_, ?_, ?_, ?_, ?_, ?_, ?_, ?_, ?_⟩ <;>
    · repeat rw [load_store_disjoint (by decide)]
      exact load_store_self

private theorem loadInode_avail (buf : Buffer UInt8) :
    (loadInode buf).avail = Bytes.toInt (load buf 0 2) := by rw [loadInode]

private theorem loadInode_blocks (buf : Buffer UInt8) (k : Int) :
    (loadInode buf).blocks k = Bytes.toInt (load buf (152 + 2 * k.toNat) 2) := by rw [loadInode]

/-- **An inode is read back** up to entries behind its twelve blocks. -/
theorem loadInode_inodeBytes (h : TypedInode nd) : SameInode nd (loadInode (inodeBytes nd)) := by
  have hblocks : ∀ k, 0 ≤ k → k < 12 → (loadInode (inodeBytes nd)).blocks k = nd.blocks k := by
    intro k h₀ h₁
    have hload := load_blocks nd (k := k.toNat) (by omega)
    rw [Int.toNat_of_nonneg h₀] at hload
    rw [loadInode_blocks, hload, toInt_short (h.blocks k h₀ h₁)]
  have hnlink : (Bytes.toNat (Bytes.ofInt 8 nd.stat.stNlink) : Int) = nd.stat.stNlink :=
    Bytes.toNat_ofInt_of_lt h.nlink.1 (by norm_num; exact h.nlink.2)
  obtain ⟨havail, hlink, hmode, huid, hgid, hsize, hcount, hatime, hmtime, hctime⟩ :=
    load_inodeBytes nd
  refine ⟨?_, ?_, hblocks⟩
  · rw [loadInode_avail, havail, toInt_short h.avail]
  · unfold loadInode
    rw [hlink, hmode, huid, hgid, hsize, hcount, hatime, hmtime, hctime, hnlink,
      toNat_mode h.mode, toNat_mode h.uid, toNat_mode h.gid, toInt_long h.size,
      toInt_long h.count, toInt_long h.atime, toInt_long h.mtime, toInt_long h.ctime]

/-- **A path is read back** up to its terminator. -/
theorem loadName_nameBytes (stale : Nat → UInt8) (h : TypedName e) :
    loadName (nameBytes stale e) = e := by
  obtain ⟨avail, ino, path⟩ := e
  obtain ⟨havail, hino, hlen, hnul⟩ := h
  dsimp only at havail hino hlen hnul
  have hload : load (nameBytes stale ⟨avail, ino, path⟩) 0 2 = Bytes.ofInt 2 avail ∧
      load (nameBytes stale ⟨avail, ino, path⟩) 4 4 = Bytes.ofInt 4 ino := by
    unfold nameBytes
    refine ⟨?_, ?_⟩ <;>
      · repeat rw [load_store_disjoint (by decide)]
        exact load_store_self
  have hbyte : ∀ j < maxPathLen, nameBytes stale ⟨avail, ino, path⟩ (8 + j) =
      (path ++ [0]).getD j (stale j) := by
    intro j hj
    unfold nameBytes
    rw [store_inside hj]
  have hsplit : (List.range maxPathLen).map (fun j => nameBytes stale ⟨avail, ino, path⟩ (8 + j)) =
      path ++ 0 :: (List.range' (path.length + 1) (maxPathLen - (path.length + 1))).map stale := by
    refine List.ext_getElem (by simp; omega) fun j h₀ h₁ => ?_
    rw [List.length_map, List.length_range] at h₀
    rw [List.getElem_map, List.getElem_range, hbyte j h₀]
    rcases lt_trichotomy j path.length with hj | hj | hj
    · rw [List.getElem_append_left hj, List.getD_append _ _ _ _ hj, List.getD_eq_getElem _ _ hj]
    · subst j
      simp
    · rw [List.getElem_append_right (by omega), List.getD_eq_default _ _ (by simp; omega)]
      obtain ⟨l, rfl⟩ := Nat.exists_eq_add_of_lt hj
      simp [Nat.add_assoc, Nat.add_comm 1]
  unfold loadName
  rw [hload.1, hload.2, hsplit, stringAt_append _ hnul, toInt_short havail, toInt_int hino]

/-- A record of `open_files` is read back. -/
theorem loadFile_openBytes (h : TypedFile o) : loadFile (openBytes o) = o := by
  obtain ⟨refcnt, ino, pos⟩ := o
  have hload : load (openBytes ⟨refcnt, ino, pos⟩) 0 4 = Bytes.ofInt 4 refcnt ∧
      load (openBytes ⟨refcnt, ino, pos⟩) 4 4 = Bytes.ofInt 4 ino ∧
      load (openBytes ⟨refcnt, ino, pos⟩) 8 8 = Bytes.ofInt 8 pos := by
    unfold openBytes
    refine ⟨?_, ?_, ?_⟩ <;>
      · repeat rw [load_store_disjoint (by decide)]
        exact load_store_self
  unfold loadFile
  rw [hload.1, hload.2.1, hload.2.2, toInt_int h.refcnt, toInt_int h.ino, toInt_long h.pos]

section Congr

variable {buf buf' : Buffer UInt8}

private theorem loadInode_congr (h : ∀ k < sizeofInode, buf' k = buf k) :
    SameInode (loadInode buf) (loadInode buf') := by
  have hload : ∀ p m, p + m ≤ sizeofInode → load buf' p m = load buf p m := fun p m hle =>
    load_congr fun i _ hi => h i (by omega)
  refine ⟨?_, ?_, fun j h₀ h₁ => ?_⟩
  · rw [loadInode_avail, loadInode_avail, hload 0 2 (by decide)]
  · unfold loadInode
    rw [hload 24 8 (by decide), hload 32 4 (by decide), hload 36 4 (by decide),
      hload 40 4 (by decide), hload 56 8 (by decide), hload 72 8 (by decide),
      hload 80 8 (by decide), hload 96 8 (by decide), hload 112 8 (by decide)]
  · rw [loadInode_blocks, loadInode_blocks, hload _ 2 (by simp only [sizeofInode]; omega)]

private theorem loadName_congr (h : ∀ k < sizeofPathMap, buf' k = buf k) :
    loadName buf' = loadName buf := by
  have hload : ∀ p m, p + m ≤ sizeofPathMap → load buf' p m = load buf p m := fun p m hle =>
    load_congr fun i _ hi => h i (by omega)
  have hpath : (List.range maxPathLen).map (fun j => buf' (8 + j)) =
      (List.range maxPathLen).map fun j => buf (8 + j) := by
    refine List.map_congr_left fun j hj => h _ ?_
    simp only [List.mem_range, maxPathLen] at hj
    simp only [sizeofPathMap]
    omega
  unfold loadName
  rw [hload 0 2 (by decide), hload 4 4 (by decide), hpath]

private theorem loadFile_congr (h : ∀ k < sizeofFileEntry, buf' k = buf k) :
    loadFile buf' = loadFile buf := by
  have hload : ∀ p m, p + m ≤ sizeofFileEntry → load buf' p m = load buf p m := fun p m hle =>
    load_congr fun i _ hi => h i (by omega)
  unfold loadFile
  rw [hload 0 4 (by decide), hload 4 4 (by decide), hload 8 8 (by decide)]

end Congr

end Fields

section Tables

variable {s mem : FS} {stale : Nat → Nat → UInt8} {d : Disk}

/-- Records that are read alike, twice. -/
theorem SameInode.trans {nd nd' nd'' : Inode} (h : SameInode nd nd') (h' : SameInode nd' nd'') :
    SameInode nd nd'' where
  avail := h'.avail.trans h.avail
  stat := h'.stat.trans h.stat
  blocks j h₀ h₁ := (h'.blocks j h₀ h₁).trans (h.blocks j h₀ h₁)

section Read

variable {g : Globals} {i : Int} (mem : FS) (g : Globals) (d : Disk)

private theorem decode_node (h₀ : 0 ≤ i) (h₁ : i < maxNodes) : (decode mem g d).inodeTable i =
    loadInode (Bytes.recordAt sizeofInode (Bytes.object g.inodeTable) i.toNat) := if_pos ⟨h₀, h₁⟩

private theorem decode_name (h₀ : 0 ≤ i) (h₁ : i < maxLink) : (decode mem g d).nameTable i =
    loadName (Bytes.recordAt sizeofPathMap (Bytes.object g.nameTable) i.toNat) := if_pos ⟨h₀, h₁⟩

private theorem decode_file (h₀ : 0 ≤ i) (h₁ : i < maxLink) : (decode mem g d).openFiles i =
    loadFile (Bytes.recordAt sizeofFileEntry (Bytes.object g.openFiles) i.toNat) := if_pos ⟨h₀, h₁⟩

private theorem decode_used (h₀ : 0 ≤ i) (h₁ : i < numBlocks) : (decode mem g d).diskBlocks i =
    Bytes.toInt (load (Bytes.recordAt 2 (Bytes.object g.diskBlocks) i.toNat) 0 2) :=
  if_pos ⟨h₀, h₁⟩

private theorem decode_rootInode : (decode mem g d).rootInode = Bytes.toInt g.rootInode := by
  rw [decode]

private theorem decode_rootBlock : (decode mem g d).rootBlock = Bytes.toInt g.rootBlock := by
  rw [decode]

end Read

section Records

variable {n k : Nat}

private theorem encode_node (hn : n < 128) (hk : k < sizeofInode) :
    Bytes.recordAt sizeofInode (Bytes.object (encode stale s).inodeTable) n k =
      inodeBytes (s.inodeTable n) k := by
  refine Bytes.recordAt_object (fun i => inodeBytes (s.inodeTable i)) hk ?_
  simp only [sizeofInode, sizeofInodeTable]
  omega

private theorem encode_name (hn : n < 128) (hk : k < sizeofPathMap) :
    Bytes.recordAt sizeofPathMap (Bytes.object (encode stale s).nameTable) n k =
      nameBytes (stale n) (s.nameTable n) k := by
  refine Bytes.recordAt_object (fun m => nameBytes (stale m) (s.nameTable m)) hk ?_
  simp only [sizeofPathMap, sizeofNameTable]
  omega

private theorem encode_file (hn : n < 128) (hk : k < sizeofFileEntry) :
    Bytes.recordAt sizeofFileEntry (Bytes.object (encode stale s).openFiles) n k =
      openBytes (s.openFiles n) k := by
  refine Bytes.recordAt_object (fun fh => openBytes (s.openFiles fh)) hk ?_
  simp only [sizeofFileEntry, sizeofOpenFiles]
  omega

private theorem encode_used (hn : n < 32768) :
    load (Bytes.recordAt 2 (Bytes.object (encode stale s).diskBlocks) n) 0 2 =
      Bytes.ofInt 2 (s.diskBlocks n) := by
  have hload := Bytes.load_recordAt_object (n := sizeofDiskBlocks) (p := 0) (m := 2) (i := n)
    (fun b => Bytes.object (Bytes.ofInt 2 (s.diskBlocks b))) (le_refl 2)
    (by simp only [sizeofDiskBlocks]; omega)
  rw [Bytes.load_object] at hload
  exact hload

end Records

/-- **The tables are read back from their bytes.** -/
theorem decode_encode (h : Typed s) (stale : Nat → Nat → UInt8) (mem : FS)
    (hd : ∀ n, n < s.systemBlock → d n = s.disk n) :
    Agree s (decode mem (encode stale s) d) := by
  refine ⟨fun i h₀ h₁ => ?_, fun m h₀ h₁ => ?_, fun fh h₀ h₁ => ?_, fun b h₀ h₁ => ?_,
    ?_, ?_, rfl, hd⟩
  · obtain ⟨n, rfl⟩ := Int.eq_ofNat_of_zero_le h₀
    refine (loadInode_inodeBytes (h.node n h₀ h₁)).trans ?_
    rw [decode_node mem _ d h₀ h₁]
    exact loadInode_congr fun k hk => encode_node (by simpa using h₁) hk
  · obtain ⟨n, rfl⟩ := Int.eq_ofNat_of_zero_le h₀
    rw [decode_name mem _ d h₀ h₁, ← loadName_nameBytes (stale n) (h.name n h₀ h₁)]
    exact loadName_congr fun k hk => encode_name (by simpa using h₁) hk
  · obtain ⟨n, rfl⟩ := Int.eq_ofNat_of_zero_le h₀
    rw [decode_file mem _ d h₀ h₁, ← loadFile_openBytes (h.file n h₀ h₁)]
    exact loadFile_congr fun k hk => encode_file (by simpa using h₁) hk
  · obtain ⟨n, rfl⟩ := Int.eq_ofNat_of_zero_le h₀
    rw [decode_used mem _ d h₀ h₁, Int.toNat_natCast, encode_used (by simpa using h₁),
      toInt_short (h.used n h₀ h₁)]
  · rw [decode_rootInode, encode, toInt_int h.root.1]
  · rw [decode_rootBlock, encode, toInt_int h.root.2]

end Tables

end Sfs
