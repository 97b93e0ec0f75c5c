import CS416.Sfs.Values

/-!
# The key among the tables

`sfs_init` takes the first block from the top of the disk that begins with the
key for the start of the image.  The image lies in the blocks behind it as
well, and each of them begins with eight bytes of a table: an attribute, block
numbers, flags, or part of a path.  Of these only sizes and paths can hold the
key, so the mount finds the tables of a run unless one of them does.
-/

namespace Sfs

open CInt Search Memory Runs

/-- No slice of the image begins with a size or a piece of a path that has the key's bytes. -/
structure KeyFree (stale : Nat → Nat → UInt8) (s : FS) : Prop where
  size : ∀ n i : Nat, n < 128 → i * 512 = 64 + sizeofInode * n →
    toU64 (s.inodeTable n).stat.stSize ≠ KEY
  path : ∀ n i j : Nat, n < 128 → j + 8 ≤ maxPathLen →
    i * 512 = 22544 + sizeofPathMap * n + j →
    int64At (load (nameBytes (stale n) (s.nameTable n)) (8 + j) 8) ≠ KEY

section Image

variable {g : Globals} {junk : Buffer UInt8} {q n p m : Nat} {s : FS}
  {stale : Nat → Nat → UInt8}

private theorem loadTables_saveTables_self (g : Globals) (junk : Buffer UInt8) :
    loadTables (saveTables g junk) g = g := loadTables_saveTables

private theorem image_inodeTable (h : q < sizeofInodeTable) :
    saveTables g junk (8 + q) = g.inodeTable ⟨q, h⟩ :=
  congrFun (congrArg Globals.inodeTable (loadTables_saveTables_self g junk)) ⟨q, h⟩

private theorem image_nameTable (h : q < sizeofNameTable) :
    saveTables g junk (22536 + q) = g.nameTable ⟨q, h⟩ :=
  congrFun (congrArg Globals.nameTable (loadTables_saveTables_self g junk)) ⟨q, h⟩

private theorem image_diskBlocks (h : q < sizeofDiskBlocks) :
    saveTables g junk (39944 + q) = g.diskBlocks ⟨q, h⟩ :=
  congrFun (congrArg Globals.diskBlocks (loadTables_saveTables_self g junk)) ⟨q, h⟩

private theorem image_openFiles (h : q < sizeofOpenFiles) :
    saveTables g junk (105480 + q) = g.openFiles ⟨q, h⟩ :=
  congrFun (congrArg Globals.openFiles (loadTables_saveTables_self g junk)) ⟨q, h⟩

/-- A field of an inode in the image. -/
theorem load_image_inode (hn : n < 128) (hp : p + m ≤ sizeofInode) :
    load (saveTables (encode stale s) junk) (8 + sizeofInode * n + p) m =
      load (inodeBytes (s.inodeTable n)) p m := by
  funext j
  have hin : sizeofInode * n + (p + j) < sizeofInodeTable := by
    simp only [sizeofInode, sizeofInodeTable] at hp ⊢
    omega
  rw [load, load, Nat.add_assoc, Nat.add_assoc, image_inodeTable hin]
  exact Bytes.array_at sizeofInode (fun i => inodeBytes (s.inodeTable i)) n (by omega)

/-- A field of a name in the image. -/
theorem load_image_name (hn : n < 128) (hp : p + m ≤ sizeofPathMap) :
    load (saveTables (encode stale s) junk) (22536 + sizeofPathMap * n + p) m =
      load (nameBytes (stale n) (s.nameTable n)) p m := by
  funext j
  have hin : sizeofPathMap * n + (p + j) < sizeofNameTable := by
    simp only [sizeofPathMap, sizeofNameTable] at hp ⊢
    omega
  rw [load, load, Nat.add_assoc, Nat.add_assoc, image_nameTable hin]
  exact Bytes.array_at sizeofPathMap (fun m => nameBytes (stale m) (s.nameTable m)) n (by omega)

/-- A mark of `disk_blocks` in the image. -/
theorem load_image_used (hn : n < 32768) :
    load (saveTables (encode stale s) junk) (39944 + 2 * n) 2 =
      Bytes.ofInt 2 (s.diskBlocks n) := by
  have hbytes : load (saveTables (encode stale s) junk) (39944 + 2 * n) 2 =
      load (Bytes.object (Bytes.ofInt 2 (s.diskBlocks n))) 0 2 := by
    funext j
    have hin : 2 * n + j < sizeofDiskBlocks := by
      simp only [sizeofDiskBlocks]
      omega
    rw [load, load, Nat.add_assoc, Nat.zero_add, image_diskBlocks hin]
    exact Bytes.array_at 2 (fun b => Bytes.object (Bytes.ofInt 2 (s.diskBlocks b))) n (by omega)
  rw [hbytes, Bytes.load_object]

/-- A field of an open file in the image. -/
theorem load_image_open (hn : n < 128) (hp : p + m ≤ sizeofFileEntry) :
    load (saveTables (encode stale s) junk) (105480 + sizeofFileEntry * n + p) m =
      load (openBytes (s.openFiles n)) p m := by
  funext j
  have hin : sizeofFileEntry * n + (p + j) < sizeofOpenFiles := by
    simp only [sizeofFileEntry, sizeofOpenFiles] at hp ⊢
    omega
  rw [load, load, Nat.add_assoc, Nat.add_assoc, image_openFiles hin]
  exact Bytes.array_at sizeofFileEntry (fun fh => openBytes (s.openFiles fh)) n (by omega)

end Image

section Fields

variable {buf : Buffer UInt8} {b : Fin 8 → UInt8} {v : Int} {p : Nat} {nd : Inode}

private theorem int64At_ofInt (v : Int) : (int64At (Bytes.ofInt 8 v) : Int) = toU64 v := by
  have hnonneg := toU64_nonneg v
  rw [show int64At (Bytes.ofInt 8 v) = Bytes.toNat (Bytes.ofInt 8 v) from rfl, Bytes.toNat_ofInt]
  norm_num [toU64] at hnonneg ⊢
  exact hnonneg

/-- A number with one other byte is not the key. -/
theorem ne_key_of_byte (j : Fin 8) (h : (b j).toNat ≠ KEY / 256 ^ (j : Nat) % 256) :
    int64At b ≠ KEY := by
  intro hkey
  rw [Bytes.digit_of_toNat, show Bytes.toNat b = int64At b from rfl, hkey] at h
  exact h rfl

/-- Block numbers and flags are no part of the key. -/
theorem ne_key_of_short (h : load buf p 2 = Bytes.ofInt 2 v) (h₀ : -1 ≤ v) (h₁ : v < 32768) :
    int64At (load buf p 8) ≠ KEY := by
  intro hkey
  have hdigit : ∀ j : Fin 8, (load buf p 8 j).toNat = KEY / 256 ^ (j : Nat) % 256 := fun j => by
    rw [Bytes.digit_of_toNat, show Bytes.toNat (load buf p 8) = int64At (load buf p 8) from rfl,
      hkey]
  have hlow : Bytes.toNat (load buf p 2) = 47141 := by
    rw [Bytes.toNat, Fin.sum_univ_two,
      show (load buf p 2 0).toNat = (load buf p 8 0).toNat from rfl,
      show (load buf p 2 1).toNat = (load buf p 8 1).toNat from rfl, hdigit 0, hdigit 1]
    decide
  rw [h, Bytes.toNat_ofInt] at hlow
  norm_num at hlow
  omega

/-- The bytes of an inode between the fields that are set. -/
theorem load_inode_gap (hp : p = 8 ∨ p = 88 ∨ p = 104 ∨ p = 120 ∨ p = 136) :
    load (inodeBytes nd) p 8 = fun _ => 0 := by
  unfold inodeBytes
  rcases hp with rfl | rfl | rfl | rfl | rfl <;>
    · repeat rw [load_store_disjoint (by decide)]
      rfl

private theorem inodeBytes_pad : inodeBytes nd 44 = 0 := by
  unfold inodeBytes
  repeat rw [store_outside (by decide)]

/-- A slice that begins in an inode holds the key in the size only. -/
theorem inode_slice (h : StatOk nd.avail nd.stat)
    (hblocks : ∀ k, 0 ≤ k → k < 12 → -1 ≤ nd.blocks k ∧ nd.blocks k < numBlocks)
    (hp : p + 8 ≤ sizeofInode) (hmod : p % 16 = 8) (hsize : p ≠ 56) :
    int64At (load (inodeBytes nd) p 8) ≠ KEY := by
  obtain ⟨_, hnlink, _, _, _, _, hcount, _, _, _⟩ := load_inodeBytes nd
  have hcases : (p = 8 ∨ p = 88 ∨ p = 104 ∨ p = 120 ∨ p = 136) ∨ p = 24 ∨ p = 40 ∨ p = 72 ∨
      p = 152 ∨ p = 168 := by
    simp only [sizeofInode] at hp
    omega
  have hshort : ∀ k : Nat, k < 12 → int64At (load (inodeBytes nd) (152 + 2 * k) 8) ≠ KEY :=
    fun k hk => by
      have hentry := hblocks k (by omega) (by omega)
      exact ne_key_of_short (load_blocks nd hk) hentry.1 hentry.2
  have hsmall : ∀ v : Int, 0 ≤ v → v ≤ 1110 → int64At (Bytes.ofInt 8 v) ≠ KEY :=
    fun v h₀ h₁ hkey => by
      have hval := int64At_ofInt v
      rw [hkey, toU64_of_range h₀ (by omega), KEY] at hval
      omega
  rcases hcases with hgap | rfl | rfl | rfl | rfl | rfl
  · rw [load_inode_gap hgap]
    exact int64At_zero
  · rw [hnlink]
    exact hsmall _ h.nlink.1 (by have := h.nlink; omega)
  · refine ne_key_of_byte 4 ?_
    rw [show load (inodeBytes nd) 40 8 4 = inodeBytes nd 44 from rfl, inodeBytes_pad]
    decide
  · rw [hcount]
    exact hsmall _ h.count.1 h.count.2
  · exact hshort 0 (by decide)
  · exact hshort 8 (by decide)

private theorem name_slice {e : PathMap} {stale : Nat → UInt8} (h : NameOk e) :
    int64At (load (nameBytes stale e) 0 8) ≠ KEY := by
  have havail : load (nameBytes stale e) 0 2 = Bytes.ofInt 2 e.avail := by
    unfold nameBytes
    repeat rw [load_store_disjoint (by decide)]
    exact load_store_self
  rcases h.avail with ha | ha <;>
    · rw [ha] at havail
      exact ne_key_of_short havail (by decide) (by decide)

private theorem file_slice {e : FileEntry} (h : FileOk e) :
    int64At (load (openBytes e) 8 8) ≠ KEY := by
  have hpos : load (openBytes e) 8 8 = Bytes.ofInt 8 e.pos := by
    unfold openBytes
    exact load_store_self
  rw [hpos, h.pos]
  decide

end Fields

section Scan

variable {s : FS} {stale : Nat → Nat → UInt8} {junk junk' : Buffer UInt8} {fresh : Globals}
  {d : Disk}

/-- **Only sizes and paths can hold the key.** -/
theorem keyOnce_iff (junk : Buffer UInt8) (h : Values s) :
    KeyOnce (saveTables (encode stale s) junk) ↔ KeyFree stale s := by
  constructor
  · intro hkey
    refine ⟨fun n i hn hi hsize => ?_, fun n i j hn hj hi hpath => ?_⟩
    · simp only [sizeofInode] at hi
      refine hkey i (by omega) (by rw [imageBlocks_eq]; omega) ?_
      rw [show i * 512 = 8 + sizeofInode * n + 56 by simp only [sizeofInode]; omega,
        load_image_inode hn (by decide), (load_inodeBytes _).2.2.2.2.2.1]
      have hval := int64At_ofInt (s.inodeTable n).stat.stSize
      rw [hsize] at hval
      exact_mod_cast hval
    · simp only [sizeofPathMap, maxPathLen] at hi hj
      refine hkey i (by omega) (by rw [imageBlocks_eq]; omega) ?_
      rw [show i * 512 = 22536 + sizeofPathMap * n + (8 + j) by
        simp only [sizeofPathMap]; omega, load_image_name hn (by simp only [sizeofPathMap]; omega)]
      exact hpath
  · intro hfree i hi₀ hi₁
    rw [imageBlocks_eq] at hi₁
    rcases Nat.lt_or_ge i 45 with hi | hi
    -- the slices that begin in `inode_table`
    · obtain ⟨n, p, hn, hp, hsplit⟩ : ∃ n p, n < 128 ∧ p < 176 ∧ i * 512 = 8 + 176 * n + p :=
        ⟨(i * 512 - 8) / 176, (i * 512 - 8) % 176, by omega, by omega, by omega⟩
      by_cases hsize : p = 56
      · subst p
        have hval := int64At_ofInt (s.inodeTable n).stat.stSize
        have hne := hfree.size n i hn (by simp only [sizeofInode]; omega)
        rw [hsplit, load_image_inode hn (by decide), (load_inodeBytes _).2.2.2.2.2.1]
        intro hkey
        rw [hkey] at hval
        exact hne hval.symm
      · have hlt : (n : Int) < maxNodes := by simp only [maxNodes]; omega
        rw [hsplit, load_image_inode hn (by simp only [sizeofInode]; omega)]
        exact inode_slice (h.node n (by omega) hlt) (h.entries.entry n (by omega) hlt)
          (by simp only [sizeofInode]; omega) (by omega) hsize
    rcases Nat.lt_or_ge i 79 with hi' | hi'
    -- the slices that begin in `name_table`
    · obtain ⟨n, p, hn, hp, hsplit⟩ : ∃ n p, n < 128 ∧ p < 136 ∧ i * 512 = 22536 + 136 * n + p :=
        ⟨(i * 512 - 22536) / 136, (i * 512 - 22536) % 136, by omega, by omega, by omega⟩
      rw [hsplit, load_image_name hn (by simp only [sizeofPathMap]; omega)]
      by_cases hzero : p = 0
      · subst p
        exact name_slice (h.name n (by omega) (by simp only [maxLink]; omega))
      · obtain ⟨j, rfl⟩ := Nat.exists_eq_add_of_le (show 8 ≤ p by omega)
        exact hfree.path n i j hn (by simp only [maxPathLen]; omega)
          (by simp only [sizeofPathMap]; omega)
    rcases Nat.lt_or_ge i 207 with hi'' | hi''
    -- the slices that begin in `disk_blocks`
    · obtain ⟨n, hn, hsplit⟩ : ∃ n, n < 32768 ∧ i * 512 = 39944 + 2 * n :=
        ⟨(i * 512 - 39944) / 2, by omega, by omega⟩
      have hflag := h.entries.used n (by omega) (by simp only [numBlocks]; omega)
      rw [hsplit]
      exact ne_key_of_short (load_image_used hn) (by omega) (by omega)
    -- the slices that begin in `open_files`
    · obtain ⟨n, hn, hsplit⟩ : ∃ n, n < 128 ∧ i * 512 = 105480 + sizeofFileEntry * n + 8 :=
        ⟨(i * 512 - 105488) / 16, by omega, by simp only [sizeofFileEntry]; omega⟩
      rw [hsplit, load_image_open hn (by decide)]
      exact file_slice (h.file n (by omega) (by simp only [maxLink]; omega))

/-- No path has the first byte of the key in it, since `sprintf` takes that byte for a
directive; what is left to check are the bytes behind the strings, and the sizes. -/
theorem keyFree_of_stale (h : Values s) (hstale : ∀ m j, stale m j ≠ percent)
    (hsize : ∀ n i : Nat, n < 128 → i * 512 = 64 + sizeofInode * n →
      toU64 (s.inodeTable n).stat.stSize ≠ KEY) : KeyFree stale s := by
  refine ⟨hsize, fun n i j hn hj _ => ?_⟩
  have hname := (h.name n (by omega) (by simp only [maxLink]; omega)).path.1.2
  have hbyte : load (nameBytes (stale n) (s.nameTable n)) (8 + j) 8 0 =
      ((s.nameTable n).path ++ [0]).getD j (stale n j) := by
    show nameBytes (stale n) (s.nameTable n) (8 + j) = _
    unfold nameBytes
    rw [store_inside (show j < maxPathLen by omega)]
  refine ne_key_of_byte 0 fun hkey => ?_
  have hpercent : load (nameBytes (stale n) (s.nameTable n)) (8 + j) 8 0 = percent :=
    UInt8.toNat_inj.mp hkey
  rw [hbyte] at hpercent
  rcases Nat.lt_or_ge j ((s.nameTable n).path ++ [0]).length with hlt | hge
  · rw [List.getD_eq_getElem _ _ hlt] at hpercent
    have hmem := List.getElem_mem hlt
    rw [hpercent, List.mem_append] at hmem
    rcases hmem with hmem | hmem
    · exact hname hmem
    · exact absurd (List.mem_singleton.mp hmem) (by decide)
  · rw [List.getD_eq_default _ _ hge] at hpercent
    exact hstale n j hpercent

/-- A scan that stops at the image has passed every other slice. -/
theorem keyOnce_of_findKey {g : Globals} (hsys : g.systemBlock = numBlocks - reserveBlocks)
    (h : findKey (sfsDestroy junk g d) = some reserveBlocks) :
    KeyOnce (saveTables g junk) := by
  intro i hi₀ hi₁
  rw [imageBlocks_eq] at hi₁
  obtain ⟨_, _, _, hmin⟩ := findFrom_some h
  have hne := hmin (211 - i) (by omega) (by simp only [reserveBlocks]; omega)
  rw [decide_eq_false_iff_not] at hne
  have hpos : numBlocks - (211 - (i : Int)) = numBlocks - reserveBlocks + i := by
    simp only [numBlocks, reserveBlocks]
    omega
  rw [hpos, slice_sfsDestroy hsys (by rw [imageBlocks_eq]; omega)] at hne
  exact hne

/-- **When a mount finds the tables.**  Whatever a run leaves in the tables, the next mount
reads them back if and only if no size and no path lies where a block begins and has the bytes
of the key. -/
theorem mount_finds_tables_iff (h : TypedRun s) (stale : Nat → Nat → UInt8)
    (junk junk' : Buffer UInt8) (fresh : Globals) (d : Disk) :
    sfsInit junk' fresh (sfsDestroy junk (encode stale s) d) =
      some { encode stale s with cwdInode := (encode stale s).rootInode } ↔ KeyFree stale s := by
  have hsys : (encode stale s).systemBlock = numBlocks - reserveBlocks := h.inside.reserved.system
  rw [← keyOnce_iff junk h.values]
  refine ⟨fun hinit => ?_, sfsInit_sfsDestroy hsys⟩
  unfold sfsInit at hinit
  obtain ⟨i, hfind, hrestore⟩ := Option.map_eq_some_iff.mp hinit
  have hstart := congrArg Globals.systemBlock hrestore
  rw [show (restoreTables junk' fresh (sfsDestroy junk (encode stale s) d)
    (numBlocks - i)).systemBlock = numBlocks - i from rfl] at hstart
  have hi : i = reserveBlocks := by
    dsimp only at hstart
    rw [hsys] at hstart
    omega
  exact keyOnce_of_findKey hsys (hi ▸ hfind)

/-- A size that a slice begins with belongs to one of four inodes. -/
theorem keyFree_sizes {n i : Nat} (hn : n < 128) (hi : i * 512 = 64 + sizeofInode * n) :
    n = 20 ∨ n = 52 ∨ n = 84 ∨ n = 116 := by
  simp only [sizeofInode] at hi
  omega

private theorem keyFree_mountWithTwo : KeyFree (fun _ _ => 0) mountWithTwo := by
  refine keyFree_of_stale typedRun_mountWithTwo.values (fun _ _ => by decide) fun n i hn hi => ?_
  rcases keyFree_sizes hn hi with rfl | rfl | rfl | rfl <;> decide +kernel

/-- The tables of a mount with `/a`, which has a byte, and `/b`. -/
theorem tables_survive_remount_two :
    (mountWithTwo.nameTable 1).path = rootPath letterA ∧
    (mountWithTwo.nameTable 2).path = rootPath letterB ∧
    (mountWithTwo.inodeTable 1).stat.stSize = 1 ∧
    ∃ d', runCycles [⟨fun _ => 9, fun _ => 7, blankGlobals⟩, ⟨fun _ => 5, fun _ => 3, blankGlobals⟩]
        (encode (fun _ _ => 0) mountWithTwo, mountWithTwo.disk) =
      some ({ encode (fun _ _ => 0) mountWithTwo with
        cwdInode := (encode (fun _ _ => 0) mountWithTwo).rootInode }, d') ∧
      d' 1 = mountWithTwo.disk 1 := by
  have hkey : KeyOnce (saveTables (encode (fun _ _ => 0) mountWithTwo) fun _ => 0) :=
    (keyOnce_iff _ typedRun_mountWithTwo.values).mpr keyFree_mountWithTwo
  obtain ⟨d', hrun, hbelow⟩ := (tables_survive_remount (encode (fun _ _ => 0) mountWithTwo)
    mountWithTwo.disk (fun _ => 0) (by decide +kernel) hkey).2
    ⟨fun _ => 9, fun _ => 7, blankGlobals⟩ [⟨fun _ => 5, fun _ => 3, blankGlobals⟩]
  exact ⟨by decide +kernel, by decide +kernel, by decide +kernel, d', hrun,
    hbelow 1 (by decide +kernel)⟩

/-- The same for a single mount, which begins with other memory. -/
theorem mount_finds_tables_two :
    sfsInit (fun _ => 7) blankGlobals
        (sfsDestroy (fun _ => 9) (encode (fun _ _ => 0) mountWithTwo) mountWithTwo.disk) =
      some { encode (fun _ _ => 0) mountWithTwo with
        cwdInode := (encode (fun _ _ => 0) mountWithTwo).rootInode } :=
  (mount_finds_tables_iff typedRun_mountWithTwo _ _ _ _ _).mpr keyFree_mountWithTwo

end Scan

end Sfs
