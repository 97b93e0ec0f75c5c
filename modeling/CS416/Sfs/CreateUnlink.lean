import CS416.Sfs.DirText
import CS416.Sfs.Filling
import CS416.Sfs.OpenHandles
import CS416.Sfs.Recycle
import CS416.Sfs.RemoveEntry

/-!
# Creating a file and unlinking it

`sfs_create` adds the length of the entry and one to the size of the parent, and
`sfs_unlink` takes off what is then free of a block.  The two agree for an
entry that fills the first block of the parent to its last byte.
-/

namespace Sfs

open CInt CString Search Outcome

/-- `st_size` of the parent as `sfs_unlink` reads it after an entry of `size` bytes. -/
def grownSize (s : FS) (cwd size : Int) : Int :=
  toInt (toInt64 ((s.inodeTable cwd).stat.stSize + size))

/-- `sfs_unlink` gives up a block when it takes `size` bytes off the parent again. -/
def ShrinksDir (s : FS) (cwd size : Int) : Prop :=
  (grownSize s cwd size).tdiv blockSize > (grownSize s cwd size - size).tdiv blockSize

instance (s : FS) (cwd size : Int) : Decidable (ShrinksDir s cwd size) :=
  inferInstanceAs (Decidable (_ > _))

/-- The entry goes to the first block of the directory and, with its `NUL`, fills it; it
occurs there once; and a block is given up if and only if one was added. -/
structure FillsBlock (s : FS) (cwd : Int) (entry : Path) : Prop where
  first : (textEnd s cwd).1 = 0
  last : EndsMapped s cwd
  full : (textEnd s cwd).2 + entry.length = 511
  once : ¬ StartsIn entry (textOf s cwd) entry
  range : toInt64 (s.inodeTable cwd).stat.stSize = (s.inodeTable cwd).stat.stSize
  sized : grownSize s cwd (entry.length + 1) ≠ 0
  blocks : GrowsDir s cwd (entry.length + 1) ↔ ShrinksDir s cwd (entry.length + 1)

/-- The directory `cwd` is as before, and the same inodes, names, blocks and handles are in
use. -/
structure Restored (s t : FS) (cwd : Int) : Prop extends SameInUse s t where
  handles : ∀ fh, 0 ≤ fh → fh < maxLink →
    ((t.openFiles fh).stIno < 0 ↔ (s.openFiles fh).stIno < 0)
  text : textOf t cwd = textOf s cwd
  size : (t.inodeTable cwd).stat.stSize = (s.inodeTable cwd).stat.stSize
  nlink : (t.inodeTable cwd).stat.stNlink = (s.inodeTable cwd).stat.stNlink

section Text

variable {s t : FS} {env : Env} {cwd : Int} {text : Path}

/-- A text in the first block, as the bytes of that block. -/
theorem HoldsText.blockBytes_eq (h : HoldsText t cwd text) (hlen : text.length < 512) :
    ∃ rest, blockBytes (blockRead t.disk ((t.inodeTable cwd).blocks 0)) = text ++ 0 :: rest := by
  refine ⟨(blockBytes (blockRead t.disk ((t.inodeTable cwd).blocks 0))).drop (text.length + 1), ?_⟩
  apply List.ext_getElem
  · simp only [blockBytes, List.length_map, List.length_range, List.length_append,
      List.length_cons, List.length_drop]
    omega
  · intro p hp _
    have hp' : p < 512 := by simpa [blockBytes] using hp
    have hbyte : ∀ q ≤ text.length,
        (blockRead t.disk ((t.inodeTable cwd).blocks 0)).byte q = text.getD q 0 := by
      intro q hq
      obtain ⟨b, hb, hread⟩ := h q hq
      rw [Nat.div_eq_of_lt (by omega)] at hb
      rw [Nat.mod_eq_of_lt (by omega)] at hread
      have hdata : (t.inodeTable cwd).blocks 0 = b := hb.data
      rw [hdata, hread]
    simp only [blockBytes, List.getElem_map, List.getElem_range]
    by_cases hold : p < text.length
    · rw [hbyte p hold.le, List.getElem_append_left hold, List.getD_eq_getElem _ _ hold]
    · rw [List.getElem_append_right (by omega)]
      by_cases hend : p = text.length
      · subst p
        rw [hbyte _ (le_refl _), List.getD_eq_default _ _ (le_refl _)]
        simp
      · obtain ⟨k, rfl⟩ : ∃ k, p = text.length + 1 + k := ⟨p - (text.length + 1), by omega⟩
        have hk : text.length + 1 + k - text.length = k + 1 := by omega
        simp [hk]

/-- What `sfs_create` and `sfs_unlink` find of a text in the first block. -/
theorem HoldsText.textEnd_eq (h : HoldsText t cwd text) (hlen : text.length < 512)
    (hnul : 0 ∉ text) : textEnd t cwd = (0, text.length) := by
  obtain ⟨rest, hbytes⟩ := h.blockBytes_eq hlen
  have hindex : getBlockIndex t.disk (t.inodeTable cwd) 0 = (t.inodeTable cwd).blocks 0 := rfl
  unfold textEnd
  rw [textEndFrom, hindex, hbytes, stringAt_append rest hnul, if_pos hlen]

/-- The text is what `sfs_unlink` reads. -/
theorem HoldsText.dirString_eq (h : HoldsText t cwd text) (hlen : text.length < 512)
    (hnul : 0 ∉ text) : dirString env t cwd 1 = text := by
  obtain ⟨rest, hbytes⟩ := h.blockBytes_eq hlen
  have hindex : getBlockIndex t.disk (t.inodeTable cwd) 0 = (t.inodeTable cwd).blocks 0 := rfl
  rw [dirString, if_neg (by decide), hindex, hbytes, List.append_assoc, List.cons_append,
    stringAt_append _ hnul]

/-- The text is that of the directory. -/
theorem HoldsText.textOf_eq (h : HoldsText t cwd text) (hlen : text.length < 512)
    (hnul : 0 ∉ text) : textOf t cwd = text := by
  have hend := h.textEnd_eq hlen hnul
  have hlength := length_textOf t cwd
  rw [hend] at hlength
  apply List.ext_getElem
  · simpa using hlength
  · intro p hp hp'
    obtain ⟨b, hb, hread⟩ := h p hp'.le
    rw [← List.getD_eq_getElem _ 0 hp, ← List.getD_eq_getElem _ 0 hp', getD_textOf hp,
      hb.dirByte_eq rfl, hread]

/-- A text that ends in the first block is the string there. -/
theorem textOf_first (h : (textEnd s cwd).1 = 0) :
    textOf s cwd = stringAt 0 (blockBytes (blockRead s.disk ((s.inodeTable cwd).blocks 0))) := by
  have hindex : getBlockIndex s.disk (s.inodeTable cwd) 0 = (s.inodeTable cwd).blocks 0 := rfl
  generalize hbytes : blockBytes (blockRead s.disk ((s.inodeTable cwd).blocks 0)) = bytes
  have hend : textEnd s cwd = (0, (stringAt 0 bytes).length) := by
    unfold textEnd at h ⊢
    rw [textEndFrom, hindex, hbytes] at h ⊢
    split
    · rfl
    · rename_i hfull
      rw [if_neg hfull] at h
      have hge := textEndFrom_ge s (s.inodeTable cwd) 1109 (0 + 1)
      omega
  have hpre : stringAt 0 bytes <+: bytes := List.takeWhile_prefix _
  have hlength := length_textOf s cwd
  rw [hend] at hlength
  apply List.ext_getElem
  · simpa using hlength
  · intro p hp hp'
    have hpos : (textEnd s cwd).2 < 512 := textEnd_pos (by rw [h]; decide)
    rw [hend] at hpos
    have hlt : p < 512 := by
      dsimp only at hpos
      omega
    have hbound : p < bytes.length := lt_of_lt_of_le hp' hpre.length_le
    have hbyte : dirByte s cwd p = bytes[p] := by
      subst bytes
      simp only [blockBytes, List.getElem_map, List.getElem_range]
      rw [dirByte, Nat.div_eq_of_lt hlt, Nat.mod_eq_of_lt hlt]
      rfl
    rw [← List.getD_eq_getElem _ 0 hp, getD_textOf hp, hbyte]
    exact (hpre.getElem hp').symm

private theorem textOf_nul (h : (textEnd s cwd).1 = 0) : 0 ∉ textOf s cwd := by
  rw [textOf_first h]
  exact not_mem_stringAt 0 _

private theorem FillsBlock.length_eq {entry : Path} (h : FillsBlock s cwd entry) :
    (textOf s cwd).length = (textEnd s cwd).2 := by
  rw [length_textOf, h.first]
  omega

/-- The text ends within the first block. -/
theorem FillsBlock.length_lt {entry : Path} (h : FillsBlock s cwd entry) :
    (textOf s cwd).length < 512 := by
  rw [h.length_eq]
  exact textEnd_pos (by rw [h.first]; decide)

end Text

section Parent

variable {s t u v : FS} {env : Env} {cwd b : Int} {path entry text : Path}

/-- A first block that is there and has been written with a text holds it. -/
theorem holdsText_of_textBlock (hb : HasBlock t cwd 0 b)
    (hread : blockRead t.disk b = textBlock text) (hlen : text.length < 512) :
    HoldsText t cwd text := by
  intro p hp
  rw [Nat.div_eq_of_lt (by omega), Nat.mod_eq_of_lt (by omega)]
  refine ⟨b, hb, ?_⟩
  rw [hread, textBlock, Block.byte_ofFn _ (by omega)]

/-- The blocks of a directory whose text ended in its first block: one may have come in. -/
theorem appendEntry_blocks (hfirst : (textEnd v cwd).1 = 0) :
    Post (appendEntry env cwd entry v) fun t =>
      ¬ GrowsDir v cwd (entry.length + 1) ∧ t.diskBlocks = v.diskBlocks ∧
        (t.inodeTable cwd).blocks = (v.inodeTable cwd).blocks ∨
      GrowsDir v cwd (entry.length + 1) ∧ ∃ b, 0 ≤ b ∧ b < numBlocks ∧ v.diskBlocks b = FREE ∧
        t.diskBlocks = Function.update v.diskBlocks b ALLOCD ∧
        (t.inodeTable cwd).blocks = Function.update (v.inodeTable cwd).blocks 1 b := by
  refine appendEntry_post ?_
  unfold putEntry growDir
  dsimp only
  rw [hfirst]
  split
  · rename_i hgrow
    simp only [bind_assoc]
    refine (getBlock_outcome _).post.bind ?_
    intro r hr
    obtain ⟨b, u⟩ := r
    dsimp only at hr ⊢
    rw [setBlockIndex, if_pos (by decide), pure_bind, pure_bind]
    apply Post.pure
    right
    refine ⟨hgrow, b, hr.nonneg, hr.lt, hr.free, ?_, ?_⟩
    · rw [FS.modStat_diskBlocks, FS.write_diskBlocks, FS.setBlocks_diskBlocks, hr.state]
      rfl
    · rw [FS.modStat_blocks, FS.write_inodeTable, FS.setBlocks_blocks_self, hr.state]
      rfl
  · rename_i hgrow
    rw [pure_bind]
    apply Post.pure
    left
    exact ⟨hgrow, rfl, by rw [FS.modStat_blocks]; rfl⟩

/-- One free block is enough for a directory whose text ends in its first block. -/
theorem appendEntry_returns (env : Env) (entry : Path) (hfirst : (textEnd v cwd).1 = 0)
    (hfree : HasFreeBlock v) : ∃ t, appendEntry env cwd entry v = .ok t := by
  rw [appendEntry, if_pos (textEnd_pos (by rw [hfirst]; decide))]
  unfold putEntry growDir
  dsimp only
  rw [hfirst]
  split
  · generalize hw : v.write _ _ = w
    have hfree' : HasFreeBlock w := by
      subst w
      exact hfree
    obtain ⟨b, hget, _⟩ := getBlock_of_free hfree'
    rw [hget, ok_bind]
    dsimp only
    rw [setBlockIndex, if_pos (by decide)]
    exact ⟨_, rfl⟩
  · exact ⟨_, rfl⟩

/-- **Deleting an entry that leaves a text shorter than the block.** -/
theorem removeEntry_eq {size : Int} (hsize : size = toInt (t.inodeTable cwd).stat.stSize)
    (hne : size ≠ 0) (hstring : removeSubstring (dirString env t cwd 1) entry = text)
    (hlen : text.length ≤ 512) :
    ∃ u, removeEntry env cwd entry t = .ok u ∧
      (u.inodeTable cwd).stat.stSize =
        toInt64 ((t.inodeTable cwd).stat.stSize - (512 - text.length)) ∧
      u.disk = blockWrite t.disk ((t.inodeTable cwd).blocks 0) (textBlock text) ∧
      (∀ j, j ≠ cwd → u.inodeTable j = t.inodeTable j) ∧
      (size.tdiv blockSize > (size - (512 - text.length)).tdiv blockSize ∧
        u.diskBlocks = Function.update t.diskBlocks ((t.inodeTable cwd).blocks 1) FREE ∧
        (u.inodeTable cwd).blocks = Function.update (t.inodeTable cwd).blocks 1 (-1) ∨
      ¬ size.tdiv blockSize > (size - (512 - text.length)).tdiv blockSize ∧
        u.diskBlocks = t.diskBlocks ∧
        (u.inodeTable cwd).blocks = (t.inodeTable cwd).blocks) := by
  have hblocks : dirBlocks size = 1 := (dirBlocks_cases size).resolve_left (dirBlocks_ne_zero hne)
  have hindex : ∀ (d : Disk) (nd : Inode), getBlockIndex d nd 1 = nd.blocks 1 := fun _ _ => rfl
  have hstore : storeText cwd 1 text t =
      t.write ((t.inodeTable cwd).blocks 0) (textBlock text) := if_neg (by decide)
  unfold removeEntry shrinkDir
  dsimp only
  rw [← hsize, hblocks, hstring, if_neg (by simp only [blockSize]; omega), hstore]
  split
  · rename_i hshrink
    rw [setBlockIndex, if_pos (by decide), hindex]
    refine ⟨_, rfl, ?_, rfl, ?_, Or.inl ⟨hshrink, rfl, ?_⟩⟩
    · rw [FS.modStat_stat_self, FS.setBlocks_stat]
      rfl
    · intro j hj
      rw [FS.modStat_inodeTable_ne _ _ _ hj, FS.setBlocks_inodeTable_ne _ _ _ _ hj]
      rfl
    · rw [FS.modStat_blocks, FS.setBlocks_blocks_self]
      rfl
  · rename_i hkeep
    refine ⟨_, rfl, ?_, rfl, ?_, Or.inr ⟨hkeep, rfl, ?_⟩⟩
    · rw [FS.modStat_stat_self]
      rfl
    · intro j hj
      rw [FS.modStat_inodeTable_ne _ _ _ hj]
      rfl
    · rw [FS.modStat_blocks]
      rfl

end Parent

section Calls

variable {s t u : FS} {env : Env} {path : Path} {mode : Nat} {fi fh m i k : Int}

/-- `sfs_create` has made the file `i`, with the entry `m` of `name_table`, in the directory
of entry `k`. -/
structure Created (s t : FS) (m i k : Int) (path : Path) : Prop where
  slot : 0 ≤ m ∧ m < maxLink ∧ (s.nameTable m).avail = FREE
  node : 0 ≤ i ∧ i < maxNodes ∧ (s.inodeTable i).avail = FREE
  ino : i = (getInode s).1
  parent : Entry s k ∧ IsDir s k ∧ IsParent (pathOf s k) path
  names : t.nameTable = Function.update s.nameTable m ⟨ALLOCD, i, path⟩
  opens : t.openFiles = Function.update s.openFiles (getFh s) ⟨1, i, 0⟩
  avail_ne : ∀ j, j ≠ i → (t.inodeTable j).avail = (s.inodeTable j).avail
  nlink : (t.inodeTable i).stat.stNlink = 1
  empty : ∀ sl, refs t (i, sl) < 0
  dirLink : (t.inodeTable (inoOf s k)).stat.stNlink =
    toU64 ((s.inodeTable (inoOf s k)).stat.stNlink + 1)
  dirSize : (t.inodeTable (inoOf s k)).stat.stSize =
    toInt64 ((s.inodeTable (inoOf s k)).stat.stSize + ((newEntry s path).length + 1))
  text : HoldsText t (inoOf s k) (textOf s (inoOf s k) ++ newEntry s path) ↔
    TakesEntry s (inoOf s k) (newEntry s path)
  blocks : (textEnd s (inoOf s k)).1 = 0 →
    ¬ GrowsDir s (inoOf s k) ((newEntry s path).length + 1) ∧ t.diskBlocks = s.diskBlocks ∧
      (t.inodeTable (inoOf s k)).blocks = (s.inodeTable (inoOf s k)).blocks ∨
    GrowsDir s (inoOf s k) ((newEntry s path).length + 1) ∧ ∃ b, 0 ≤ b ∧ b < numBlocks ∧
      s.diskBlocks b = FREE ∧ t.diskBlocks = Function.update s.diskBlocks b ALLOCD ∧
      (t.inodeTable (inoOf s k)).blocks =
        Function.update (s.inodeTable (inoOf s k)).blocks 1 b

/-- What `sfs_create` of a new path does while names and blocks are left. -/
theorem sfsCreate_created (env : Env) (fi : Int) (hb : Blocks False anySize s) (ht : Tree s)
    (hok : BooksOk s (.create path mode)) (hroom : Room s) (hnew : NewPath s path)
    (hfirst : ∀ k, Entry s k → IsParent (pathOf s k) path → (textEnd s (inoOf s k)).1 = 0) :
    ∃ t m i k, sfsCreate env path mode fi s = .ok (0, toU64 (getFh s), t) ∧
      Created s t m i k path := by
  obtain ⟨hfuse, hblock, _⟩ := hok
  have hlook := pathLookup_new hfuse.2.2.1 hnew ht
  obtain ⟨m₀, hget, hm₀, _⟩ := getMapping_of_free hroom.name
  rcases sfsCreate_eq env fi ht hfuse (by omega) with ⟨_, _, _, _, hfull, _⟩ |
    ⟨u, m, i, k, hp, hn, he, hm, hi, heq⟩
  · rw [hget] at hfull
    exact absurd hm₀ (not_le.mpr hfull)
  obtain ⟨hk, hkd, hkp⟩ := he.parent
  have hA := ht.dir_allocated hk
  have hki : inoOf s k ≠ i := by
    intro heq
    apply not_mem_allocated hp.free
    rw [← heq]
    exact hA
  obtain ⟨hu, _, hempty⟩ := hb.newFile hp hn
  have hv := hu.same (t := enterName m i path
    (u.setName m { u.nameTable m with avail := ALLOCD })) rfl rfl rfl
  have hfit := hblock hlook (hm ▸ he.slot.1) k hk hkp
  have hentry : dirEntry (getName path) i = newEntry s path := by rw [newEntry, hi]
  rw [hentry] at heq
  generalize hw : enterName m i path (u.setName m { u.nameTable m with avail := ALLOCD }) = v
    at hv he heq
  have hnode : v.inodeTable = u.inodeTable := by
    subst v
    rfl
  have hused : v.diskBlocks = s.diskBlocks := by
    subst v
    exact hn.used
  have hsame : SameDir s v (inoOf s k) := by
    refine ⟨by rw [hnode, hn.blocks_ne _ hki], by rw [he.stat_ne _ hki], ?_⟩
    intro p
    subst v
    exact congrFun hn.disk _
  have hcwd : inoOf s k ∈ allocated v := by
    refine ⟨hA.1, hA.2.1, ?_⟩
    rw [he.avail_ne _ hki]
    exact hA.2.2
  obtain ⟨hend, hfit'⟩ := hfit.congr hsame.blocks hsame.size hsame.disk
  have hvfirst : (textEnd v (inoOf s k)).1 = 0 := by
    rw [hend]
    exact hfirst k hk hkp
  have hfree : HasFreeBlock v := by
    unfold HasFreeBlock
    rw [hused]
    exact hroom.block
  obtain ⟨t, happ⟩ := appendEntry_returns env (newEntry s path) hvfirst hfree
  rw [happ] at heq
  have hrel := (appendEntry_relinks env (inoOf s k) _ v).post t happ
  have hext := ((appendEntry_spec env hv.books hcwd hfit').post t happ).2
  have hlinks : (v.inodeTable (inoOf s k)).stat = (s.inodeTable (inoOf s k)).stat :=
    he.stat_ne _ hki
  have hshort := length_newEntry hfuse.1 hfuse.2.2.2
  have happends : Appends env False s t (inoOf s k) (newEntry s path) :=
    ⟨v, hv.books, hcwd, hsame, happ⟩
  refine ⟨t, m, i, k, heq, ?_⟩
  exact
    { slot := he.slot
      node := he.node
      ino := hi
      parent := he.parent
      names := hrel.names.trans he.names
      opens := by
        rw [hrel.opens, ← hw, ← handleIndex_toU64_getFh]
        exact hn.opens
      avail_ne := fun j hj => (hrel.avail j).trans (he.avail_ne j hj)
      nlink := by
        rw [hrel.nlink_ne i hki.symm, hnode]
        exact hn.nlink
      empty := fun sl => by
        have hi : i ∈ allocated v := ⟨hp.range.1, hp.range.2, he.avail⟩
        rw [hext.refs_ne (i, sl) hi hki.symm]
        have hneg := hempty sl
        rw [← hw]
        exact hneg
      dirLink := by rw [hrel.nlink, hlinks]
      dirSize := by rw [(appendEntry_size env _ _ v) t happ, hlinks]
      text := happends.holds_iff hfit (by omega)
      blocks := fun _ => by
        have hblocks := appendEntry_blocks hvfirst t happ
        rwa [GrowsDir, hlinks, hused, hsame.blocks] at hblocks }

/-- A path is a C string, so an entry contains no `NUL`. -/
theorem nul_notMem_newEntry (h : 0 ∉ path) : 0 ∉ newEntry s path := by
  have hname : 0 ∉ getName path := by
    unfold getName
    split
    · decide
    · split
      · exact List.not_mem_nil
      · intro hmem
        exact h (List.mem_of_mem_drop hmem)
  have hdigits : 0 ∉ showInt (getInode s).1 := by
    intro hmem
    rcases mem_showInt hmem with h₀ | h₀ <;> exact absurd h₀ (by decide)
  unfold newEntry dirEntry
  intro hmem
  rw [List.cons_append, List.mem_cons, List.mem_append, List.mem_cons] at hmem
  rcases hmem with h₀ | h₀ | h₀ | h₀
  · exact absurd h₀ (by decide)
  · exact hname h₀
  · exact absurd h₀ (by decide)
  · exact hdigits h₀

/-- `sfs_unlink` returns when the deletion of the entry does. -/
theorem sfsUnlink_eq (env : Env) (ht : Tree t) (hm : Entry t m) (hne : pathOf t m ≠ [slash])
    (hk : Entry t k) (hkp : IsParent (pathOf t k) (pathOf t m))
    (hremove : removeEntry env (inoOf t k) (dirEntry (getName (pathOf t m)) (inoOf t m))
      { t with cwdInode := inoOf t k } = .ok u) :
    sfsUnlink env (pathOf t m) t = .ok (0, freeMapping m (freeInode (inoOf t m) u)) := by
  obtain ⟨hlook, j, hj, _, hjp, hcwd⟩ := ht.lookup_parent hm hne
  obtain rfl : j = k := ht.path_inj j k hj hk (hjp.unique hkp)
  have hm₀ := hm.1
  unfold sfsUnlink
  simp only [hlook, hcwd]
  rw [if_neg (show ¬ m < 0 by omega)]
  exact bind_ok.mpr ⟨u, hremove, rfl⟩

private theorem toInt64_sub_cancel (x y : Int) : toInt64 (toInt64 (x + y) - y) = toInt64 x := by
  unfold toInt64
  rw [Int.bmod_sub_bmod, Int.add_sub_cancel]

/-- Deleting the only occurrence of an entry at the end of the text. -/
theorem removeSubstring_last {entry text : Path} (hne : entry ≠ [])
    (honce : ¬ StartsIn entry text entry) : removeSubstring (text ++ entry) entry = text := by
  have hleft : ¬ StartsIn entry text (entry ++ []) := by rwa [List.append_nil]
  have hhere := removeSubstring_here hne hleft (fun hin => hne (List.infix_nil.mp hin))
  rwa [List.append_nil, List.append_nil] at hhere

/-- An inode without blocks has none in a state in which it is the same. -/
theorem refs_neg_of_eq (h : ∀ sl, refs t (i, sl) < 0) (heq : u.inodeTable i = t.inodeTable i)
    (sl : Slot) : refs u (i, sl) < 0 := by
  have hsingle : (t.inodeTable i).blocks 10 < 0 := h .single
  have hdouble : (t.inodeTable i).blocks 11 < 0 := h .double
  have hnone : (-1 : Int) < 0 := by decide
  rw [refs, heq]
  cases sl with
  | direct l => exact h (.direct l)
  | single => exact hsingle
  | double => exact hdouble
  | sdata k => rw [slotRef, entry_neg _ hsingle]; exact hnone
  | sub j => rw [slotRef, entry_neg _ hdouble]; exact hnone
  | ddata j k => rw [slotRef, entry_neg _ hdouble, entry_neg _ hnone]; exact hnone

/-- The parent after the entry that filled its first block has been deleted again. -/
theorem Created.remove (env : Env) (h : Created s t m i k path)
    (hbooks : Books False (allocated s) ∅ s) (hcwd : inoOf s k ∈ allocated s)
    (hfill : FillsBlock s (inoOf s k) (newEntry s path)) (hstring : 0 ∉ path)
    (hnode : u.inodeTable = t.inodeTable) (hdisk : u.disk = t.disk)
    (hused : u.diskBlocks = t.diskBlocks) :
    ∃ w, removeEntry env (inoOf s k) (newEntry s path) u = .ok w ∧
      (w.inodeTable (inoOf s k)).stat.stSize = (s.inodeTable (inoOf s k)).stat.stSize ∧
      HoldsText w (inoOf s k) (textOf s (inoOf s k)) ∧
      (∀ j, j ≠ inoOf s k → w.inodeTable j = t.inodeTable j) ∧
      ∀ c, 0 ≤ c → w.diskBlocks c = s.diskBlocks c := by
  have htext := h.text
  have hblocks := h.blocks hfill.first
  have hdirSize := h.dirSize
  have hentry : 0 ∉ newEntry s path := nul_notMem_newEntry hstring
  have hne : newEntry s path ≠ [] := dirEntry_ne_nil _ _
  generalize newEntry s path = entry at hfill htext hblocks hdirSize hentry hne ⊢
  generalize inoOf s k = cwd at hcwd hfill htext hblocks hdirSize ⊢
  have hfull := hfill.full
  have hlen := hfill.length_eq
  have hnul := textOf_nul hfill.first
  have hresize : (512 : Int) - (textOf s cwd).length = entry.length + 1 := by omega
  have hholds : HoldsText t cwd (textOf s cwd ++ entry) :=
    htext.mpr ⟨hfill.last, Or.inl (by omega)⟩
  have hread : dirString env u cwd 1 = textOf s cwd ++ entry := by
    rw [dirString, hnode, hdisk, ← dirString]
    apply hholds.dirString_eq
    · rw [List.length_append]
      omega
    · rw [List.mem_append]
      exact not_or.mpr ⟨hnul, hentry⟩
  have hgrown : toInt (u.inodeTable cwd).stat.stSize = grownSize s cwd (entry.length + 1) := by
    rw [hnode, hdirSize, grownSize]
  have hdelete : removeSubstring (dirString env u cwd 1) entry = textOf s cwd := by
    rw [hread]
    exact removeSubstring_last hne hfill.once
  obtain ⟨w, hw, hsize, hwdisk, hother, hcases⟩ :=
    removeEntry_eq hgrown.symm hfill.sized hdelete (by omega)
  rw [hnode, hused, hresize] at hcases
  rw [hnode, hdirSize, hresize, toInt64_sub_cancel, hfill.range] at hsize
  -- the first block is where it was
  have hfirst : (t.inodeTable cwd).blocks 0 = (s.inodeTable cwd).blocks 0 ∧
      (w.inodeTable cwd).blocks 0 = (t.inodeTable cwd).blocks 0 := by
    constructor
    · rcases hblocks with ⟨_, _, heq⟩ | ⟨_, _, _, _, _, _, heq⟩
      · rw [heq]
      · rw [heq]
        rfl
    · rcases hcases with ⟨_, _, heq⟩ | ⟨_, _, heq⟩
      · rw [heq]
        rfl
      · rw [heq]
  obtain ⟨b, hb⟩ := hfill.last _ (le_refl _)
  rw [hfill.first] at hb
  have hdata : (s.inodeTable cwd).blocks 0 = b := hb.data
  refine ⟨w, hw, hsize, ?_, fun j hj => by rw [hother j hj, hnode], ?_⟩
  · have hblock : HasBlock w cwd 0 b := by
      refine ⟨⟨nofun, ?_⟩, by decide, hb.nonneg⟩
      exact hfirst.2.trans (hfirst.1.trans hdata)
    apply holdsText_of_textBlock hblock _ (by omega)
    rw [hwdisk, hnode, hfirst.1, hdata]
    exact blockRead_write_self (hb.lt hbooks hcwd)
  · intro c hc
    rcases hblocks with ⟨hstay, hsame, hlist⟩ | ⟨hgrow, d, _, _, hfree, hsame, hlist⟩
    · rcases hcases with ⟨hshrink, hw', _⟩ | ⟨_, hw', _⟩
      · exact absurd (hfill.blocks.mpr hshrink) hstay
      · rw [hw', hsame]
    · have hshrink : ShrinksDir s cwd (entry.length + 1) := hfill.blocks.mp hgrow
      rcases hcases with ⟨_, hw', _⟩ | ⟨hkeep, _⟩
      · rw [hw', hlist, Function.update_self, hsame]
        by_cases hcd : c = d
        · rw [hcd, Function.update_self, hfree]
        · rw [Function.update_of_ne hcd, Function.update_of_ne hcd]
      · exact absurd hshrink hkeep

/-- **`sfs_create` and `sfs_unlink` of a file that fills its parent's block.** -/
theorem Created.unlink (env : Env) (h : Created s t m i k path) (hs : Tree s)
    (hbooks : Books False (allocated s) ∅ s) (ht : Tree (freeFh fh t))
    (hfill : FillsBlock s (inoOf s k) (newEntry s path)) (hstring : 0 ∉ path)
    (hopens : ∀ fd, 0 ≤ fd → fd < maxLink →
      (((freeFh fh t).openFiles fd).stIno < 0 ↔ (s.openFiles fd).stIno < 0)) :
    ∃ u, sfsUnlink env path (freeFh fh t) = .ok (0, u) ∧ Restored s u (inoOf s k) := by
  obtain ⟨hk, hkd, hkp⟩ := h.parent
  have hA := hs.dir_allocated hk
  have hki : inoOf s k ≠ i := by
    intro heq
    apply not_mem_allocated h.node.2.2
    rw [← heq]
    exact hA
  have hkm : k ≠ m := by
    intro heq
    have havail := hk.2.2
    rw [heq, h.slot.2.2] at havail
    exact absurd havail (by decide)
  generalize hv : freeFh fh t = v at ht hopens ⊢
  have hvnode : v.inodeTable = t.inodeTable := by
    subst v
    rfl
  have hvnames : v.nameTable = t.nameTable := by
    subst v
    rfl
  -- the two entries of `name_table` after `sfs_create`
  have hm : Entry v m ∧ pathOf v m = path ∧ inoOf v m = i := by
    unfold Entry pathOf inoOf
    rw [hvnames, h.names, Function.update_self]
    exact ⟨⟨h.slot.1, h.slot.2.1, rfl⟩, rfl, rfl⟩
  have hk' : Entry v k ∧ pathOf v k = pathOf s k ∧ inoOf v k = inoOf s k := by
    unfold Entry pathOf inoOf
    rw [hvnames, h.names, Function.update_of_ne hkm]
    exact ⟨hk, rfl, rfl⟩
  have hentry : dirEntry (getName path) i = newEntry s path := by rw [newEntry, ← h.ino]
  obtain ⟨w, hw, hsize, htext, hother, hused⟩ := h.remove env
    (u := { v with cwdInode := inoOf s k }) hbooks hA hfill hstring hvnode
    (by subst v; rfl) (by subst v; rfl)
  have hunlink := sfsUnlink_eq (u := w) env ht hm.1 (by
    rw [hm.2.1]
    exact hkp.ne_root) hk'.1 (by rwa [hk'.2.1, hm.2.1])
    (by rw [hm.2.1, hm.2.2, hk'.2.2, hentry]; exact hw)
  rw [hm.2.1, hm.2.2] at hunlink
  have hrel := (removeEntry_relinks env (inoOf s k) _ _) w hw
  obtain ⟨hfnames, hfopens, hfnode⟩ := freeInode_names i w
  have hlink : (w.inodeTable i).stat.stNlink = 1 := by rw [hother i hki.symm, h.nlink]
  obtain ⟨_, hfree, hblocks⟩ := (freeInode_cases i w).resolve_left fun hkeep => by
    rw [hlink] at hkeep
    exact absurd hkeep.1 (by decide)
  have hempty := refs_neg_of_eq h.empty (hother i hki.symm)
  refine ⟨_, hunlink, ?_⟩
  exact
    { inodes := by
        ext j
        by_cases hj : j = i
        · subst j
          simp [allocated, freeMapping, hfree, h.node.2.2]
        · unfold allocated freeMapping
          simp only [Set.mem_ofPred_eq, FS.setName_inodeTable]
          rw [hfnode j hj, hrel.avail, hvnode, h.avail_ne j hj]
      names := fun j => by
        unfold Entry freeMapping
        rw [FS.setName_nameTable, hfnames, hrel.names, hvnames, h.names]
        by_cases hj : j = m
        · subst j
          simp [h.slot.2.2]
        · rw [Function.update_of_ne hj, Function.update_of_ne hj]
      blocks := by
        ext c
        unfold marked freeMapping
        simp only [Set.mem_ofPred_eq, FS.setName_diskBlocks]
        apply and_congr_right
        intro hc
        have hnone : ∀ sl, 0 ≤ slotRef w.disk (w.inodeTable i) sl →
            slotRef w.disk (w.inodeTable i) sl ≠ c :=
          fun sl h₀ => absurd h₀ (not_le.mpr (hempty sl))
        rw [hblocks, freeBlocks_of_ne hnone hc, hused c hc]
      handles := fun fd h₀ h₁ => by
        unfold freeMapping
        rw [FS.setName_openFiles, hfopens, hrel.opens]
        exact hopens fd h₀ h₁
      text := by
        apply HoldsText.textOf_eq _ hfill.length_lt (textOf_nul hfill.first)
        intro p hp
        obtain ⟨b, hb, hread⟩ := htext p hp
        obtain ⟨hfdisk, hfrefs⟩ := freeInode_frame i w
        refine ⟨b, (hasBlock_congr (fun q _ => ?_) ?_).mpr hb, ?_⟩
        · exact hfrefs (inoOf s k, q) hki
        · exact hfrefs (inoOf s k, _) hki
        · rw [freeMapping, FS.setName_disk, hfdisk]
          exact hread
      size := by
        unfold freeMapping
        rw [FS.setName_inodeTable, hfnode _ hki, hsize]
      nlink := by
        unfold freeMapping
        rw [FS.setName_inodeTable, hfnode _ hki, hrel.nlink, hvnode, h.dirLink]
        have hbounds := hs.nlink_bounds hk hkd
        rw [toU64_of_range (x := (s.inodeTable (inoOf s k)).stat.stNlink + 1) (by omega) (by omega),
          Int.add_sub_cancel, toU64_of_range (by omega) (by omega)] }

/-- The field `fi->fh` is not read where the path is new. -/
theorem sfsCreate_new (hlook : pathLookup s path < 0) (fi fi' : Int) :
    sfsCreate env path mode fi s = sfsCreate env path mode fi' s := by
  unfold sfsCreate
  rw [if_neg (by omega), if_neg (by omega)]

/-- The handles after `sfs_create` and `sfs_release`. -/
theorem Created.handles (h : Created s t m i k path) (hroom : 0 ≤ getFh s) {fd : Int} :
    ((freeFh (toU64 (getFh s)) t).openFiles fd).stIno < 0 ↔ (s.openFiles fd).stIno < 0 := by
  have hindex : toInt (toU64 (getFh s)) = getFh s := by
    rw [← handleIndex_getFh, handleIndex_toU64_getFh]
  rw [freeFh, FS.setOpen_openFiles, h.opens, hindex]
  by_cases hfd : fd = getFh s
  · rw [hfd, Function.update_self]
    have hfree := getFh_free hroom
    constructor
    · intro _
      exact hfree
    · intro _
      exact (by decide : (-1 : Int) < 0)
  · rw [Function.update_of_ne hfd, Function.update_of_ne hfd]

/-- **When `sfs_create` and `sfs_unlink` cancel out.**  In every run of calls that meet
their conditions, creating, releasing and unlinking a file whose entry fills the first block
of the parent leaves everything as it was. -/
theorem create_unlink_restores (h : Reached BooksOk s) (hroom : Room s) (hnew : NewPath s path)
    (hstring : 0 ∉ path) (hok : BooksOk s (.create path mode))
    (hfill : ∀ k, Entry s k → IsParent (pathOf s k) path →
      FillsBlock s (inoOf s k) (newEntry s path)) (env env' : Env) (fi : Int) :
    ∃ fh t u, sfsCreate env path mode fi s = .ok (0, fh, t) ∧
      sfsUnlink env' path (sfsRelease fh t).2 = .ok (0, u) ∧
      ∀ k, Entry s k → IsParent (pathOf s k) path → Restored s u (inoOf s k) := by
  obtain ⟨ht, hb⟩ := reached_books h
  obtain ⟨t, m, i, k, hcr, hc⟩ := sfsCreate_created env fi hb ht hok hroom hnew
    fun k hk hkp => (hfill k hk hkp).first
  obtain ⟨hk, _, hkp⟩ := hc.parent
  have hexec : exec env (.create path mode) s = .ok (0, t) := by
    rw [exec, sfsCreate_new (pathLookup_new hok.1.2.2.1 hnew ht) 0 fi, hcr]
    rfl
  have htree : Tree t := ht.exec hok.1 ⟨env, 0, hexec⟩
  have hrelease : Tree (freeFh (toU64 (getFh s)) t) :=
    htree.exec (c := .release (toU64 (getFh s))) trivial ⟨env, 0, rfl⟩
  obtain ⟨u, hun, hrestored⟩ := hc.unlink env' ht hb.books hrelease (hfill k hk hkp)
    hstring fun _ _ _ => hc.handles hroom.handle
  refine ⟨_, t, u, hcr, hun, ?_⟩
  intro j hj hjp
  rwa [ht.path_inj j k hj hk (hjp.unique hkp)]

end Calls

section Root

variable {s t : FS} {names : List Path} {name text : Path} {size : Int}

/-- The root directory is inode 0, its first block holds `text`, and its size is `size`. -/
structure RootText (s : FS) (text : Path) (size : Int) : Prop where
  root : inoOf s 0 = 0
  holds : HoldsText s 0 text
  nul : 0 ∉ text
  length : text.length < 512
  size : (s.inodeTable 0).stat.stSize = size

/-- The text ends in the root's first block. -/
theorem RootText.textEnd_eq (h : RootText s text size) : textEnd s 0 = (0, text.length) :=
  h.holds.textEnd_eq h.length h.nul

/-- That block is there. -/
theorem RootText.endsMapped (h : RootText s text size) : EndsMapped s 0 := by
  obtain ⟨b, hb, _⟩ := h.holds 0 (Nat.zero_le _)
  unfold EndsMapped
  rw [h.textEnd_eq]
  intro m hm
  obtain rfl := Nat.le_zero.mp hm
  exact ⟨b, hb⟩

/-- The root after a first mount. -/
theorem rootText_fresh {s : FS} (h : Fresh s) : RootText s (dirHeader 0 0) 9 := by
  have hfresh := fresh_state h
  have hblock : (s.inodeTable 0).blocks 0 = 0 := hfresh.root_blocks 0 (by decide) (by decide)
  refine ⟨?_, ?_, by decide, by decide, hfresh.root_size⟩
  · rw [inoOf, hfresh.root_name]
  · intro p hp
    have hlen : (dirHeader 0 0).length = 8 := by decide
    rw [Nat.div_eq_of_lt (by omega), Nat.mod_eq_of_lt (by omega)]
    refine ⟨0, ⟨⟨fun q hq => absurd hq List.not_mem_nil, hblock⟩, by decide, le_refl 0⟩, ?_⟩
    have hbyte := hfresh.text p (by omega)
    have hread : blockRead s.disk 0 = s.disk 0 := rfl
    have hshort : ∀ q ≤ 8, (dirHeader 0 0 ++ [0]).getD q 0 = (dirHeader 0 0).getD q 0 := by
      decide
    rw [hread, hbyte, hshort p (by omega)]

private theorem rootText_firstMount : RootText firstMount (dirHeader 0 0) 9 :=
  rootText_fresh fresh_firstMount

/-- What the name of a new file in the root satisfies. -/
structure NameFits (name : Path) : Prop where
  ne_nil : name ≠ []
  noSlash : slash ∉ name
  noNul : 0 ∉ name
  fits : PathFits (slash :: name)

section Next

variable (h : RootText s text size) (hs : RootFiles BooksOk s names) (hlen : names.length < 127)
  (hname : NameFits name)

include hs hlen hname

private theorem newEntry_root : newEntry s (slash :: name) = dirEntry name (names.length + 1) := by
  rw [newEntry, getName_root hname.ne_nil hname.noSlash, hs.getInode_eq hlen]

include h

/-- The next name can be created in the root. -/
theorem RootText.booksOk : BooksOk s (.create (slash :: name) 0o100644) := by
  have hpar := isParent_name hs hname.ne_nil hname.noSlash
  have hfuse : FuseOk s (.create (slash :: name) 0o100644) :=
    ⟨hname.fits, by decide, ⟨0, hs.tree.root.1, hs.tree.root.2.2, hpar⟩, (hs.room hlen).inode⟩
  refine ⟨hfuse, fun _ _ k hk hkp => ?_, nofun⟩
  obtain rfl : k = 0 := hs.tree.path_inj k 0 hk hs.tree.root.1 (hkp.unique hpar)
  have hzero : (textEnd s 0).1.toNat = 0 := by rw [h.textEnd_eq]; rfl
  rw [h.root]
  refine ⟨by omega, fun j hj p hp => ?_, fun _ => ⟨by omega, False.elim⟩⟩
  obtain rfl : j = 0 := by omega
  cases hp

/-- **One more file in the root, seen at the text.** -/
theorem RootText.create {entry : Path} (hentry : dirEntry name (names.length + 1) = entry)
    (hnew : name ∉ names) (hroom : text.length + entry.length < 512) (h₀ : 0 ≤ size)
    (hsize : size + (entry.length + 1) ≤ 512) :
    ∃ t, RootFiles BooksOk t (names ++ [name]) ∧
      RootText t (text ++ entry) (size + (entry.length + 1)) := by
  have hnewEntry : newEntry s (slash :: name) = entry :=
    (newEntry_root hs hlen hname).trans hentry
  have hok := h.booksOk hs hlen hname
  have hpar := isParent_name hs hname.ne_nil hname.noSlash
  have hroot : ∀ k, Entry s k → IsParent (pathOf s k) (slash :: name) → k = 0 := fun k hk hkp =>
    hs.tree.path_inj k 0 hk hs.tree.root.1 (hkp.unique hpar)
  obtain ⟨t, hcr, ht, _⟩ := hs.create name hlen hname.ne_nil hname.noSlash hname.fits hnew hok
    (by rw [h.root, h.textEnd_eq]; exact h.length)
  obtain ⟨t', m, i, k, hcr', hc⟩ := sfsCreate_created zeroEnv 0 (reached_books hs.reached).2 hs.tree
    hok (hs.room hlen) (hs.newPath hname.ne_nil hnew) (fun j hj hjp => by
      rw [hroot j hj hjp, h.root, h.textEnd_eq])
  obtain rfl : t = t' := by
    rw [hcr] at hcr'
    cases hcr'
    rfl
  obtain rfl : k = 0 := hroot k hc.parent.1 hc.parent.2.2
  have htext := hc.text
  have hdirSize := hc.dirSize
  rw [h.root, hnewEntry] at htext hdirSize
  rw [h.holds.textOf_eq h.length h.nul] at htext
  refine ⟨t, ht, ?_⟩
  exact
    { root := by
        have hm : (0 : Int) ≠ m := by
          intro heq
          have hroot₀ := hs.tree.root.1.2.2
          rw [heq, hc.slot.2.2] at hroot₀
          exact absurd hroot₀ (by decide)
        rw [inoOf, hc.names, Function.update_of_ne hm]
        exact h.root
      holds := htext.mpr ⟨h.endsMapped, Or.inl (by rw [h.textEnd_eq]; exact hroom)⟩
      nul := by
        have hpath : 0 ∉ slash :: name := by
          rw [List.mem_cons]
          exact not_or.mpr ⟨by decide, hname.noNul⟩
        rw [List.mem_append]
        exact not_or.mpr ⟨h.nul, hnewEntry ▸ nul_notMem_newEntry hpath⟩
      length := by
        rw [List.length_append]
        exact hroom
      size := by
        rw [hdirSize, h.size, toInt64_of_range (by omega) (by omega)] }

end Next

/-- An entry whose first letter is not in the text occurs only behind it. -/
theorem not_startsIn_of_notMem {c : UInt8} {rest : Path} (hc : c ≠ slash) (htext : c ∉ text) :
    ¬ StartsIn (slash :: c :: rest) text (slash :: c :: rest) := by
  intro hstarts
  obtain ⟨a, b, hab, hb, hpre⟩ := hstarts
  cases b with
  | nil => exact hb rfl
  | cons x b =>
      obtain ⟨_, hpre⟩ := List.cons_prefix_cons.mp hpre
      cases b with
      | nil => exact hc (List.cons_prefix_cons.mp hpre).1
      | cons y b =>
          apply htext
          rw [hab, (List.cons_prefix_cons.mp hpre).1]
          simp

/-- An entry that fills the first block of the root, to the byte. -/
theorem RootText.fillsBlock (h : RootText s text size) {entry : Path}
    (hfull : text.length + entry.length = 511) (honce : ¬ StartsIn entry text entry)
    (h₀ : 0 ≤ size) (hsize : size < 512) (hgrow : 512 < size + (entry.length + 1)) :
    FillsBlock s 0 entry := by
  have hgrown : grownSize s 0 (entry.length + 1) = size + (entry.length + 1) := by
    rw [grownSize, h.size, toInt64_of_range (by omega) (by omega),
      toInt_of_range (by omega) (by omega)]
  have hgrows : GrowsDir s 0 (entry.length + 1) := by
    rw [GrowsDir, h.size, Int.tmod_eq_of_lt h₀ hsize]
    exact hgrow
  have hshrinks : ShrinksDir s 0 (entry.length + 1) := by
    rw [ShrinksDir, hgrown, Int.add_sub_cancel, Int.tdiv_eq_ediv_of_nonneg h₀,
      Int.tdiv_eq_ediv_of_nonneg (by omega)]
    simp only [blockSize]
    omega
  exact
    { first := by rw [h.textEnd_eq]
      last := h.endsMapped
      full := by
        rw [h.textEnd_eq]
        exact hfull
      once := by rwa [h.holds.textOf_eq h.length h.nul]
      range := by rw [h.size, toInt64_of_range (by omega) (by omega)]
      sized := by
        rw [hgrown]
        omega
      blocks := ⟨fun _ => hshrinks, fun _ => hgrows⟩ }

/-- A name of `n` equal letters. -/
def letters (c : UInt8) (n : Nat) : Path := List.replicate n c

private theorem nameFits_letters {c : UInt8} {n : Nat} (hc : c ≠ slash ∧ c ≠ percent ∧ c ≠ 0)
    (h₀ : 0 < n) (h₁ : n < 127) : NameFits (letters c n) := by
  have hmem : ∀ d, c ≠ d → d ∉ letters c n := fun d hd hin => hd (List.eq_of_mem_replicate hin).symm
  refine ⟨fun hnil => ?_, hmem _ hc.1, hmem _ hc.2.2, ?_, ?_⟩
  · have hlength := congrArg List.length hnil
    rw [letters, List.length_replicate, List.length_nil] at hlength
    omega
  · rw [List.length_cons, letters, List.length_replicate]
    simp only [maxPathLen]
    omega
  · rw [List.mem_cons]
    exact not_or.mpr ⟨by decide, hmem _ hc.2.1⟩

/-- Three names of 126 letters and one of 113 fill the first block of the root. -/
theorem create_unlink_restores_root : ∃ s fh t u, Reached BooksOk s ∧
    sfsCreate zeroEnv (slash :: letters 100 113) 0o100644 0 s = .ok (0, fh, t) ∧
      sfsUnlink zeroEnv (slash :: letters 100 113) (sfsRelease fh t).2 = .ok (0, u) ∧
        Restored s u 0 := by
  obtain ⟨s₁, hs₁, ht₁⟩ := rootText_firstMount.create (rootFiles_firstMount BooksOk) (by decide)
    (nameFits_letters (c := letterA) (n := 126) (by decide) (by decide) (by decide)) rfl
    (by decide) (by decide +kernel) (by decide) (by decide +kernel)
  obtain ⟨s₂, hs₂, ht₂⟩ := ht₁.create hs₁ (by decide)
    (nameFits_letters (c := letterB) (n := 126) (by decide) (by decide) (by decide)) rfl
    (by decide +kernel) (by decide +kernel) (by decide +kernel) (by decide +kernel)
  obtain ⟨s, hs, ht⟩ := ht₂.create hs₂ (by decide)
    (nameFits_letters (c := letterC) (n := 126) (by decide) (by decide) (by decide)) rfl
    (by decide +kernel) (by decide +kernel) (by decide +kernel) (by decide +kernel)
  have hname : NameFits (letters 100 113) :=
    nameFits_letters (by decide) (by decide) (by decide)
  have hlen : ([] ++ [letters letterA 126] ++ [letters letterB 126] ++
      [letters letterC 126]).length < 127 := by decide
  have hentry := newEntry_root hs hlen hname
  have hnew := hs.newPath hname.ne_nil (by decide +kernel)
  have hpar := isParent_name hs hname.ne_nil hname.noSlash
  have hroot : ∀ k, Entry s k → IsParent (pathOf s k) (slash :: letters 100 113) → k = 0 :=
    fun k hk hkp => hs.tree.path_inj k 0 hk hs.tree.root.1 (hkp.unique hpar)
  have hfill : FillsBlock s 0 (newEntry s (slash :: letters 100 113)) := by
    rw [hentry]
    apply ht.fillsBlock
    · decide +kernel
    · exact not_startsIn_of_notMem (by decide) (by decide +kernel)
    · decide +kernel
    · decide +kernel
    · decide +kernel
  obtain ⟨fh, t, u, hcr, hun, hrestored⟩ := create_unlink_restores hs.reached (hs.room hlen) hnew
    (by decide +kernel) (ht.booksOk hs hlen hname)
    (fun k hk hkp => by rwa [hroot k hk hkp, ht.root]) zeroEnv zeroEnv 0
  refine ⟨s, fh, t, u, hs.reached, hcr, hun, ?_⟩
  have hrest := hrestored 0 hs.tree.root.1 hpar
  rwa [ht.root] at hrest

/-- Create `/a` and remove it again on a fresh mount: `st_size` of the root goes from 9 to
14 and to -490. -/
theorem create_unlink_shrinks :
    ¬ ∀ s path, Reached FuseOk s → Room s → HasParent s path → NewPath s path → 0 ∉ path →
      ∀ mode, FuseOk s (.create path mode) → ∀ env env' fi, ∃ fh t u,
        sfsCreate env path mode fi s = .ok (0, fh, t) ∧
          sfsUnlink env' path (sfsRelease fh t).2 = .ok (0, u) ∧
            ∀ k, Entry s k → IsParent (pathOf s k) path → Restored s u (inoOf s k) := by
  intro hclaim
  have hpar := hasParent_firstMount (c := letterA) (by decide)
  have htree := fresh_tree fresh_firstMount
  have hparent : IsParent (pathOf firstMount 0) (rootPath letterA) := by
    rw [htree.root.2.1]
    exact ⟨by decide, [letterA], by decide, by decide, rfl⟩
  obtain ⟨fh, t, u, hcr, hun, hrestored⟩ := hclaim firstMount (rootPath letterA)
    (reached_firstMount FuseOk) room_firstMount hpar newPath_firstMount (by decide) 0o100644
    (fuseOk_root firstMount letterA (by decide +kernel)).1 zeroEnv zeroEnv 0
  have hino : inoOf firstMount 0 = 0 := by decide +kernel
  have hsize := (hrestored 0 htree.root.1 hparent).size
  rw [hino, rootText_firstMount.size] at hsize
  have hrun : (do
      let created ← sfsCreate zeroEnv (rootPath letterA) 0o100644 0 firstMount
      let removed ← sfsUnlink zeroEnv (rootPath letterA) (sfsRelease created.2.1 created.2.2).2
      return (removed.2.inodeTable 0).stat.stSize : Except Stop Int) = .ok 9 := by
    rw [hcr, ok_bind]
    dsimp only
    rw [hun, ok_bind, hsize]
    rfl
  have hresult := congrArg Except.toOption hrun
  exact absurd hresult (by decide +kernel)

end Root

end Sfs
