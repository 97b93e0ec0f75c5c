import CS416.Sfs.CreateUnlink

/-!
# Directory listings

`sfs_readdir` takes the names of a directory from its first block, while
`path_lookup` takes them from `name_table`.  The two agree as long as the text
of every directory stays in its first block, no `st_size` becomes 0, and no
call deletes more of a text than the entry it removes.
-/

namespace Sfs

open CInt CString Outcome Runs

/-- What the directory of a child says about it. -/
def entryOf (s : FS) (m : Int) : Path × Int := (getName (pathOf s m), inoOf s m)

/-- The first block of the directory of entry `k` holds the header and the children `ms`. -/
structure Listed (s : FS) (k i j : Int) (ms : List Int) : Prop where
  nodup : ms.Nodup
  mem : ∀ m, m ∈ ms ↔ m ∈ children s (pathOf s k)
  text : HoldsText s (inoOf s k) (dirText i j (ms.map (entryOf s)))
  short : (dirText i j (ms.map (entryOf s))).length < 512
  size : (s.inodeTable (inoOf s k)).stat.stSize ≠ 0

/-- `sfs_readdir` of the directory of entry `k` hands out `.`, `..` and the name of each child
once, and nothing else. -/
def ListsChildren (env : Env) (s : FS) (k : Int) : Prop :=
  ∃ ms : List Int, ms.Nodup ∧ (∀ m, m ∈ ms ↔ m ∈ children s (pathOf s k)) ∧
    sfsReaddir env (pathOf s k) s =
      (0, [dot] :: [dot, dot] :: ms.map fun m => getName (pathOf s m))

/-- The listings of all directories agree with `name_table`. -/
def ListingsAgree (s : FS) : Prop :=
  ∀ k, Entry s k → IsDir s k → ∀ env, ListsChildren env s k

section Tokens

variable {i j : Int} {entries : List (Path × Int)}

/-- The last part of a path, behind that of its parent. -/
theorem IsParent.getName_eq {q p : Path} (h : IsParent q p) :
    getName p ≠ [] ∧ slash ∉ getName p ∧
      p = (if q = [slash] then [] else q) ++ slash :: getName p := by
  have hroot := h.ne_root
  obtain ⟨_, name, hne, hslash, hp⟩ := h
  have hname : getName p = name := by
    rw [getName, if_neg hroot]
    rw [hp, lastSlash, lastSlashFrom_append hslash]
    simp
  rw [hname]
  exact ⟨hne, hslash, hp⟩

private theorem entriesText_cons (e : Path × Int) (entries : List (Path × Int)) :
    entriesText (e :: entries) =
      slash :: (e.1 ++ slash :: (showInt e.2 ++ entriesText entries)) := by
  simp [entriesText, dirEntry]

/-- A token in front of the entries. -/
theorem strtok_entriesText {tok : Path} (htok : slash ∉ tok) (hne : tok ≠ []) :
    strtok slash (tok ++ entriesText entries) = tok :: strtok slash (entriesText entries) := by
  cases entries with
  | nil =>
      rw [entriesText, List.flatMap_nil, List.append_nil, strtok_last htok hne]
      rfl
  | cons e entries =>
      rw [entriesText_cons, strtok_delim]
      exact strtok_token _ htok hne

/-- `strtok` cuts the entries into names and numbers. -/
theorem everyOther_entriesText (h : ∀ e ∈ entries, e.1 ≠ [] ∧ slash ∉ e.1) :
    everyOther (strtok slash (entriesText entries)) = entries.map Prod.fst := by
  induction entries with
  | nil => rfl
  | cons e entries ih =>
      obtain ⟨hne, hslash⟩ := h e List.mem_cons_self
      rw [entriesText_cons, strtok_delim, strtok_token _ hslash hne,
        strtok_entriesText (slash_notMem_showInt e.2) (showInt_ne_nil e.2), everyOther,
        ih fun x hx => h x (List.mem_cons_of_mem e hx)]
      rfl

/-- **The names in the text of a directory.** -/
theorem everyOther_dirText (h : ∀ e ∈ entries, e.1 ≠ [] ∧ slash ∉ e.1) :
    everyOther (strtok slash (dirText i j entries)) =
      [dot] :: [dot, dot] :: entries.map Prod.fst := by
  have htext : dirText i j entries = [dot] ++ slash :: (showInt i ++ slash ::
      ([dot, dot] ++ slash :: (showInt j ++ entriesText entries))) := by
    simp [dirText, dirHeader]
  rw [htext, strtok_token _ (by decide) (by decide),
    strtok_token _ (slash_notMem_showInt i) (showInt_ne_nil i),
    strtok_token _ (by decide) (by decide),
    strtok_entriesText (slash_notMem_showInt j) (showInt_ne_nil j), everyOther, everyOther,
    everyOther_entriesText h]

private theorem nul_notMem_showInt (n : Int) : 0 ∉ showInt n := by
  intro h
  rcases mem_showInt h with h | h
  · cases h
  · exact absurd h (by decide)

private theorem nul_notMem_dirEntry {name : Path} (h : 0 ∉ name) (n : Int) :
    0 ∉ dirEntry name n := by
  simp only [dirEntry, List.cons_append, List.mem_cons, List.mem_append, not_or]
  exact ⟨by decide, h, by decide, nul_notMem_showInt n⟩

/-- The text of a directory has no NUL. -/
theorem nul_notMem_dirText (h : ∀ e ∈ entries, 0 ∉ e.1) : 0 ∉ dirText i j entries := by
  rw [dirText, List.mem_append, not_or]
  constructor
  · simp only [dirHeader, List.cons_append, List.mem_cons, List.mem_append, not_or]
    exact ⟨by decide, by decide, nul_notMem_showInt i, by decide, by decide, by decide, by decide,
      nul_notMem_showInt j⟩
  · intro hmem
    obtain ⟨e, he, hin⟩ := List.mem_flatMap.mp hmem
    exact nul_notMem_dirEntry (h e he) e.2 hin

end Tokens

section Listed

variable {s t : FS} {k i j m : Int} {ms : List Int}

/-- The names of a path are parts of it. -/
theorem nul_notMem_getName {p : Path} (h : 0 ∉ p) : 0 ∉ getName p := by
  unfold getName
  split
  · rename_i hroot
    rw [← hroot]
    exact h
  · split
    · exact List.not_mem_nil
    · intro hmem
      exact h (List.mem_of_mem_drop hmem)

/-- What is listed lies in the directory. -/
theorem Listed.child (h : Listed s k i j ms) (hm : m ∈ ms) :
    Entry s m ∧ IsParent (pathOf s k) (pathOf s m) := (h.mem m).mp hm

/-- The entries of a directory have different names and inodes. -/
theorem Listed.entries (h : Listed s k i j ms) (ht : Tree s) : Entries (ms.map (entryOf s)) := by
  constructor
  case name_ne =>
    intro e he
    obtain ⟨m, hm, rfl⟩ := List.mem_map.mp he
    exact (h.child hm).2.getName_eq.1
  case slash_notMem =>
    intro e he
    obtain ⟨m, hm, rfl⟩ := List.mem_map.mp he
    exact (h.child hm).2.getName_eq.2.1
  case names =>
    rw [List.map_map]
    refine (List.nodup_map_iff_inj_on h.nodup).mpr ?_
    intro m hm n hn hname
    have hpath : pathOf s m = pathOf s n := by
      rw [(h.child hm).2.getName_eq.2.2, (h.child hn).2.getName_eq.2.2]
      exact congrArg _ (congrArg _ hname)
    exact ht.path_inj m n (h.child hm).1 (h.child hn).1 hpath
  case inodes =>
    rw [List.map_map]
    refine (List.nodup_map_iff_inj_on h.nodup).mpr ?_
    intro m hm n hn hino
    exact ht.ino_inj m n (h.child hm).1 (h.child hn).1 hino

/-- The text of a listed directory has no NUL. -/
theorem Listed.nul (h : Listed s k i j ms) (hnul : ∀ m, Entry s m → 0 ∉ pathOf s m) :
    0 ∉ dirText i j (ms.map (entryOf s)) := by
  apply nul_notMem_dirText
  intro e he
  obtain ⟨m, hm, rfl⟩ := List.mem_map.mp he
  exact nul_notMem_getName (hnul m (h.child hm).1)

/-- **A directory that is listed in its first block is listed by `sfs_readdir`.** -/
theorem Listed.readdir (h : Listed s k i j ms) (ht : Tree s)
    (hnul : ∀ m, Entry s m → 0 ∉ pathOf s m) (hk : Entry s k) (env : Env) :
    ListsChildren env s k := by
  refine ⟨ms, h.nodup, h.mem, ?_⟩
  obtain ⟨rest, hbytes⟩ := h.text.blockBytes_eq h.short
  have hpos : ¬ k < 0 := not_lt.mpr hk.1
  have hino : (s.nameTable k).stIno = inoOf s k := rfl
  unfold sfsReaddir
  simp only [ht.lookup hk, if_neg hpos, hino, if_neg (dirBlocks_ne_zero h.size), hbytes]
  rw [List.append_assoc, List.cons_append, stringAt_append _ (h.nul hnul), everyOther_dirText,
    List.map_map]
  · rfl
  · intro e he
    have hentries := h.entries ht
    exact ⟨hentries.name_ne e he, hentries.slash_notMem e he⟩

end Listed

section Frame

variable {s t v : FS} {cwd j k i₀ j₀ : Int} {ms : List Int} {text : Path}

/-- The directory `cwd` has the same first block with the same contents, and its size. -/
structure SameStart (s t : FS) (cwd : Int) : Prop where
  first : refs t (cwd, dataSlot 0) = refs s (cwd, dataSlot 0)
  disk : 0 ≤ refs s (cwd, dataSlot 0) →
    t.disk (refs s (cwd, dataSlot 0)) = s.disk (refs s (cwd, dataSlot 0))
  size : (t.inodeTable cwd).stat.stSize = (s.inodeTable cwd).stat.stSize

/-- One call after another. -/
theorem SameStart.trans (h : SameStart s v cwd) (h' : SameStart v t cwd) : SameStart s t cwd := by
  refine ⟨h'.first.trans h.first, ?_, h'.size.trans h.size⟩
  intro h₀
  have hdisk := h'.disk (by rw [h.first]; exact h₀)
  rw [h.first] at hdisk
  exact hdisk.trans (h.disk h₀)

/-- The directory has the same first block. -/
theorem SameStart.hasBlock (h : SameStart s t cwd) {b : Int} :
    HasBlock t cwd 0 b ↔ HasBlock s cwd 0 b :=
  hasBlock_congr (fun _ hq => absurd hq List.not_mem_nil) h.first

private theorem SameStart.holdsText (h : SameStart s t cwd) (hlen : text.length < 512)
    (hs : HoldsText s cwd text) : HoldsText t cwd text := by
  intro p hp
  obtain ⟨b, hb, hread⟩ := hs p hp
  have hzero : p / 512 = 0 := by omega
  rw [hzero] at hb ⊢
  have hdisk := h.disk (by rw [hb.data]; exact hb.nonneg)
  rw [hb.data] at hdisk
  exact ⟨b, h.hasBlock.mpr hb, by rw [blockRead_congr hdisk]; exact hread⟩

/-- A call that leaves a directory and its children alone leaves its listing alone. -/
theorem Listed.frame (h : Listed s k i₀ j₀ ms) (hpath : pathOf t k = pathOf s k)
    (hino : inoOf t k = inoOf s k)
    (hms : ∀ m ∈ ms, pathOf t m = pathOf s m ∧ inoOf t m = inoOf s m)
    (hchildren : children t (pathOf s k) = children s (pathOf s k))
    (hstart : SameStart s t (inoOf s k)) : Listed t k i₀ j₀ ms := by
  have hentries : ms.map (entryOf t) = ms.map (entryOf s) := by
    refine List.map_congr_left fun m hm => ?_
    rw [entryOf, entryOf, (hms m hm).1, (hms m hm).2]
  constructor
  case nodup => exact h.nodup
  case mem =>
    intro m
    rw [hpath, hchildren]
    exact h.mem m
  case text =>
    rw [hino, hentries]
    exact hstart.holdsText h.short h.text
  case short =>
    rw [hentries]
    exact h.short
  case size =>
    rw [hino, hstart.size]
    exact h.size

/-- Extending one directory does not touch the first blocks of the others. -/
theorem Extends.sameStart {n : Nat} {blk : Block} (hbooks : Books False (allocated s) ∅ s)
    (h : Extends (allocated s) s t cwd n blk) (hcwd : cwd ∈ allocated s) (hj : j ∈ allocated s)
    (hne : j ≠ cwd) : SameStart s t j := by
  refine ⟨h.refs_ne _ hj hne, ?_, by rw [h.stat_ne j hne]⟩
  intro h₀
  refine h.disk _ h₀ (hbooks.used_of_ref (x := (j, dataSlot 0)) hj h₀) ?_
  intro sl _
  refine hbooks.ref_ne (x := (j, dataSlot 0)) (y := (cwd, sl)) hj hcwd ?_ h₀
  intro heq
  exact hne (Prod.mk.inj heq).1.symm

end Frame

/-- The entry of a new name goes, with its `NUL`, to the first block of the parent, and the size
of the parent does not become 0. -/
def EntryFits (s : FS) (path : Path) : Prop :=
  ∀ k, Entry s k → IsParent (pathOf s k) path →
    (textOf s (inoOf s k)).length + (newEntry s path).length < 512 ∧
      toInt64 ((s.inodeTable (inoOf s k)).stat.stSize + ((newEntry s path).length + 1)) ≠ 0

/-- The entry `name` of a directory is the first text in it that reads so, and none behind the
entry does. -/
def OnlyEntry (i j : Int) (before : List (Path × Int)) (name : Path) (ino : Int)
    (after : List (Path × Int)) : Prop :=
  ¬ StartsIn (dirEntry name ino) (dirText i j before) (dirEntry name ino ++ entriesText after) ∧
    ¬ dirEntry name ino <:+: entriesText after

/-- `sfs_unlink` deletes the entry of `path` from the parent, which it reads, and nothing else,
and the size of the parent does not become 0. -/
def EntryAlone (s : FS) (path : Path) : Prop :=
  ∀ m k, Entry s m → pathOf s m = path → Entry s k → IsParent (pathOf s k) path →
    (∀ i j before after, Entries (before ++ (getName path, inoOf s m) :: after) →
      textOf s (inoOf s k) = dirText i j (before ++ (getName path, inoOf s m) :: after) →
        OnlyEntry i j before (getName path) (inoOf s m) after) ∧
      toInt (s.inodeTable (inoOf s k)).stat.stSize ≠ 0 ∧
      toInt64 ((s.inodeTable (inoOf s k)).stat.stSize - (512 - ((textOf s (inoOf s k)).length -
        (dirEntry (getName path) (inoOf s m)).length : Int))) ≠ 0

/-- The condition on a call that changes names: FUSE can make it, and the parent's text stays
in its first block and loses no more than the entry. -/
def ListOk (s : FS) : Call → Prop
  | .create path mode => FuseOk s (.create path mode) ∧ 0 ∉ path ∧ EntryFits s path
  | .mkdir path mode => FuseOk s (.mkdir path mode) ∧ 0 ∉ path ∧ EntryFits s path
  | .unlink path => FuseOk s (.unlink path) ∧ EntryAlone s path
  | .rmdir path => FuseOk s (.rmdir path) ∧ EntryAlone s path
  | _ => False

/-- The call is one of the four that change names, as FUSE makes them. -/
def NamesOk (s : FS) : Call → Prop
  | .create path mode => FuseOk s (.create path mode) ∧ 0 ∉ path
  | .mkdir path mode => FuseOk s (.mkdir path mode) ∧ 0 ∉ path
  | .unlink path => FuseOk s (.unlink path)
  | .rmdir path => FuseOk s (.rmdir path)
  | _ => False

/-- The call `c` succeeds, and leaves the state `t`. -/
def Succeeds (s : FS) (c : Call) (t : FS) : Prop := ∃ env, exec env c s = .ok (0, t)

/-- States reached from a fresh mount by successful calls that satisfy `ok` when made. -/
def Named (ok : FS → Call → Prop) : FS → Prop :=
  Reach Fresh fun s c t => ok s c ∧ Succeeds s c t

/-- What holds along the runs that meet the condition. -/
structure Listing (s : FS) : Prop where
  tree : Tree s
  blocks : Blocks False anySize s
  nul : ∀ m, Entry s m → 0 ∉ pathOf s m
  dirs : ∀ k, Entry s k → IsDir s k → ∃ i j ms, Listed s k i j ms

section Enter

variable {s t v : FS} {env : Env} {m i k i₀ j₀ : Int} {ms : List Int} {path : Path}

private theorem dirText_snoc (i j : Int) (entries : List (Path × Int)) (e : Path × Int) :
    dirText i j (entries ++ [e]) = dirText i j entries ++ dirEntry e.1 e.2 := by
  simp [dirText, entriesText]

/-- A text in the first block of `cwd`, seen by the calls. -/
theorem HoldsText.dirFits {cwd size : Int} {text : Path} (h : HoldsText v cwd text)
    (hlen : text.length < 512) (hnul : 0 ∉ text) : DirFits False v cwd size := by
  have hend := h.textEnd_eq hlen hnul
  constructor
  case lt =>
    rw [hend]
    exact (by decide : Int.toNat 0 < 1110)
  case mapped =>
    intro j hj
    rw [hend] at hj
    obtain rfl : j = 0 := Nat.le_zero.mp hj
    intro p hp
    exact absurd hp List.not_mem_nil
  case grows =>
    intro _
    rw [hend]
    exact ⟨(by decide : Int.toNat 0 + 1 < 1110), fun hfalse => hfalse.elim⟩

/-- The block in which the text ends is there. -/
theorem HoldsText.endsMapped {cwd : Int} {text : Path} (h : HoldsText v cwd text)
    (hlen : text.length < 512) (hnul : 0 ∉ text) : EndsMapped v cwd := by
  obtain ⟨b, hb, _⟩ := h 0 (Nat.zero_le _)
  unfold EndsMapped
  rw [h.textEnd_eq hlen hnul]
  intro m hm
  obtain rfl := Nat.le_zero.mp hm
  exact ⟨b, hb⟩

/-- **The directory that takes a name** lists it behind the others. -/
theorem Listed.enter (h : Listed s k i₀ j₀ ms) (hnul : ∀ m, Entry s m → 0 ∉ pathOf s m)
    (hv : Blocks False anySize v) (hcwd : inoOf s k ∈ allocated v)
    (hstart : SameStart s v (inoOf s k)) (hi : i = (getInode s).1)
    (hfits : EntryFits s path) (hk : Entry s k) (hins : Tree.Inserts s t m i k path)
    (happ : appendEntry env (inoOf s k) (dirEntry (getName path) i) v = .ok t) :
    Listed t k i₀ j₀ (ms ++ [m]) := by
  have hkp := hins.parent.2.2
  have htext := hstart.holdsText h.short h.text
  have hnul' := h.nul hnul
  obtain ⟨hroom, hsize⟩ := hfits k hk hkp
  rw [h.text.textOf_eq h.short hnul', newEntry, ← hi] at hroom
  rw [newEntry, ← hi] at hsize
  have hm : m ∉ ms := fun hmem =>
    absurd (h.child hmem).1.2.2 (by rw [hins.slot.2.2]; decide)
  obtain ⟨_, hpathk, hinok⟩ := Tree.inserts_old hins hk
  have hpathm : pathOf t m = path ∧ inoOf t m = i := by
    unfold pathOf inoOf
    rw [hins.names, Function.update_self]
    exact ⟨rfl, rfl⟩
  have hentries : (ms ++ [m]).map (entryOf t) = ms.map (entryOf s) ++ [(getName path, i)] := by
    have hnew : entryOf t m = (getName path, i) := by rw [entryOf, hpathm.1, hpathm.2]
    have hold : ms.map (entryOf t) = ms.map (entryOf s) := by
      refine List.map_congr_left fun n hn => ?_
      obtain ⟨_, hpath, hino⟩ := Tree.inserts_old hins (h.child hn).1
      rw [entryOf, entryOf, hpath, hino]
    rw [List.map_append, List.map_singleton, hnew, hold]
  have hfit : DirFits False v (inoOf s k) ((dirEntry (getName path) i).length + 1) :=
    htext.dirFits h.short hnul'
  have happended := (appendEntry_text env hv.books hcwd hfit).post t happ
  constructor
  case nodup =>
    rw [← List.concat_eq_append]
    exact h.nodup.concat hm
  case mem =>
    intro n
    rw [hpathk, Tree.inserts_children_parent hins hkp, Set.mem_insert_iff, List.mem_append,
      List.mem_singleton, h.mem, or_comm]
  case text =>
    have hholds := (happended.holds_iff (textEnd_pos hfit.lt) (by omega)).mpr
      ⟨htext.endsMapped h.short hnul', Or.inl (by rw [htext.textEnd_eq h.short hnul']; exact hroom)⟩
    rw [htext.textOf_eq h.short hnul'] at hholds
    rw [hinok, hentries, dirText_snoc]
    exact hholds
  case short =>
    rw [hentries, dirText_snoc, List.length_append]
    exact hroom
  case size =>
    rw [hinok, appendEntry_size env _ _ v t happ, hstart.size]
    exact hsize

private theorem length_dirHeader {i j : Int} (hi : 0 ≤ i ∧ i < maxNodes)
    (hj : 0 ≤ j ∧ j < maxNodes) :
    (dirHeader i j).length < 512 := by
  have hi' := length_showInt hi.1 hi.2
  have hj' := length_showInt hj.1 hj.2
  simp only [dirHeader, List.cons_append, List.length_cons, List.length_append]
  omega

/-- The new inode is none of those of the entries. -/
theorem Entered.allocated (ht : Tree s) (he : Entered s v m i k path) {n : Int} (hn : Entry s n) :
    inoOf s n ≠ i ∧ inoOf s n ∈ Sfs.allocated v := by
  have hA := ht.dir_allocated hn
  have hne : inoOf s n ≠ i := by
    intro heq
    apply not_mem_allocated he.node.2.2
    rw [← heq]
    exact hA
  refine ⟨hne, hA.1, hA.2.1, ?_⟩
  rw [he.avail_ne _ hne]
  exact hA.2.2

/-- **Entering a name keeps the listings.**  In `v` the new inode is there, with its header if it
is a directory, and the directories are as they were. -/
theorem Listing.enter (hs : Listing s) (he : Entered s v m i k path) (hv : Blocks False anySize v)
    (hold : ∀ n, Entry s n → SameStart s v (inoOf s n))
    (hnew : isDirMode (v.inodeTable i).stat.stMode = true →
      HoldsText v i (dirHeader i (inoOf s k)) ∧ (v.inodeTable i).stat.stSize ≠ 0)
    (hi : i = (getInode s).1) (hnul : 0 ∉ path) (hfits : EntryFits s path)
    (happ : appendEntry env (inoOf s k) (dirEntry (getName path) i) v = .ok t)
    (hins : Tree.Inserts s t m i k path) (ht : Tree t) (hb : Blocks False anySize t) :
    Listing t := by
  obtain ⟨hk, hkd, hkp⟩ := hins.parent
  obtain ⟨i₀, j₀, ms, hlk⟩ := hs.dirs k hk hkd
  have hcwd := (he.allocated hs.tree hk).2
  have htext := (hold k hk).holdsText hlk.short hlk.text
  have hfit : DirFits False v (inoOf s k) ((dirEntry (getName path) i).length + 1) :=
    htext.dirFits hlk.short (hlk.nul hs.nul)
  obtain ⟨_, hext⟩ := (appendEntry_spec env hv.books hcwd hfit).post t happ
  have hpathm : pathOf t m = path ∧ inoOf t m = i := by
    unfold pathOf inoOf
    rw [hins.names, Function.update_self]
    exact ⟨rfl, rfl⟩
  refine ⟨ht, hb, ?_, ?_⟩
  · intro n hn
    rcases (Tree.inserts_entry hins n).mp hn with rfl | hn
    · rw [hpathm.1]
      exact hnul
    · rw [(Tree.inserts_old hins hn).2.1]
      exact hs.nul n hn
  intro n hn hnd
  rcases (Tree.inserts_entry hins n).mp hn with rfl | hn
  · -- the new name, if it is a directory
    have hik := (he.allocated hs.tree hk).1
    have hstart := hext.sameStart hv.books hcwd ⟨he.node.1, he.node.2.1, he.avail⟩ hik.symm
    have hmode : isDirMode (v.inodeTable i).stat.stMode = true := by
      rw [← hext.stat_ne i hik.symm, ← hpathm.2]
      exact hnd
    obtain ⟨htext, hsize⟩ := hnew hmode
    have hshort := length_dirHeader ⟨he.node.1, he.node.2.1⟩ (hs.tree.ino_range k hk)
    have hempty : dirText i (inoOf s k) [] = dirHeader i (inoOf s k) := List.append_nil _
    refine ⟨i, inoOf s k, [], List.nodup_nil, ?_, ?_, ?_, ?_⟩
    · intro c
      rw [hpathm.1, Tree.inserts_children_other hins fun hself => hself.ne rfl,
        Tree.no_children hs.tree hins.fresh]
      exact iff_of_false List.not_mem_nil (Set.notMem_empty c)
    · rw [List.map_nil, hempty, hpathm.2]
      exact hstart.holdsText hshort htext
    · rw [List.map_nil, hempty]
      exact hshort
    · rw [hpathm.2, hstart.size]
      exact hsize
  · by_cases hnk : n = k
    · subst hnk
      exact ⟨i₀, j₀, _, hlk.enter hs.nul hv hcwd (hold n hk) hi hfits hk hins happ⟩
    · obtain ⟨_, hpath, hino⟩ := Tree.inserts_old hins hn
      obtain ⟨i₁, j₁, ms₁, hln⟩ := hs.dirs n hn ((Tree.inserts_isDir hs.tree hins hn).mp hnd)
      have hother : inoOf s n ≠ inoOf s k := fun heq => hnk (hs.tree.ino_inj n k hn hk heq)
      refine ⟨i₁, j₁, ms₁, hln.frame hpath hino ?_ ?_ ?_⟩
      · intro c hc
        exact (Tree.inserts_old hins (hln.child hc).1).2
      · apply Tree.inserts_children_other hins
        intro hparent
        exact hnk (hs.tree.path_inj n k hn hk (hparent.unique hkp))
      · exact (hold n hn).trans
          (hext.sameStart hv.books hcwd (he.allocated hs.tree hn).2 hother)

end Enter

section Erase

variable {s t u : FS} {env : Env} {cwd i j m k i₀ j₀ b : Int} {before after : List Int}
  {text : Path}

/-- `text` has become the text of `cwd`, in its first block, and the inode `i` has been given
up. -/
structure Deletes (s t : FS) (cwd i : Int) (text : Path) : Prop where
  disk : t.disk = blockWrite s.disk (refs s (cwd, dataSlot 0)) (textBlock text)
  first : refs t (cwd, dataSlot 0) = refs s (cwd, dataSlot 0)
  size : (t.inodeTable cwd).stat.stSize ≠ 0
  node_ne : ∀ j, j ≠ cwd → j ≠ i → t.inodeTable j = s.inodeTable j

/-- The directory holds the text that is left. -/
theorem Deletes.holdsText (h : Deletes s t cwd i text) (hb : HasBlock s cwd 0 b)
    (hlt : b < numBlocks) (hlen : text.length < 512) : HoldsText t cwd text := by
  have hblock : HasBlock t cwd 0 b :=
    ⟨⟨fun _ hq => absurd hq List.not_mem_nil, h.first.trans hb.data⟩, hb.served, hb.nonneg⟩
  apply holdsText_of_textBlock hblock _ hlen
  rw [h.disk, hb.data]
  exact blockRead_write_self hlt

/-- Deleting an entry does not touch the first blocks of the other directories. -/
theorem Deletes.sameStart (h : Deletes s t cwd i text) (hbooks : Books False (allocated s) ∅ s)
    (hcwd : cwd ∈ allocated s) (hj : j ∈ allocated s) (hne : j ≠ cwd) (hji : j ≠ i) :
    SameStart s t j := by
  have hnode := h.node_ne j hne hji
  refine ⟨congrArg (fun nd => nd.blocks 0) hnode, ?_, by rw [hnode]⟩
  intro h₀
  have hother := hbooks.ref_ne (x := (j, dataSlot 0)) (y := (cwd, dataSlot 0)) hj hcwd
    (fun heq => hne (Prod.mk.inj heq).1.symm) h₀
  rw [h.disk, ← FS.write_disk, write_disk_ne hother.symm]

/-- **What deleting the entry of a child does**, when nothing else is deleted. -/
theorem Listed.deletes (h : Listed s k i₀ j₀ (before ++ m :: after)) (ht : Tree s)
    (hnul : ∀ n, Entry s n → 0 ∉ pathOf s n) (hk : Entry s k) (hne : inoOf s k ≠ inoOf s m)
    (halone : EntryAlone s (pathOf s m))
    (hu : removeEntry env (inoOf s k) (dirEntry (getName (pathOf s m)) (inoOf s m))
      { s with cwdInode := inoOf s k } = .ok u) :
    Deletes s (freeMapping m (freeInode (inoOf s m) u)) (inoOf s k) (inoOf s m)
      (dirText i₀ j₀ ((before ++ after).map (entryOf s))) := by
  obtain ⟨hm, hkp⟩ := h.child (List.mem_append_right before List.mem_cons_self)
  obtain ⟨hone, hread, hsize⟩ := halone m k hm rfl hk hkp
  have hshort := h.short
  have hnul' := h.nul hnul
  have hstring : dirString env { s with cwdInode := inoOf s k } (inoOf s k) 1 =
      dirText i₀ j₀ ((before ++ m :: after).map (entryOf s)) := h.text.dirString_eq hshort hnul'
  have hmap : (before ++ m :: after).map (entryOf s) =
      before.map (entryOf s) ++ (getName (pathOf s m), inoOf s m) :: after.map (entryOf s) := by
    rw [List.map_append, List.map_cons]
    rfl
  have hentries := h.entries ht
  rw [hmap] at hentries
  obtain ⟨hfirst, hlast⟩ := hone i₀ j₀ _ _ hentries
    (by rw [h.text.textOf_eq hshort hnul', hmap])
  have hsplit : dirText i₀ j₀ ((before ++ m :: after).map (entryOf s)) =
      dirText i₀ j₀ (before.map (entryOf s)) ++ (dirEntry (getName (pathOf s m)) (inoOf s m) ++
        entriesText (after.map (entryOf s))) := by
    rw [hmap]
    exact dirText_split _ _ _ _ _ _
  have hwithout : dirText i₀ j₀ ((before ++ after).map (entryOf s)) =
      dirText i₀ j₀ (before.map (entryOf s)) ++ entriesText (after.map (entryOf s)) := by
    rw [List.map_append]
    exact dirText_without _ _ _ _
  rw [h.text.textOf_eq hshort hnul', hsplit] at hsize
  rw [hsplit, List.length_append, List.length_append] at hshort
  have hdelete := removeSubstring_here (dirEntry_ne_nil _ _) hfirst hlast
  rw [← hsplit, ← hwithout, ← hstring] at hdelete
  have hlen : (dirText i₀ j₀ ((before ++ after).map (entryOf s))).length ≤ 512 := by
    rw [hwithout, List.length_append]
    omega
  obtain ⟨u', hu', hsize', hdisk, hother, hblocks⟩ :=
    removeEntry_eq (t := { s with cwdInode := inoOf s k }) rfl hread hdelete hlen
  obtain rfl : u' = u := Except.ok.inj (hu'.symm.trans hu)
  have hnode : ∀ j, j ≠ inoOf s m →
      (freeMapping m (freeInode (inoOf s m) u')).inodeTable j = u'.inodeTable j :=
    (freeInode_names (inoOf s m) u').2.2
  have hfirst : (u'.inodeTable (inoOf s k)).blocks 0 = (s.inodeTable (inoOf s k)).blocks 0 := by
    rcases hblocks with ⟨_, _, heq⟩ | ⟨_, _, heq⟩
    · rw [heq]
      rfl
    · rw [heq]
  constructor
  case disk =>
    have hdisk' : (freeMapping m (freeInode (inoOf s m) u')).disk = u'.disk :=
      (freeInode_frame (inoOf s m) u').1
    rw [hdisk', hdisk]
    rfl
  case first =>
    have heq := hnode _ hne
    exact (congrArg (fun nd => nd.blocks 0) heq).trans hfirst
  case size =>
    have hcut : ((dirText i₀ j₀ (before.map (entryOf s)) ++
        (dirEntry (getName (pathOf s m)) (inoOf s m) ++
          entriesText (after.map (entryOf s)))).length : Int) -
          (dirEntry (getName (pathOf s m)) (inoOf s m)).length =
        (dirText i₀ j₀ ((before ++ after).map (entryOf s))).length := by
      rw [hwithout, List.length_append, List.length_append, List.length_append]
      omega
    rw [hcut] at hsize
    rw [hnode _ hne, hsize']
    exact hsize
  case node_ne =>
    intro j hj hji
    rw [hnode j hji, hother j hj]

/-- **The directory that loses a name** lists the others. -/
theorem Listed.erase (h : Listed s k i₀ j₀ (before ++ m :: after)) (ht : Tree s)
    (hbooks : Books False (allocated s) ∅ s) (her : Tree.Erases s t m k)
    (hdel : Deletes s t (inoOf s k) (inoOf s m)
      (dirText i₀ j₀ ((before ++ after).map (entryOf s)))) :
    Listed t k i₀ j₀ (before ++ after) := by
  have hkm : k ≠ m := fun heq => her.parent.2.2.ne (by rw [heq])
  obtain ⟨hpathk, hinok⟩ := Tree.erases_old her hkm
  have hnodup := h.nodup
  rw [List.nodup_middle, List.nodup_cons] at hnodup
  obtain ⟨hnot, hnodup⟩ := hnodup
  have hentries : (before ++ after).map (entryOf t) = (before ++ after).map (entryOf s) := by
    refine List.map_congr_left fun n hn => ?_
    have hnm : n ≠ m := ne_of_mem_of_not_mem hn hnot
    obtain ⟨hpath, hino⟩ := Tree.erases_old her hnm
    rw [entryOf, entryOf, hpath, hino]
  have hshort : (dirText i₀ j₀ ((before ++ after).map (entryOf s))).length < 512 := by
    have hlong := h.short
    rw [List.map_append, List.map_cons, entryOf, dirText_split, List.length_append,
      List.length_append] at hlong
    rw [List.map_append, dirText_without, List.length_append]
    omega
  constructor
  case nodup => exact hnodup
  case mem =>
    intro n
    rw [hpathk, Tree.erases_children her, Set.mem_sdiff, ← h.mem, Set.mem_singleton_iff]
    constructor
    · intro hn
      exact ⟨(List.perm_middle.mem_iff).mpr (List.mem_cons_of_mem m hn),
        ne_of_mem_of_not_mem hn hnot⟩
    · intro hn
      exact (List.mem_cons.mp (List.perm_middle.mem_iff.mp hn.1)).resolve_left hn.2
  case text =>
    obtain ⟨b, hb, _⟩ := h.text 0 (Nat.zero_le _)
    rw [hinok, hentries]
    exact hdel.holdsText hb (hb.lt hbooks (ht.dir_allocated her.parent.1)) hshort
  case short =>
    rw [hentries]
    exact hshort
  case size =>
    rw [hinok]
    exact hdel.size

/-- **Giving a name up keeps the listings.** -/
theorem Listing.erase (hs : Listing s) (halone : EntryAlone s (pathOf s m))
    (hu : removeEntry env (inoOf s k) (dirEntry (getName (pathOf s m)) (inoOf s m))
      { s with cwdInode := inoOf s k } = .ok u)
    (her : Tree.Erases s (freeMapping m (freeInode (inoOf s m) u)) m k)
    (hb : Blocks False anySize (freeMapping m (freeInode (inoOf s m) u))) :
    Listing (freeMapping m (freeInode (inoOf s m) u)) := by
  obtain ⟨hk, hkd, hkp⟩ := her.parent
  obtain ⟨i₀, j₀, ms, hlk⟩ := hs.dirs k hk hkd
  obtain ⟨before, after, rfl⟩ := List.append_of_mem ((hlk.mem m).mpr ⟨her.entry, hkp⟩)
  have hkm : k ≠ m := fun heq => hkp.ne (by rw [heq])
  have hdel := hlk.deletes hs.tree hs.nul hk (Tree.erases_ino_ne hs.tree her hk hkm) halone hu
  generalize freeMapping m (freeInode (inoOf s m) u) = t at her hb hdel ⊢
  refine ⟨Tree.erase hs.tree her, hb, ?_, ?_⟩
  · intro n hn
    obtain ⟨hnm, hn'⟩ := (Tree.erases_entry her n).mp hn
    rw [(Tree.erases_old her hnm).1]
    exact hs.nul n hn'
  intro n hn hnd
  obtain ⟨hnm, hn'⟩ := (Tree.erases_entry her n).mp hn
  by_cases hnk : n = k
  · subst hnk
    exact ⟨i₀, j₀, _, hlk.erase hs.tree hs.blocks.books her hdel⟩
  · obtain ⟨hpath, hino⟩ := Tree.erases_old her hnm
    obtain ⟨i₁, j₁, ms₁, hln⟩ := hs.dirs n hn' ((Tree.erases_isDir hs.tree her hn' hnm).mp hnd)
    have hother : inoOf s n ≠ inoOf s k := fun heq => hnk (hs.tree.ino_inj n k hn' hk heq)
    -- the entry that goes is no child of another directory
    have hnot : m ∉ children s (pathOf s n) := by
      intro hmem
      exact hnk (hs.tree.path_inj n k hn' hk (hmem.2.unique hkp))
    refine ⟨i₁, j₁, ms₁, hln.frame hpath hino ?_ ?_ ?_⟩
    · intro c hc
      exact Tree.erases_old her fun hcm => hnot (hcm ▸ (hln.mem c).mp hc)
    · rw [Tree.erases_children her, Set.sdiff_singleton_eq_self hnot]
    · exact hdel.sameStart hs.blocks.books (hs.tree.dir_allocated hk) (hs.tree.dir_allocated hn')
        hother (Tree.erases_ino_ne hs.tree her hn' hnm)

end Erase

section Calls

variable {s t u : FS} {env : Env} {c : Call} {path : Path} {mode : Nat} {fi fh m k : Int}

/-- The directories of a listed state can take the block of an entry. -/
theorem Listing.blockOk (hs : Listing s) (hpar : HasParent s path) {k : Int} (hk : Entry s k)
    (hkp : IsParent (pathOf s k) path) {size : Int} : DirFits False s (inoOf s k) size := by
  obtain ⟨k', hk', hkd', hkp'⟩ := hpar
  obtain rfl := hs.tree.path_inj k k' hk hk' (hkp.unique hkp')
  obtain ⟨i, j, ms, hlk⟩ := hs.dirs k hk hkd'
  exact hlk.text.dirFits hlk.short (hlk.nul hs.nul)

/-- **`sfs_create` keeps the listings.** -/
theorem sfsCreate_listing (hs : Listing s) (hok : ListOk s (.create path mode))
    (hcr : sfsCreate env path mode fi s = .ok (0, fh, t)) : Listing t := by
  obtain ⟨hfuse, hnul, hfits⟩ := hok
  have hb := (sfsCreate_blocks hs.blocks hs.tree hfuse
    (fun _ _ k hk hkp => hs.blockOk hfuse.2.2.1 hk hkp) _ hcr).1
  rcases sfsCreate_cases hs.tree hfuse _ hcr with ⟨hr, _⟩ | ⟨_, _, _, _, _, hr, _⟩ |
    ⟨u, m, i, k, fh', hp, hn, he, hm, hi, _, happ⟩
  · cases hr
  · cases hr
  obtain ⟨hu, hrefs, _⟩ := hs.blocks.newFile hp hn
  have hv := hu.same (t := enterName m i path
    (u.setName m { u.nameTable m with avail := ALLOCD })) rfl rfl rfl
  have hins := hs.tree.inserts he (he.cwd ▸ (appendEntry_relinks env (inoOf s k) _ _).post _ happ)
  refine hs.enter he hv ?_ ?_ hi hnul hfits happ hins (Tree.insert hs.tree hins) hb
  · intro n hn'
    obtain ⟨hne, _⟩ := he.allocated hs.tree hn'
    exact ⟨hrefs (inoOf s n, dataSlot 0) hne, fun _ => congrFun hn.disk _, by rw [he.stat_ne _ hne]⟩
  · intro hdir
    have hreg := not_isDir_of_isReg hn.mode
    exact absurd (hdir.symm.trans hreg) (by decide)

/-- **`sfs_mkdir` keeps the listings.** -/
theorem sfsMkdir_listing (hs : Listing s) (hok : ListOk s (.mkdir path mode))
    (hmk : sfsMkdir env path mode s = .ok (0, t)) : Listing t := by
  obtain ⟨hfuse, hnul, hfits⟩ := hok
  have hb := (sfsMkdir_blocks hs.blocks hs.tree hfuse
    (fun _ _ k hk hkp => hs.blockOk hfuse.2.1 hk hkp) _ hmk).1
  rcases sfsMkdir_cases hs.tree hfuse _ hmk with ⟨hr, _⟩ | ⟨_, _, _, _, _, hr, _⟩ |
    ⟨u, m, i, k, b, hp, hn, he, hm, hi, _, happ⟩
  · cases hr
  · cases hr
  obtain ⟨hu, hrefs, hfirst⟩ := hs.blocks.newDir hp hn
  generalize hw : enterName m i path
    (u.setName m { u.nameTable m with avail := ALLOCD }) = w at he happ
  have hwnode : w.inodeTable = u.inodeTable := by rw [← hw]; rfl
  have hwdisk : w.disk = u.disk := by rw [← hw]; rfl
  have hwB := hu.same hwnode (by rw [← hw]; rfl) hwdisk
  have hwrefs : ∀ x, refs w x = refs u x := fun x => by rw [refs, refs, hwnode, hwdisk]
  have hiw : i ∈ allocated w := ⟨hp.range.1, hp.range.2, he.avail⟩
  -- the header goes to the first block of the new directory
  have hb' : refs w (i, dataSlot 0) = b := (hwrefs _).trans hfirst
  have hv := hwB.writeData hiw (isIndex_dataSlot 0) (textBlock (dirHeader i (inoOf s k)))
  rw [hb'] at hv
  have he' := he.write b (textBlock (dirHeader i (inoOf s k)))
  have hrel := (appendEntry_relinks env (inoOf s k) _ _).post _ happ
  have hins := hs.tree.inserts he' (by rw [he'.cwd]; exact hrel)
  refine hs.enter he' hv ?_ ?_ hi hnul hfits happ hins (Tree.insert hs.tree hins) hb
  · intro n hn'
    obtain ⟨hne, _⟩ := he.allocated hs.tree hn'
    have hA := hs.tree.dir_allocated hn'
    have hblocks : ((w.write b (textBlock (dirHeader i (inoOf s k)))).inodeTable
        (inoOf s n)).blocks = (s.inodeTable (inoOf s n)).blocks := by
      rw [FS.write_inodeTable, hwnode, hn.blocks_ne _ hne]
    refine ⟨congrFun hblocks 0, ?_, by rw [FS.write_inodeTable, he.stat_ne _ hne]⟩
    intro h₀
    have hpb : refs s (inoOf s n, dataSlot 0) ≠ b := by
      intro heq
      have hused := hs.blocks.books.used_of_ref (x := (inoOf s n, dataSlot 0)) hA h₀
      rw [heq] at hused
      exact hused hn.block.2.2
    rw [write_disk_ne hpb, hwdisk, hn.disk]
  · intro _
    have hsize : (w.inodeTable i).stat.stSize = 512 := by rw [hwnode, hn.size]
    refine ⟨?_, by rw [FS.write_inodeTable, hsize]; decide⟩
    have hblock : HasBlock (w.write b (textBlock (dirHeader i (inoOf s k)))) i 0 b := by
      refine ⟨⟨fun q hq => absurd hq List.not_mem_nil, ?_⟩, by decide, hn.block.1⟩
      have hzero := hn.blocks 0 (le_refl 0) (by decide)
      rw [← hwnode] at hzero
      exact hzero
    have hlen := length_dirHeader hp.range (hs.tree.ino_range k he.parent.1)
    exact holdsText_of_textBlock hblock (blockRead_write_self hn.block.2.1) hlen

/-- **`sfs_unlink` keeps the listings.** -/
theorem sfsUnlink_listing (hs : Listing s) (hok : ListOk s (.unlink path)) :
    Post (sfsUnlink env path s) fun r => Listing r.2 := by
  obtain ⟨hfuse, halone⟩ := hok
  intro r hr
  have hb := (sfsUnlink_blocks hs.blocks hs.tree hfuse (fun hf => hf.elim)
    (fun hf => hf.elim) r hr).1
  obtain ⟨m, k, u, hm, rfl, hreg, hpar, _, hu, hru⟩ := sfsUnlink_cases hs.tree hfuse r hr
  have hrel := removeEntry_relinks env _ _ _ u hu
  rw [hru] at hb ⊢
  exact hs.erase halone hu (hs.tree.erases hm hpar (hs.tree.leaf_of_isReg hm hreg)
    ⟨hrel.names, hrel.opens, hrel.avail, hrel.mode, hrel.nlink, hrel.nlink_ne, hrel.system⟩) hb

/-- **`sfs_rmdir` keeps the listings.** -/
theorem sfsRmdir_listing (hs : Listing s) (hok : ListOk s (.rmdir path)) :
    Post (sfsRmdir env path s) fun r => r.1 = 0 → Listing r.2 := by
  obtain ⟨hfuse, halone⟩ := hok
  intro r hr hzero
  have hb := (sfsRmdir_blocks hs.blocks hs.tree hfuse (fun hf => hf.elim)
    (fun hf => hf.elim) r hr).1
  obtain ⟨m, k, hm, rfl, hd, hpar, ⟨_, hfail, _⟩ | ⟨u, hle, _, hu, hru⟩⟩ :=
    sfsRmdir_cases hs.tree hfuse r hr
  · rw [hfail] at hzero
    exact absurd hzero (by decide)
  have hleaf : children s (pathOf s m) = ∅ := by
    rw [Set.eq_empty_iff_forall_notMem]
    intro c hc
    exact hle (hs.tree.nlink_of_child hm hd hc.1 hc.2)
  have hrel := removeEntry_relinks env _ _ _ u hu
  rw [hru] at hb ⊢
  exact hs.erase halone hu (hs.tree.erases hm hpar hleaf
    ⟨hrel.names, hrel.opens, hrel.avail, hrel.mode, hrel.nlink, hrel.nlink_ne, hrel.system⟩) hb

/-- **One call** keeps the listings. -/
theorem Listing.exec (hs : Listing s) (hok : ListOk s c) (hsucc : Succeeds s c t) :
    Listing t := by
  obtain ⟨env, hexec⟩ := hsucc
  cases c with
  | create path mode =>
      obtain ⟨⟨r, fh, u⟩, hu, heq⟩ := bind_ok.mp hexec
      cases heq
      exact sfsCreate_listing hs hok hu
  | mkdir path mode => exact sfsMkdir_listing hs hok hexec
  | unlink path => exact sfsUnlink_listing hs hok _ hexec
  | rmdir path => exact sfsRmdir_listing hs hok _ hexec rfl
  | openFile path => exact hok.elim
  | write fh buf size offset => exact hok.elim
  | read fh size offset => exact hok.elim
  | release fh => exact hok.elim

end Calls

section Runs

variable {s : FS}

/-- The root after a first mount lists nothing. -/
theorem listing_fresh (h : Fresh s) : Listing s := by
  have hfresh := fresh_state h
  have htree := fresh_tree h
  have hroot := rootText_fresh h
  have hentry : ∀ m, Entry s m → m = 0 := fun m => (hfresh.entry_iff m).mp
  have hempty : dirText 0 0 [] = dirHeader 0 0 := List.append_nil _
  refine ⟨htree, hfresh.blocks, ?_, ?_⟩
  · intro m hm
    rw [hentry m hm, htree.root.2.1]
    decide
  · intro k hk _
    obtain rfl := hentry k hk
    refine ⟨0, 0, [], List.nodup_nil, ?_, ?_, ?_, ?_⟩
    · intro m
      refine iff_of_false List.not_mem_nil fun hm => ?_
      have hparent := hm.2
      rw [hentry m hm.1] at hparent
      exact hparent.ne rfl
    · rw [List.map_nil, hempty, hroot.root]
      exact hroot.holds
    · rw [List.map_nil, hempty]
      exact hroot.length
    · rw [hroot.root, hroot.size]
      decide

private theorem named_listing (h : Named ListOk s) : Listing s :=
  h.invariant (fun _ => listing_fresh) fun _ _ _ _ hs hstep => hs.exec hstep.1 hstep.2

/-- **The listings agree with `name_table`** in every state that successful calls reach while
entries stay in the first blocks and are deleted alone. -/
theorem listings_agree (h : Named ListOk s) : ListingsAgree s := by
  have hs := named_listing h
  intro k hk hd env
  obtain ⟨i, j, ms, hlisted⟩ := hs.dirs k hk hd
  exact hlisted.readdir hs.tree hs.nul hk env

private theorem named_after {ok : FS → Call → Prop} {c : Call} (h : Named ok s) (hok : ok s c)
    (hres : (exec zeroEnv c s).toOption.map Prod.fst = some 0) :
    Named ok (after zeroEnv c s) := by
  refine h.next ⟨hok, zeroEnv, ?_⟩
  unfold after
  cases hexec : exec zeroEnv c s with
  | ok r =>
      rw [hexec] at hres
      exact congrArg Except.ok (Prod.ext (Option.some.inj hres) rfl)
  | error e =>
      rw [hexec] at hres
      cases hres

/-- The root is the parent of the names in it. -/
theorem root_of_isParent (ht : Tree s) {name : Path} (hname : name ≠ [] ∧ slash ∉ name) {k : Int}
    (hk : Entry s k) (hkp : IsParent (pathOf s k) (slash :: name)) : k = 0 := by
  refine ht.path_inj k 0 hk ht.root.1 (hkp.unique ?_)
  rw [ht.root.2.1]
  exact ⟨by simp, name, hname.1, hname.2, rfl⟩

/-- A pattern that occurs at the place `n` only, and stands there. -/
theorem only_of_place {pat text left right : Path} {n : Nat} (hne : pat ≠ [])
    (hplace : ∀ p ≤ text.length, pat <+: text.drop p → p = n)
    (htext : text = left ++ (pat ++ right)) :
    ¬ StartsIn pat left (pat ++ right) ∧ ¬ pat <:+: right := by
  have hat : ∀ a c, text = a ++ (pat ++ c) → a.length = n := by
    intro a c heq
    refine hplace _ (by rw [heq, List.length_append]; omega) ?_
    rw [heq, List.drop_left]
    exact List.prefix_append _ _
  have hleft := hat left right htext
  constructor
  · intro hstart
    obtain ⟨a, c, hsplit, hc, rest, hrest⟩ := hstart
    have hlen := hat a rest (by rw [htext, hsplit, List.append_assoc, hrest])
    rw [hsplit, List.length_append] at hleft
    exact hc (List.length_eq_zero_iff.mp (by omega))
  · intro hin
    obtain ⟨a, c, hsplit⟩ := hin
    have hlen := hat (left ++ (pat ++ a)) c (by rw [htext, ← hsplit]; simp)
    rw [List.length_append, List.length_append] at hlen
    exact hne (List.length_eq_zero_iff.mp (by omega))

/-- Files `a` and `b` in the root. -/
def filesAB : FS :=
  after zeroEnv (.create (rootPath letterB) 0o100644)
    (after zeroEnv (.create (rootPath letterA) 0o100644) firstMount)

private theorem named_filesAB : Named ListOk filesAB := by
  have hfits : ∀ t c, Listing t → (c ≠ slash ∧
      (textOf t (inoOf t 0)).length + (newEntry t (rootPath c)).length < 512 ∧
      toInt64 ((t.inodeTable (inoOf t 0)).stat.stSize +
        ((newEntry t (rootPath c)).length + 1)) ≠ 0) → EntryFits t (rootPath c) := by
    intro t c ht hc k hk hkp
    have hname : [c] ≠ [] ∧ slash ∉ [c] := ⟨by simp, by simpa using hc.1.symm⟩
    obtain rfl := root_of_isParent ht.tree hname hk hkp
    exact hc.2
  have h₀ : Named ListOk firstMount := Reach.start fresh_firstMount
  have h₁ : Named ListOk (after zeroEnv (.create (rootPath letterA) 0o100644) firstMount) := by
    refine named_after h₀ ⟨(fuseOk_root _ letterA (by decide +kernel)).1, by decide, ?_⟩
      (by decide +kernel)
    exact hfits _ letterA (named_listing h₀) (by decide +kernel)
  refine named_after h₁ ⟨(fuseOk_root _ letterB (by decide +kernel)).1, by decide, ?_⟩
    (by decide +kernel)
  exact hfits _ letterB (named_listing h₁) (by decide +kernel)

/-- The entry of `a` is found in one place. -/
theorem entryAlone_filesAB : EntryAlone filesAB (rootPath letterA) := by
  have ht := (named_listing named_filesAB).tree
  have hentry : Entry filesAB 1 ∧ pathOf filesAB 1 = rootPath letterA := by decide +kernel
  have hino : inoOf filesAB 0 = 0 ∧ inoOf filesAB 1 = 1 := by decide +kernel
  have htext : textOf filesAB 0 =
      dirHeader 0 0 ++ (dirEntry [letterA] 1 ++ dirEntry [letterB] 2) := by decide +kernel
  intro m k hm hpath hk hkp
  obtain rfl := ht.path_inj m 1 hm hentry.1 (hpath.trans hentry.2.symm)
  obtain rfl := root_of_isParent ht (by decide) hk hkp
  have hname : getName (rootPath letterA) = [letterA] := by decide
  rw [hino.1, hino.2, hname, htext]
  refine ⟨?_, by decide +kernel, by decide +kernel⟩
  intro i j before after _ hsplit
  rw [dirText_split] at hsplit
  exact only_of_place (n := 8) (by decide) (by decide) hsplit

/-- Deleting the first of two files leaves the name of the second. -/
theorem listings_agree_filesAB : ∃ s, Named ListOk s ∧ ListingsAgree s ∧
    (sfsReaddir zeroEnv [slash] s).2 = [[dot], [dot, dot], [letterB]] := by
  have hfuse : FuseOk filesAB (.unlink (rootPath letterA)) := ⟨1, by decide +kernel⟩
  have hnamed : Named ListOk (after zeroEnv (.unlink (rootPath letterA)) filesAB) :=
    named_after named_filesAB ⟨hfuse, entryAlone_filesAB⟩ (by decide +kernel)
  exact ⟨_, hnamed, listings_agree hnamed, by decide +kernel⟩

/-- Files `a`, `3` and `1` in the root, with the inodes 1, 2 and 3. -/
def filesA31 : FS :=
  after zeroEnv (.create (rootPath 49) 0o100644) (after zeroEnv (.create (rootPath 51) 0o100644)
    (after zeroEnv (.create (rootPath letterA) 0o100644) firstMount))

/-- Deleting the file `1` takes the name `3` off the listing. -/
theorem unlink_loses_name : ¬ ∀ s, Named NamesOk s → ListingsAgree s := by
  intro hclaim
  have h₀ : Named NamesOk firstMount := Reach.start fresh_firstMount
  have h₁ := named_after (c := .create (rootPath letterA) 0o100644) h₀
    ⟨(fuseOk_root _ letterA (by decide +kernel)).1, by decide⟩ (by decide +kernel)
  have h₂ := named_after (c := .create (rootPath 51) 0o100644) h₁
    ⟨(fuseOk_root _ 51 (by decide +kernel)).1, by decide⟩ (by decide +kernel)
  have h₃ : Named NamesOk filesA31 := named_after (c := .create (rootPath 49) 0o100644) h₂
    ⟨(fuseOk_root _ 49 (by decide +kernel)).1, by decide⟩ (by decide +kernel)
  have hfuse : FuseOk filesA31 (.unlink (rootPath 49)) := ⟨3, by decide +kernel⟩
  have h₄ := named_after (c := .unlink (rootPath 49)) h₃ hfuse (by decide +kernel)
  generalize ht : after zeroEnv (.unlink (rootPath 49)) filesA31 = t at h₄
  have hroot : Entry t 0 ∧ pathOf t 0 = [slash] ∧ IsDir t 0 := by
    subst ht
    decide +kernel
  have hchild : Entry t 2 ∧ pathOf t 2 = rootPath 51 := by
    subst ht
    decide +kernel
  have hlist : (sfsReaddir zeroEnv [slash] t).2 = [[dot], [dot, dot], [letterA]] := by
    subst ht
    decide +kernel
  obtain ⟨ms, _, hmem, hread⟩ := hclaim t h₄ 0 hroot.1 hroot.2.2 zeroEnv
  have hparent : IsParent [slash] (rootPath 51) := ⟨by decide, [51], by decide, by decide, rfl⟩
  have hthree : 2 ∈ ms := by
    rw [hmem, hroot.2.1]
    refine ⟨hchild.1, ?_⟩
    rw [hchild.2]
    exact hparent
  rw [hroot.2.1] at hread
  rw [hread] at hlist
  have hname : getName (pathOf t 2) ∈ ms.map fun m => getName (pathOf t m) :=
    List.mem_map_of_mem hthree
  rw [(List.cons.inj (List.cons.inj hlist).2).2, hchild.2] at hname
  exact absurd hname (by decide)

end Runs

end Sfs
