import CS416.Sfs.FreeCount
import CS416.Sfs.OpenHandles
import CS416.Sfs.TextEnd

/-!
# Runs that fill the tables

A run that creates one file after the other in the root takes the inodes, the
entries of `name_table` and the handles from below, and no more than three
blocks for each file.
-/

namespace Sfs

open CInt Search Outcome

section Run

variable {ok : FS → Call → Prop} {s t : FS} {names : List Path} {name : Path}

/-- The files `names` have been created in the root of a fresh mount, in this order. -/
structure RootFiles (ok : FS → Call → Prop) (s : FS) (names : List Path) : Prop where
  reached : Reached ok s
  tree : Tree s
  inodes : ∀ j, 0 ≤ j → j < maxNodes →
    ((s.inodeTable j).avail = FREE ↔ (names.length : Int) < j)
  slots : ∀ m, 0 ≤ m → m < maxLink →
    ((s.nameTable m).avail = FREE ↔ (names.length : Int) < m)
  paths : ∀ m, Entry s m → pathOf s m = [slash] ∨ ∃ name ∈ names, pathOf s m = slash :: name
  handles : ∀ fh, 0 ≤ fh → fh < maxLink →
    ((s.openFiles fh).stIno < 0 ↔ (names.length : Int) ≤ fh)
  free : FreeBlocks (32767 - 3 * names.length) s

/-- At first the root has no files. -/
theorem rootFiles_firstMount (ok : FS → Call → Prop) : RootFiles ok firstMount [] := by
  have hfresh := fresh_state fresh_firstMount
  refine ⟨reached_firstMount ok, hfresh.tree, ?_, ?_, ?_, ?_, ?_⟩
  · intro j h₀ h₁
    by_cases hj : j = 0
    · subst j
      rw [hfresh.root_avail]
      decide
    · rw [hfresh.inodes j (by omega) h₁]
      simp only [List.length_nil, Nat.cast_zero, true_iff]
      omega
  · intro m h₀ h₁
    by_cases hm : m = 0
    · subst m
      rw [hfresh.root_name]
      decide
    · rw [hfresh.names m (by omega) h₁]
      simp only [List.length_nil, Nat.cast_zero, true_iff]
      omega
  · intro m hm
    rw [(hfresh.entry_iff m).mp hm, pathOf, hfresh.root_name]
    exact Or.inl rfl
  · intro fh h₀ h₁
    rw [hfresh.opens fh h₀ h₁]
    simpa using h₀
  · exact hfresh.freeBlocks

/-- The next inode. -/
theorem RootFiles.getInode_eq (h : RootFiles ok s names) (hlen : names.length < 127) :
    (getInode s).1 = names.length + 1 := by
  have hfind : findFrom (fun i => (s.inodeTable i).avail = FREE) maxNodes.toNat 0 =
      some ((names.length : Int) + 1) := by
    apply findFrom_threshold (by omega) (by simp only [maxNodes]; omega)
    intro j h₀ h₁
    rw [decide_eq_true_iff, h.inodes j h₀ (by simpa using h₁)]
    omega
  unfold getInode
  rw [hfind]

/-- The next entry of `name_table`. -/
theorem RootFiles.getMapping_eq (h : RootFiles ok s names) (hlen : names.length < 127) :
    (getMapping s).1 = names.length + 1 := by
  have hfind : findFrom (fun i => (s.nameTable i).avail = FREE) maxLink.toNat 0 =
      some ((names.length : Int) + 1) := by
    apply findFrom_threshold (by omega) (by simp only [maxLink]; omega)
    intro j h₀ h₁
    rw [decide_eq_true_iff, h.slots j h₀ (by simpa using h₁)]
    omega
  unfold getMapping
  rw [hfind]

/-- The next handle. -/
theorem RootFiles.getFh_eq (h : RootFiles ok s names) (hlen : names.length < 128) :
    getFh s = names.length := by
  have hfind : findFrom (fun i => (s.openFiles i).stIno < 0) maxLink.toNat 0 =
      some (names.length : Int) := by
    apply findFrom_threshold (by omega) (by simp only [maxLink]; omega)
    intro j h₀ h₁
    rw [decide_eq_true_iff, h.handles j h₀ (by simpa using h₁)]
  unfold getFh
  rw [hfind, Option.getD_some]

/-- There is room for a further file. -/
theorem RootFiles.room (h : RootFiles ok s names) (hlen : names.length < 127) : Room s where
  inode := ⟨127, by decide, by decide, (h.inodes 127 (by decide) (by decide)).mpr (by omega)⟩
  name := ⟨127, by decide, by decide, (h.slots 127 (by decide) (by decide)).mpr (by omega)⟩
  handle := by
    rw [h.getFh_eq (by omega)]
    omega
  block := (h.free.mono (show 0 + 1 ≤ 32767 - 3 * names.length by omega)).hasFree

/-- The root is the parent of a name in it. -/
theorem isParent_name (h : RootFiles ok s names) (hne : name ≠ []) (hslash : slash ∉ name) :
    IsParent (pathOf s 0) (slash :: name) := by
  rw [h.tree.root.2.1]
  exact ⟨List.cons_ne_nil _ _, name, hne, hslash, rfl⟩

/-- A name that is not among the files is new. -/
theorem RootFiles.newPath (h : RootFiles ok s names) (hne : name ≠ []) (hnew : name ∉ names) :
    NewPath s (slash :: name) := by
  intro m hm hpath
  rcases h.paths m hm with hroot | ⟨old, hmem, hold⟩
  · rw [hroot] at hpath
    exact hne (List.cons.inj hpath).2.symm
  · rw [hold] at hpath
    exact hnew ((List.cons.inj hpath).2 ▸ hmem)

/-- The last part of a path in the root is its name. -/
theorem getName_root (hne : name ≠ []) (hslash : slash ∉ name) :
    getName (slash :: name) = name := by
  have hlast : lastSlashFrom 0 none ([] ++ slash :: name) = some (0 + [].length) :=
    lastSlashFrom_append hslash
  unfold getName lastSlash
  rw [if_neg (fun heq => hne (List.cons.inj heq).2), ← List.nil_append (slash :: name), hlast]
  rfl

/-- The root has been given an entry, with the disk and its inode as in `s`. -/
def RootGrows (s t : FS) (entry : Path) : Prop :=
  ∃ v, v.disk = s.disk ∧ (v.inodeTable (inoOf s 0)).blocks = (s.inodeTable (inoOf s 0)).blocks ∧
    (v.inodeTable (inoOf s 0)).stat = (s.inodeTable (inoOf s 0)).stat ∧ inoOf t 0 = inoOf s 0 ∧
    appendEntry zeroEnv (inoOf s 0) entry v = .ok t

/-- **One more file in the root**, where the search for the end of its text comes to an end. -/
theorem RootFiles.create (h : RootFiles ok s names) (name : Path) (hlen : names.length < 127)
    (hne : name ≠ []) (hslash : slash ∉ name) (hfits : PathFits (slash :: name))
    (hnew : name ∉ names) (hok : ok s (.create (slash :: name) 0o100644))
    (hend : (textEnd s (inoOf s 0)).2 < 512) :
    ∃ t, sfsCreate zeroEnv (slash :: name) 0o100644 0 s = .ok (0, toU64 (getFh s), t) ∧
      RootFiles ok t (names ++ [name]) ∧
      RootGrows s t (dirEntry name (names.length + 1)) := by
  have hroom := h.room hlen
  have hpar := isParent_name h hne hslash
  have hparent : HasParent s (slash :: name) := ⟨0, h.tree.root.1, h.tree.root.2.2, hpar⟩
  have hfuse : FuseOk s (.create (slash :: name) 0o100644) :=
    ⟨hfits, by decide, hparent, hroom.inode⟩
  have hlook := pathLookup_new hparent (h.newPath hne hnew) h.tree
  have hmap := h.getMapping_eq hlen
  have hino := h.getInode_eq hlen
  have hfh := h.getFh_eq (by omega)
  rcases sfsCreate_eq zeroEnv 0 h.tree hfuse (by omega) with ⟨_, _, _, _, hfull, _⟩ |
    ⟨u, m, i, k, hp, hn, he, hm, hi, heq⟩
  · omega
  generalize hv : enterName m i (slash :: name)
    (u.setName m { u.nameTable m with avail := ALLOCD }) = v at he heq
  have hfree : FreeBlocks (32767 - 3 * (names.length + 1) + 3) v := by
    have hused : v.diskBlocks = s.diskBlocks := by
      rw [← hv]
      exact hn.used
    exact (h.free.mono (by omega)).congr hused
  obtain rfl : k = 0 := h.tree.path_inj k 0 he.parent.1 h.tree.root.1 (he.parent.2.2.unique hpar)
  have hroot : inoOf s 0 ≠ i := by
    intro heq
    have hmem := h.tree.dir_allocated h.tree.root.1
    rw [heq] at hmem
    exact not_mem_allocated hp.free hmem
  have hdisk : v.disk = s.disk := by
    rw [← hv]
    exact hn.disk
  have hblocks : (v.inodeTable (inoOf s 0)).blocks = (s.inodeTable (inoOf s 0)).blocks := by
    rw [← hv]
    exact hn.blocks_ne _ hroot
  have hend' : (textEnd v (inoOf s 0)).2 < 512 := by
    rw [textEnd_congr hblocks hdisk]
    exact hend
  obtain ⟨t, happ, hfree'⟩ := hfree.appendEntry hend' zeroEnv (dirEntry (getName (slash :: name)) i)
  rw [happ] at heq
  have hrel := (appendEntry_relinks zeroEnv _ _ v).post t happ
  have hexec : exec zeroEnv (.create (slash :: name) 0o100644) s = .ok (0, t) := by
    rw [exec, heq]
    rfl
  have htree : Tree t := h.tree.exec hfuse ⟨zeroEnv, 0, hexec⟩
  have hnames : t.nameTable = Function.update s.nameTable m ⟨ALLOCD, i, slash :: name⟩ :=
    hrel.names.trans he.names
  have hopens : t.openFiles = Function.update s.openFiles names.length ⟨1, i, 0⟩ := by
    rw [hrel.opens, ← hv, ← hfh, ← handleIndex_toU64_getFh]
    exact hn.opens
  have hcount : ((names ++ [name]).length : Int) = names.length + 1 := by
    rw [List.length_append, List.length_singleton, Nat.cast_add, Nat.cast_one]
  have hino₀ : inoOf t 0 = inoOf s 0 := by
    have hm₀ : (0 : Int) ≠ m := by omega
    rw [inoOf, hnames, Function.update_of_ne hm₀]
    rfl
  rw [getName_root hne hslash, hi, hino] at happ
  refine ⟨t, heq, ⟨h.reached.next (c := .create (slash :: name) 0o100644)
    ⟨hok, zeroEnv, 0, hexec⟩, htree, ?_, ?_, ?_, ?_, ?_⟩,
    v, hdisk, hblocks, he.stat_ne _ hroot, hino₀, happ⟩
  · intro j h₀ h₁
    rw [hcount, hrel.avail]
    by_cases hj : j = i
    · rw [hj, he.avail, hi, hino]
      simp [ALLOCD, FREE]
    · rw [he.avail_ne j hj, h.inodes j h₀ h₁]
      omega
  · intro j h₀ h₁
    rw [hcount, hnames]
    by_cases hj : j = m
    · rw [hj, Function.update_self, hm, hmap]
      simp [ALLOCD, FREE]
    · rw [Function.update_of_ne hj, h.slots j h₀ h₁]
      omega
  · intro j hj
    unfold Entry at hj
    unfold pathOf
    rw [hnames] at hj ⊢
    by_cases hjm : j = m
    · rw [hjm, Function.update_self]
      exact Or.inr ⟨name, by simp, rfl⟩
    · rw [Function.update_of_ne hjm] at hj ⊢
      rcases h.paths j hj with hroot | ⟨old, hmem, hold⟩
      · exact Or.inl hroot
      · exact Or.inr ⟨old, List.mem_append_left _ hmem, hold⟩
  · intro fh h₀ h₁
    rw [hcount, hopens]
    by_cases hj : fh = names.length
    · rw [hj, Function.update_self]
      dsimp only
      omega
    · rw [Function.update_of_ne hj, h.handles fh h₀ h₁]
      omega
  · rwa [List.length_append, List.length_singleton]

/-- The end of the root's text after `k` short entries.  The first 71 go to the first block and
leave its size below 512; what comes later may go to block `-1`. -/
structure RootEnds (s : FS) (k : Nat) : Prop where
  root : inoOf s 0 = 0
  start : k ≤ 71 → (s.inodeTable 0).blocks 0 = 0 ∧ (blockRead s.disk 0).strlen ≤ 8 + 6 * k ∧
    0 ≤ (s.inodeTable 0).stat.stSize ∧ (s.inodeTable 0).stat.stSize ≤ 9 + 7 * k
  behind : (blockRead s.disk (-1)).strlen ≤ 8 * (k - 71)

private theorem rootEnds_firstMount : RootEnds firstMount 0 where
  root := by decide +kernel
  start _ := by decide +kernel
  behind := by decide +kernel

/-- The text of the root ends within its first block. -/
theorem RootEnds.ends {k : Nat} (h : RootEnds s k) (hk : k ≤ 127) :
    (textEnd s (inoOf s 0)).2 < 512 := by
  have hbehind := h.behind
  exact textEnd_ends _ (by omega)

/-- **The text still ends** when one more entry has come in. -/
theorem RootEnds.grows {k : Nat} {entry : Path} (h : RootEnds s k) (hk : k < 127)
    (hg : RootGrows s t entry) (hshort : entry.length ≤ 8) (hshorter : k < 71 → entry.length ≤ 6) :
    RootEnds t (k + 1) := by
  obtain ⟨v, hdisk, hblocks, hstat, hino, happ⟩ := hg
  rw [h.root] at hblocks hstat hino happ
  have hbehind := h.behind
  by_cases hearly : k < 71
  · obtain ⟨hfirst, hlength, h₀, hsize⟩ := h.start hearly.le
    have hlen := hshorter hearly
    have hstay : ¬ GrowsDir v 0 (entry.length + 1) := by
      rw [GrowsDir, hstat, Int.tmod_eq_of_lt h₀ (by simp only [blockSize]; omega)]
      simp only [blockSize]
      omega
    obtain ⟨hblocks', hbelow, hlength'⟩ := appendEntry_start (hblocks ▸ hfirst)
      ⟨le_refl 0, by decide⟩ (by rw [hdisk]; omega) hstay t happ
    have hsize' := appendEntry_size zeroEnv 0 entry v t happ
    rw [hdisk] at hlength'
    rw [hstat, toInt64_of_range (by omega) (by omega)] at hsize'
    refine ⟨hino, fun _ => ⟨by rw [hblocks', hblocks, hfirst], by omega, by omega, by omega⟩, ?_⟩
    rw [blockRead_of_lt (by decide), hbelow (-1) (by decide), hdisk,
      ← blockRead_of_lt (d := s.disk) (by decide)]
    omega
  · have hgrown := appendEntry_behind (m := 8 * (k - 71)) (by rw [hdisk]; exact hbehind)
      (by omega) t happ
    refine ⟨hino, fun hle => absurd hle (by omega), ?_⟩
    omega

/-- The numbers from 0 on, as names. -/
def numberNames (n : Nat) : List Path := (List.range n).map fun k : Nat => showInt k

/-- An entry for a number takes four to eight bytes. -/
theorem length_numberEntry {n : Nat} (hn : n < 127) :
    (dirEntry (showInt n) (n + 1)).length ≤ 8 ∧
      (n < 71 → (dirEntry (showInt n) (n + 1)).length ≤ 6) := by
  have hall : ∀ k : Fin 127, (dirEntry (showInt (k : Nat)) ((k : Nat) + 1)).length ≤ 8 ∧
      ((k : Nat) < 71 → (dirEntry (showInt (k : Nat)) ((k : Nat) + 1)).length ≤ 6) := by
    decide +kernel
  exact hall ⟨n, hn⟩

/-- **Up to 127 files can be created in the root.** -/
theorem rootFiles_numberNames {n : Nat} (hn : n ≤ 127) :
    ∃ s, RootFiles FuseOk s (numberNames n) ∧ RootEnds s n := by
  induction n with
  | zero => exact ⟨firstMount, rootFiles_firstMount FuseOk, rootEnds_firstMount⟩
  | succ n ih =>
      obtain ⟨s, hs, hends⟩ := ih (by omega)
      have hlen : (numberNames n).length = n := by
        rw [numberNames, List.length_map, List.length_range]
      have hnew : showInt n ∉ numberNames n := by
        intro hmem
        obtain ⟨k, hk, heq⟩ := List.mem_map.mp hmem
        have hkn := showInt_inj heq
        rw [List.mem_range] at hk
        omega
      have hfits : PathFits (slash :: showInt n) := by
        constructor
        · have hshort := length_showInt (n := (n : Int)) (by omega) (by omega)
          rw [List.length_cons]
          simp only [maxPathLen]
          omega
        · intro hmem
          rcases List.mem_cons.mp hmem with heq | hin
          · exact absurd heq (by decide)
          · rcases mem_showInt hin with heq | heq
            · exact absurd heq (by decide)
            · exact absurd heq (by decide)
      have hslash := slash_notMem_showInt (n : Int)
      have hne := showInt_ne_nil (n : Int)
      have hpar : HasParent s (slash :: showInt n) :=
        ⟨0, hs.tree.root.1, hs.tree.root.2.2, isParent_name hs hne hslash⟩
      obtain ⟨t, _, ht, hgrown⟩ := hs.create _ (by omega) hne hslash hfits hnew
        ⟨hfits, by decide, hpar, (hs.room (by omega)).inode⟩ (hends.ends (by omega))
      rw [hlen] at hgrown
      obtain ⟨hshort, hshorter⟩ := length_numberEntry (n := n) (by omega)
      refine ⟨t, ?_, hends.grows (by omega) hgrown hshort hshorter⟩
      rwa [numberNames, List.range_succ, List.map_append]

end Run

end Sfs
