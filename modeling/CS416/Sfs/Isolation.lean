import CS416.Sfs.CallBlocks

/-!
# Isolation of files

A write changes blocks of its own file only, so the other files and the
directories stay as they are.  This needs files that have the index blocks
their sizes call for: without one, `get_block_index` takes the entries of block
`-1`, zeros as long as nothing is written there, and names block 0.  And it needs
writes that stay within the blocks of the file: what belongs to a block that it
does not have is stored in block `-1`, where every such file reads it.
-/

namespace Sfs

open CInt Outcome Runs

/-- The file has every index block on the way to a byte below its size. -/
def coveredSize : SizeRule where
  holds B size := 0 ≤ size ∧ ∀ n, n < blocksOf size → Resolves B n
  lt := by
    rintro B size ⟨h₀, hres⟩
    have hlast := hres (blocksOf size - 1) (by omega)
    unfold Resolves blocksOf at hlast
    omega
  newFile := by
    refine ⟨le_refl 0, fun n hn => Or.inl ?_⟩
    unfold blocksOf at hn
    omega
  newDir := by
    refine ⟨by decide, fun n hn => Or.inl ?_⟩
    unfold blocksOf at hn
    omega

/-- Such a file has at most 16 MB. -/
theorem coveredSize_le {B : Nat} {size : Int} (h : coveredSize.holds B size) :
    0 ≤ size ∧ size ≤ 16777216 := by
  obtain ⟨h₀, hres⟩ := h
  have hlast := hres (blocksOf size - 1) (by omega)
  unfold Resolves blocksOf at hlast
  omega

/-- The handles that are open name files in use. -/
def Handles (s : FS) : Prop :=
  ∀ fh, 0 ≤ fh → fh < maxLink → 0 ≤ (s.openFiles fh).stIno →
    (s.openFiles fh).stIno ∈ allocated s ∧ IsFile s (s.openFiles fh).stIno

/-- No handle is open on the file to be unlinked, and a file to be opened has a path. -/
def HandleOk (s : FS) : Call → Prop
  | .openFile path => path ≠ []
  | .unlink path => ∀ m, Entry s m → pathOf s m = path →
      ∀ fh, 0 ≤ fh → fh < maxLink → (s.openFiles fh).stIno ≠ inoOf s m
  | _ => True

/-- A write stays within the blocks of the file, those that it adds included. -/
def MappedOk (s : FS) : Call → Prop
  | .write fh _ size offset =>
      ¬ handleOutOfRange fh →
      0 ≤ (s.openFiles (handleIndex fh)).stIno →
      offset ≤ (s.inodeTable (s.openFiles (handleIndex fh)).stIno).stat.stSize →
      let st := (s.inodeTable (s.openFiles (handleIndex fh)).stIno).stat
      RangeMapped (st.stBlocks + addedBlocks (offset + size) st.stSize) offset size
  | _ => True

/-- A call of a run whose files have the index blocks their sizes call for. -/
def CoveredOk (s : FS) (c : Call) : Prop :=
  FuseOk s c ∧ HandleOk s c ∧ BlockOk False coveredSize s c

/-- A call of an isolated run. -/
def IsolationOk (s : FS) (c : Call) : Prop := CoveredOk s c ∧ MappedOk s c

section Handle

variable {s t u : FS} {c : Call} {fh : Int}

/-- A handle that is accepted is in the table. -/
theorem handleIndex_range (h : ¬ handleOutOfRange fh) :
    0 ≤ handleIndex fh ∧ handleIndex fh < maxLink := by
  unfold handleOutOfRange at h
  simp only [maxLink] at h ⊢
  have h₀ := toU64_nonneg fh
  rw [handleIndex, toInt64_eq_toU64 (by omega)]
  omega

/-- A handle that is open is open on a file. -/
theorem Handles.onFile (h : Handles s) (fh : Int) : OnFile s fh := fun hfh hino =>
  h _ (handleIndex_range hfh).1 (handleIndex_range hfh).2 hino

/-- An inode that is in use as before. -/
def SameNode (s t : FS) (j : Int) : Prop :=
  (t.inodeTable j).avail = (s.inodeTable j).avail ∧
    (t.inodeTable j).stat.stMode = (s.inodeTable j).stat.stMode

/-- A handle that is open afterwards was open before, on an inode that has stayed, or has
been opened on a file in use. -/
theorem Handles.step (h : Handles s)
    (hopen : ∀ fh, 0 ≤ fh → fh < maxLink → 0 ≤ (t.openFiles fh).stIno →
      t.openFiles fh = s.openFiles fh ∧
        ((s.openFiles fh).stIno ∈ allocated s → IsFile s (s.openFiles fh).stIno →
          SameNode s t (s.openFiles fh).stIno) ∨
      (t.openFiles fh).stIno ∈ allocated t ∧ IsFile t (t.openFiles fh).stIno) :
    Handles t := by
  intro fh h₀ h₁ hino
  rcases hopen fh h₀ h₁ hino with ⟨heq, hsame⟩ | hnew
  · rw [heq] at hino ⊢
    obtain ⟨hA, hF⟩ := h fh h₀ h₁ hino
    obtain ⟨havail, hmode⟩ := hsame hA hF
    exact ⟨⟨hA.1, hA.2.1, by rw [havail]; exact hA.2.2⟩, by rw [IsFile, hmode]; exact hF⟩
  · exact hnew

/-- The handles stay open on files where the inodes stay. -/
theorem Handles.same (h : Handles s) (hopen : t.openFiles = s.openFiles)
    (hsame : ∀ j, j ∈ allocated s → IsFile s j → SameNode s t j) : Handles t :=
  h.step fun _ _ _ _ => Or.inl ⟨by rw [hopen], hsame _⟩

/-- At first no handle is open. -/
theorem FreshState.handles (h : FreshState s) : Handles s := by
  intro fh h₀ h₁ hino
  rw [h.opens fh h₀ h₁] at hino
  exact absurd hino (by decide)

private theorem Prepared.sameNode {i j : Int} (hp : Prepared s u i) (hj : j ∈ allocated s) :
    j ≠ i ∧ SameNode s u j := by
  have hji : j ≠ i := by
    rintro rfl
    exact not_mem_allocated hp.free hj
  exact ⟨hji, hp.avail_ne j hji, by rw [hp.stat_ne j hji]⟩

/-- `sfs_create` opens its handle on a file. -/
theorem Handles.create {env : Env} {path : Path} {mode : Nat} {fi : Int} (h : Handles s)
    (ht : Tree s) (hfuse : FuseOk s (.create path mode)) :
    Post (sfsCreate env path mode fi s) fun r => Handles r.2.2 := by
  intro r hr
  rcases sfsCreate_cases ht hfuse r hr with ⟨_, hrs⟩ | ⟨u, i, fh, hp, hn, _, hrs⟩ |
    ⟨u, m, i, k, fh, hp, hn, he, _, _, _, happ⟩
  · rw [hrs]
    exact h
  · rw [hrs]
    obtain ⟨_, hopens, hnode⟩ := freeInode_names i u
    refine h.step fun fh' _ _ hino => ?_
    have heq : (freeFh fh (freeInode i u)).openFiles =
        Function.update (Function.update s.openFiles (toInt fh) ⟨1, i, 0⟩)
          (toInt fh) ⟨0, -1, 0⟩ := by
      rw [freeFh, FS.setOpen_openFiles, hopens, hn.opens]
    rw [heq] at hino
    by_cases hfh : fh' = toInt fh
    · rw [hfh, Function.update_self] at hino
      exact absurd hino (by decide)
    · left
      rw [heq, Function.update_of_ne hfh, Function.update_of_ne hfh]
      refine ⟨rfl, fun hA _ => ?_⟩
      obtain ⟨hji, havail, hmode⟩ := hp.sameNode hA
      rw [SameNode, freeFh, FS.setOpen_inodeTable, hnode _ hji]
      exact ⟨havail, hmode⟩
  · have hrel := (appendEntry_relinks env (inoOf s k) _ _).post _ happ
    have hopens : r.2.2.openFiles = Function.update s.openFiles (handleIndex fh) ⟨1, i, 0⟩ :=
      hrel.opens.trans hn.opens
    refine h.step fun fh' _ _ hino => ?_
    by_cases hfh : fh' = handleIndex fh
    · right
      rw [hopens, hfh, Function.update_self]
      exact ⟨⟨hp.range.1, hp.range.2, (hrel.avail i).trans he.avail⟩, by
        rw [IsFile, hrel.mode]
        exact not_isDir_of_isReg hn.mode⟩
    · left
      rw [hopens, Function.update_of_ne hfh]
      refine ⟨rfl, fun hA _ => ?_⟩
      obtain ⟨hji, _⟩ := hp.sameNode hA
      exact ⟨(hrel.avail _).trans (he.avail_ne _ hji), by rw [hrel.mode, he.stat_ne _ hji]⟩

/-- `sfs_mkdir` leaves the handles alone. -/
theorem Handles.mkdir {env : Env} {path : Path} {mode : Nat} (h : Handles s)
    (ht : Tree s) (hfuse : FuseOk s (.mkdir path mode)) :
    Post (sfsMkdir env path mode s) fun r => Handles r.2 := by
  intro r hr
  rcases sfsMkdir_cases ht hfuse r hr with ⟨_, hrs⟩ | ⟨u, i, b, hp, hn, _, hrs⟩ |
    ⟨u, m, i, k, b, hp, hn, he, _, _, _, happ⟩
  · rw [hrs]
    exact h
  · rw [hrs]
    obtain ⟨_, hopens, hnode⟩ := freeInode_names i u
    refine h.same (hopens.trans hn.opens) fun j hA _ => ?_
    obtain ⟨hji, havail, hmode⟩ := hp.sameNode hA
    rw [SameNode, hnode j hji]
    exact ⟨havail, hmode⟩
  · have hrel := (appendEntry_relinks env (inoOf s k) _ _).post _ happ
    refine h.same (hrel.opens.trans hn.opens) fun j hA _ => ?_
    obtain ⟨hji, _⟩ := hp.sameNode hA
    exact ⟨(hrel.avail j).trans (he.avail_ne j hji), by
      rw [hrel.mode]
      exact congrArg Stat.stMode (he.stat_ne j hji)⟩

/-- Giving up the inode `ino` keeps the handles if none is open on it. -/
theorem Handles.erase {env : Env} {m cwd ino : Int} {entry : Path} (h : Handles s)
    (hno : ∀ fh, 0 ≤ fh → fh < maxLink → 0 ≤ (s.openFiles fh).stIno →
      (s.openFiles fh).stIno ≠ ino)
    (hu : removeEntry env cwd entry { s with cwdInode := cwd } = .ok u) :
    Handles (freeMapping m (freeInode ino u)) := by
  have hrel := removeEntry_relinks env cwd _ _ u hu
  obtain ⟨_, hopens, hnode⟩ := freeInode_names ino u
  have heq : (freeMapping m (freeInode ino u)).openFiles = s.openFiles :=
    hopens.trans hrel.opens
  refine h.step fun fh h₀ h₁ hino => ?_
  rw [heq] at hino
  refine Or.inl ⟨by rw [heq], fun _ _ => ?_⟩
  rw [SameNode, freeMapping, FS.setName_inodeTable, hnode _ (hno fh h₀ h₁ hino)]
  exact ⟨hrel.avail _, hrel.mode _⟩

/-- **Every call keeps the handles on files in use.** -/
theorem Handles.exec (h : Handles s) (ht : Tree s) (hfuse : FuseOk s c) (hno : HandleOk s c)
    (hret : Returns s c t) : Handles t := by
  obtain ⟨env, r, hexec⟩ := hret
  cases c with
  | create path mode =>
      obtain ⟨⟨r', fh, u⟩, hu, heq⟩ := bind_ok.mp hexec
      cases heq
      exact h.create ht hfuse _ hu
  | mkdir path mode => exact h.mkdir ht hfuse _ hexec
  | openFile path =>
      rw [← exec_open hexec]
      unfold sfsOpen
      dsimp only
      split_ifs with hl hd hfh
      · exact h
      · exact h
      · exact h
      · refine h.step fun fh' _ _ _ => ?_
        by_cases hfh' : fh' = handleIndex (toU64 (getFh s))
        · right
          rw [FS.setOpen_openFiles, hfh', Function.update_self]
          obtain ⟨hentry, _⟩ := ht.lookup_entry hno (not_lt.mp hl)
          exact ⟨ht.dir_allocated hentry, by simpa [IsFile] using hd⟩
        · left
          rw [FS.setOpen_openFiles, Function.update_of_ne hfh']
          exact ⟨rfl, fun _ _ => ⟨rfl, rfl⟩⟩
  | write fh buf size offset =>
      have hrel := sfsWrite_relinks env fh buf size offset s _ hexec
      exact h.same hrel.opens fun j _ _ => ⟨hrel.avail j, hrel.mode j⟩
  | read fh size offset =>
      obtain ⟨r', _, heq⟩ := bind_ok.mp hexec
      cases heq
      exact h
  | release fh =>
      cases hexec
      refine h.step fun fh' _ _ hino => ?_
      rw [freeFh, FS.setOpen_openFiles] at hino ⊢
      by_cases hfh : fh' = toInt fh
      · rw [hfh, Function.update_self] at hino
        exact absurd hino (by decide)
      · left
        rw [Function.update_of_ne hfh]
        exact ⟨rfl, fun _ _ => ⟨rfl, rfl⟩⟩
  | unlink path =>
      obtain ⟨m, k, u, hm, hpath, _, _, _, hu, hru⟩ := sfsUnlink_cases ht hfuse _ hexec
      rw [show t = (r, t).2 from rfl, hru]
      exact h.erase (fun fh h₀ h₁ _ => hno m hm hpath fh h₀ h₁) hu
  | rmdir path =>
      obtain ⟨m, k, hm, _, hd, _, ⟨_, _, hrs⟩ | ⟨u, _, _, hu, hru⟩⟩ :=
        sfsRmdir_cases ht hfuse _ hexec
      · rw [show t = (r, t).2 from rfl, hrs]
        exact h.same rfl fun _ _ _ => ⟨rfl, rfl⟩
      · rw [show t = (r, t).2 from rfl, hru]
        refine h.erase (fun fh h₀ h₁ hino heq => ?_) hu
        have hF := (h fh h₀ h₁ hino).2
        rw [heq] at hF
        exact not_isFile_of_isDir hd hF

end Handle

section Read

variable {s t : FS} {fh : Int}

/-- `sfs_read` depends on the attributes of the file and on its blocks below the size. -/
theorem sfsRead_congr (size : Nat) {offset : Int} (hopen : t.openFiles = s.openFiles)
    (hoff : 0 ≤ offset)
    (hfile : ¬ handleOutOfRange fh → 0 ≤ (s.openFiles (handleIndex fh)).stIno →
      let nd := s.inodeTable (s.openFiles (handleIndex fh)).stIno
      let nd' := t.inodeTable (s.openFiles (handleIndex fh)).stIno
      nd'.stat = nd.stat ∧ (0 ≤ nd.stat.stSize ∧ nd.stat.stSize ≤ 16777216) ∧
        ∀ n : Nat, n < blocksOf nd.stat.stSize →
          blockRead t.disk (getBlockIndex t.disk nd' n) =
            blockRead s.disk (getBlockIndex s.disk nd n)) :
    sfsRead fh size offset t = sfsRead fh size offset s := by
  unfold sfsRead
  rw [hopen]
  generalize (s.openFiles (handleIndex fh)).stIno = ino at hfile ⊢
  dsimp only
  by_cases hfh : handleOutOfRange fh
  · rw [if_pos hfh, if_pos hfh]
  by_cases hino : ino < 0
  · rw [if_neg hfh, if_neg hfh, if_pos hino, if_pos hino]
  obtain ⟨hstat, ⟨hsize₀, hsize₁⟩, hblk⟩ := hfile hfh (not_lt.mp hino)
  rw [if_neg hfh, if_neg hfh, if_neg hino, if_neg hino, hstat]
  generalize hst : (s.inodeTable ino).stat.stSize = stSize at hsize₀ hsize₁ hblk ⊢
  by_cases hend : offset ≥ stSize
  · rw [if_pos hend, if_pos hend]
  rw [if_neg hend, if_neg hend]
  generalize hsz : (if toU64 (offset + size) > toU64 stSize then toU64 (stSize - offset)
    else (size : Int)) = size'
  by_cases hover : offset.tmod blockSize < 0 ∨
      offset.tmod blockSize + size' > rangeBlocks offset size' * blockSize
  · rw [if_pos hover, if_pos hover]
  rw [if_neg hover, if_neg hover, Except.ok.injEq, Prod.mk.injEq]
  refine ⟨rfl, List.map_congr_left fun j hj => ?_⟩
  -- the copy stays in the buffer, so the range ends at the end of the file at the latest
  have hlen : offset + size' ≤ stSize := by
    have hrange := toInt_range ((if offset.tmod blockSize ≠ 0 then 1 else 0) +
      toU64 (size' - (if offset.tmod blockSize ≠ 0 then blockSize - offset.tmod blockSize else 0))
        / blockSize + (if toU64 (offset + size') % blockSize ≠ 0 then 1 else 0))
    rw [not_or, not_lt, not_lt] at hover
    have hle := hover.2
    unfold rangeBlocks at hle
    dsimp only at hle
    rw [toU64_of_range hsize₀ (by omega)] at hsz
    simp only [blockSize] at hle hrange hover
    split_ifs at hsz with hbig
    · rw [toU64_of_range (by omega) (by omega)] at hsz
      omega
    · have hsmall : offset + size < 18446744073709551616 := by omega
      rw [toU64_of_range (by omega) hsmall] at hbig
      omega
  rw [List.mem_range] at hj
  have hdiv : offset.tdiv blockSize = offset / 512 := Int.tdiv_eq_ediv_of_nonneg hoff
  have hmod : offset.tmod blockSize = offset % 512 := Int.tmod_eq_emod_of_nonneg hoff
  rw [hdiv, hmod, toInt_of_range (by omega) (by omega), toShort_of_range (by omega) (by omega)]
  have hpos : offset / 512 + ((((offset % 512).toNat + j) / 512 : Nat) : Int) =
      (((offset.toNat + j) / 512 : Nat) : Int) := by omega
  rw [hpos, hblk _ (by unfold blocksOf; omega)]

end Read

section Write

variable {s t u v : FS} {A : Set Int} {ino fh : Int} {B m size : Nat} {buf : Nat → UInt8}
  {offset : Int}

/-- The blocks of the other inodes keep their contents. -/
theorem Wrote.disk_other {strict : Prop} (h : Wrote A s u v t ino B m buf size offset)
    (hino : ino ∈ A) (ht : Books strict A ∅ t) {x : Int × Slot} (hx : x.1 ∈ A)
    (hne : x.1 ≠ ino) (h₀ : 0 ≤ refs s x) : t.disk (refs s x) = s.disk (refs s x) := by
  refine h.disk_eq hino (Or.inl h₀) fun sl _ heq => hne ?_
  rw [← h.refs_ne hx hne] at h₀ heq
  exact congrArg Prod.fst (ht.excl x hx (ino, sl) hino h₀ heq.symm)

/-- **What holds along such runs.** -/
theorem reached_covered (h : Reached CoveredOk s) :
    Tree s ∧ Blocks False coveredSize s ∧ Handles s :=
  h.invariant (I := fun s => Tree s ∧ Blocks False coveredSize s ∧ Handles s)
    (fun _ hs => ⟨fresh_tree hs, (fresh_state hs).blocks, (fresh_state hs).handles⟩)
    fun _ _ _ _ ⟨ht, hb, hh⟩ ⟨⟨hfuse, hno, hok⟩, hret⟩ =>
      ⟨ht.exec hfuse hret,
        (hb.exec ht hfuse False.elim (fun fh _ _ _ _ => hh.onFile fh) hok hret).1,
        hh.exec ht hfuse hno hret⟩

/-- The condition on writes is one more. -/
theorem Reached.covered (h : Reached IsolationOk s) : Reached CoveredOk s :=
  h.mono fun _ _ _ hstep => ⟨hstep.1.1, hstep.2⟩

/-- Only the file of inode `ino` has changed: every changed block is a block of the inode,
old or newly taken; other files read the same and directories keep their blocks. -/
structure Isolated (s t : FS) (ino : Int) : Prop where
  blocks : ∀ c, t.disk c ≠ s.disk c → ∃ sl, refs t (ino, sl) = c ∧
    (refs s (ino, sl) = c ∨ s.diskBlocks c = FREE ∧ t.diskBlocks c = ALLOCD)
  reads : ∀ fh size offset, 0 ≤ offset → (s.openFiles (handleIndex fh)).stIno ≠ ino →
    sfsRead fh size offset t = sfsRead fh size offset s
  dirs : ∀ j ∈ allocated s, ¬ IsFile s j → ∀ sl, refs t (j, sl) = refs s (j, sl) ∧
    (0 ≤ refs s (j, sl) → t.disk (refs s (j, sl)) = s.disk (refs s (j, sl)))

/-- A write that is refused changes nothing. -/
theorem Isolated.refl (s : FS) (ino : Int) : Isolated s s ino :=
  ⟨fun _ hc => absurd rfl hc, fun _ _ _ _ _ => rfl, fun _ _ _ _ => ⟨rfl, fun _ => rfl⟩⟩

end Write

end Sfs
