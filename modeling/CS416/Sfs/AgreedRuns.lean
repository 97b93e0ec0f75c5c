import CS416.Lib.Script
import CS416.Sfs.AgreedNames

/-!
# Runs of states that agree

What a call finds outside the bounds of the tables, in the reserved area or in
`cwd_inode` never decides what the file system answers: from two states that
agree, every script of calls gets the same answers.
-/

namespace Sfs

open CInt Outcome Runs

section Answers

variable {s s' t : FS} {env : Env} {path : Path} {fh offset : Int} {size : Nat}
  {r fi fi' : Int}

/-- What a path that is found names is an entry of `inode_table`. -/
theorem lookup_agree (h : Agree s s') (ht : Tree s) (hpath : path ≠ [])
    (hl : 0 ≤ pathLookup s path) :
    (s'.nameTable (pathLookup s path)).stIno = inoOf s (pathLookup s path) ∧
      inoOf s (pathLookup s path) ∈ allocated s ∧
      SameInode (s.inodeTable (inoOf s (pathLookup s path)))
        (s'.inodeTable (inoOf s (pathLookup s path))) := by
  obtain ⟨hentry, _⟩ := ht.lookup_entry hpath hl
  have hA := ht.dir_allocated hentry
  exact ⟨inoOf_agree h hentry, hA, h.node _ hA.1 hA.2.1⟩

/-- `sfs_getattr` answers alike. -/
theorem sfsGetattr_agree (h : Agree s s') : sfsGetattr env path s' = sfsGetattr env path s := by
  unfold sfsGetattr
  dsimp only
  rw [pathLookup_agree h]
  by_cases hl : pathLookup s path < 0
  · rw [if_pos hl, if_pos hl]
  · rw [if_neg hl, if_neg hl, (h.node _ (not_lt.mp hl) (pathLookup_lt s path)).stat]

/-- `sfs_readdir` answers alike. -/
theorem sfsReaddir_agree (h : Agree s s') (ht : Tree s) (hb : Blocks False coveredSize s)
    (hres : Reserved s) (hpath : path ≠ []) : sfsReaddir env path s' = sfsReaddir env path s := by
  unfold sfsReaddir
  dsimp only
  rw [pathLookup_agree h]
  by_cases hl : pathLookup s path < 0
  · rw [if_pos hl, if_pos hl]
  · obtain ⟨hino, hA, hsame⟩ := lookup_agree h ht hpath (not_lt.mp hl)
    have hlow := (hres.refsLow hb.books hA).direct (le_refl 0) (by decide)
    rw [if_neg hl, if_neg hl, hino, hsame.stat, hsame.blocks 0 (le_refl 0) (by decide),
      h.read hlow]
    rfl

/-- `sfs_read` answers alike. -/
theorem sfsRead_agree (h : Agree s s') (hh : Handles s) (hb : Blocks False coveredSize s)
    (hres : Reserved s) (hoff : 0 ≤ offset) :
    sfsRead fh size offset s' = sfsRead fh size offset s := by
  have hopens : sfsRead fh size offset s' =
      sfsRead fh size offset { s' with openFiles := s.openFiles } := by
    unfold sfsRead
    by_cases hfh : handleOutOfRange fh
    · rw [if_pos hfh, if_pos hfh]
    · dsimp only
      rw [h.opens _ (handleIndex_range hfh).1 (handleIndex_range hfh).2]
  rw [hopens]
  refine sfsRead_congr size rfl hoff fun hfh hino => ?_
  obtain ⟨hA, hF⟩ := hh.onFile fh hfh hino
  obtain ⟨B, hshape, _, hcover⟩ := hb.files _ hA hF
  have hlow := hres.refsLow hb.books hA
  exact ⟨(h.node _ hA.1 hA.2.1).stat, coveredSize_le hcover, fun n hn =>
    fileBlock_agree h hshape hlow hres.system_pos hA.1 hA.2.1 (hcover.2 n hn)⟩

/-- `sfs_open` answers alike, and the states still agree. -/
theorem sfsOpen_agree (h : Agree s s') (ht : Tree s) (hpath : path ≠ [])
    (hopen : sfsOpen path fi s = (r, fi', t)) :
    ∃ t', sfsOpen path fi s' = (r, fi', t') ∧ Agree t t' := by
  unfold sfsOpen at hopen ⊢
  dsimp only at hopen ⊢
  rw [pathLookup_agree h, getFh_agree h]
  by_cases hl : pathLookup s path < 0
  · rw [if_pos hl] at hopen ⊢
    cases hopen
    exact ⟨s', rfl, h⟩
  obtain ⟨hino, hA, hsame⟩ := lookup_agree h ht hpath (not_lt.mp hl)
  rw [if_neg hl] at hopen ⊢
  rw [hino, hsame.stat]
  rw [show (s.nameTable (pathLookup s path)).stIno = inoOf s (pathLookup s path) from rfl] at hopen
  split_ifs at hopen ⊢ <;> cases hopen
  · exact ⟨s', rfl, h⟩
  · exact ⟨s', rfl, h⟩
  · exact ⟨_, rfl, h.setOpen _ _⟩

end Answers

/-- A read at no negative offset. -/
def OffsetOk : Call → Prop
  | .read _ _ offset => 0 ≤ offset
  | _ => True

/-- A call of a run that stays within the tables. -/
def InsideOk (s : FS) (c : Call) : Prop := CoveredOk s c ∧ OffsetOk c

/-- What holds along the runs that leave room in front of the reserved area. -/
structure Inside (s : FS) : Prop where
  tree : Tree s
  blocks : Blocks False coveredSize s
  handles : Handles s
  reserved : Reserved s
  room : HasRoom s

/-- A call that leaves room, and its answer. -/
def Answers (s : FS) (l : Env × Call) (r : Int) (t : FS) : Prop :=
  InsideOk s l.2 ∧ exec l.1 l.2 s = .ok (r, t) ∧ HasRoom t

/-- A call and its answer, in any state. -/
def Gives (s : FS) (l : Env × Call) (r : Int) (t : FS) : Prop := exec l.1 l.2 s = .ok (r, t)

section Runs

variable {s s' t : FS} {env : Env} {c : Call} {r : Int}

/-- What holds along such a run. -/
theorem RoomyRun.inside (h : RoomyRun InsideOk s) : Inside s := by
  have hreach : Reached CoveredOk s := h.reached.mono fun _ _ _ hstep => ⟨hstep.1.1, hstep.2⟩
  obtain ⟨ht, hb, hh⟩ := reached_covered hreach
  exact ⟨ht, hb, hh, h.reserved, h.hasRoom⟩

/-- **One call** that leaves room keeps it. -/
theorem Inside.step (h : Inside s) (hok : InsideOk s c) (hexec : exec env c s = .ok (r, t))
    (hroom : HasRoom t) : Inside t := by
  have hret : Returns s c t := ⟨env, r, hexec⟩
  obtain ⟨⟨hfuse, hno, hblocks⟩, _⟩ := hok
  exact
    { tree := h.tree.exec hfuse hret
      blocks := (h.blocks.exec h.tree hfuse False.elim (fun fh _ _ _ _ => h.handles.onFile fh)
        hblocks hret).1
      handles := h.handles.exec h.tree hfuse hno hret
      reserved := h.reserved.step (exec_used env c s _ hexec) hroom
      room := hroom }

/-- **Every call does the same in states that agree.** -/
theorem exec_agree (h : Agree s s') (hs : Inside s) (hok : InsideOk s c)
    (hexec : exec env c s = .ok (r, t)) (hroom : HasRoom t) :
    ∃ t', exec env c s' = .ok (r, t') ∧ Agree t t' := by
  obtain ⟨⟨hfuse, hno, hblocks⟩, hoff⟩ := hok
  cases c with
  | create path mode =>
      obtain ⟨x, hcreate, hret⟩ := bind_ok.mp hexec
      obtain ⟨r', fi', u⟩ := x
      cases hret
      obtain ⟨t', hcreate', hagree⟩ := sfsCreate_agree h hs.blocks hs.tree hs.reserved hfuse
        hblocks hcreate hroom
      rw [exec, hcreate', ok_bind]
      exact ⟨t', rfl, hagree⟩
  | mkdir path mode =>
      exact sfsMkdir_agree h hs.blocks hs.tree hs.reserved hfuse hblocks hexec hroom
  | openFile path =>
      have hret := Prod.mk.inj (Except.ok.inj hexec)
      obtain ⟨t', hopen', hagree⟩ := sfsOpen_agree (t := (sfsOpen path 0 s).2.2) h hs.tree hno rfl
      rw [exec, hopen', ← hret.1, ← hret.2]
      exact ⟨t', rfl, hagree⟩
  | write fh buf size offset =>
      exact sfsWrite_agree h hs.blocks hs.reserved (hs.handles.onFile fh) hblocks hexec hroom
  | read fh size offset =>
      rw [exec, sfsRead_agree h hs.handles hs.blocks hs.reserved hoff]
      obtain ⟨x, hread, hret⟩ := bind_ok.mp hexec
      cases hret
      rw [hread, ok_bind]
      exact ⟨s', rfl, h⟩
  | release fh =>
      cases hexec
      exact ⟨_, rfl, h.setOpen _ _⟩
  | unlink path => exact sfsUnlink_agree h hs.blocks hs.tree hs.reserved hfuse hexec
  | rmdir path => exact sfsRmdir_agree h hs.blocks hs.tree hs.reserved hfuse hexec

/-- The calls that change nothing. -/
structure SameAnswers (s s' : FS) : Prop where
  getattr : ∀ env path, sfsGetattr env path s' = sfsGetattr env path s
  readdir : ∀ env path, path ≠ [] → sfsReaddir env path s' = sfsReaddir env path s
  read : ∀ fh size offset, 0 ≤ offset → sfsRead fh size offset s' = sfsRead fh size offset s

/-- States that agree are read alike. -/
theorem Agree.sameAnswers (h : Agree s s') (hs : Inside s) : SameAnswers s s' where
  getattr _ _ := sfsGetattr_agree h
  readdir _ _ hpath := sfsReaddir_agree h hs.tree hs.blocks hs.reserved hpath
  read _ _ _ hoff := sfsRead_agree h hs.handles hs.blocks hs.reserved hoff

/-- **A script** is answered alike: one call after the other. -/
theorem script_agree {ls : List (Env × Call)} {rs : List Int} (h : Agree s s') (hs : Inside s)
    (hscript : Script Answers s ls rs t) :
    ∃ t', Script Gives s' ls rs t' ∧ Agree t t' ∧ SameAnswers t t' := by
  have hkeep : ∀ (s : FS) l r t, Inside s → Answers s l r t → Inside t :=
    fun _ _ _ _ hs hstep => hs.step hstep.1 hstep.2.1 hstep.2.2
  obtain ⟨t', hscript', hagree⟩ := hscript.simulate hkeep
    (fun _ _ _ _ _ hs hR hstep => exec_agree hR hs hstep.1 hstep.2.1 hstep.2.2) hs h
  exact ⟨t', hscript', hagree, hagree.sameAnswers (hscript.invariant hkeep hs)⟩

/-- **Nothing outside the tables decides an answer.**  Memory next to the tables, the reserved
area and `cwd_inode` may hold anything: every script gets the same answers. -/
theorem answers_within_tables {ls : List (Env × Call)} {rs : List Int} (h : RoomyRun InsideOk s)
    (hagree : Agree s s') (hscript : Script Answers s ls rs t) :
    ∃ t', Script Gives s' ls rs t' ∧ Agree t t' ∧ SameAnswers t t' :=
  script_agree hagree h.inside hscript

/-- A call that returns leads to the state after it. -/
theorem exec_after (env : Env) (c : Call) (s : FS) (h : returns env c s = true) :
    ∃ r, exec env c s = .ok (r, after env c s) := by
  unfold returns at h
  unfold after
  cases hexec : exec env c s with
  | ok x => exact ⟨x.1, rfl⟩
  | error e => simp [hexec] at h

/-- A free block in front of the reserved area is room. -/
theorem hasRoom_at {b : Int} (h₀ : 0 ≤ b) (h₁ : b < s.systemBlock) (hb : s.diskBlocks b = FREE) :
    HasRoom s := ⟨b, h₀, h₁, hb⟩

/-- A first mount with `/a` created, and then one byte written to it. -/
def mountWithA : FS := after zeroEnv (.create (rootPath letterA) 0o100644) firstMount

def mountWithByte : FS := after zeroEnv (.write 0 (fun _ => 120) 1 0) mountWithA

private theorem insideOk_createA : InsideOk firstMount (.create (rootPath letterA) 0o100644) :=
  ⟨⟨(fuseOk_root firstMount letterA (by decide +kernel)).1, trivial, fun _ _ =>
    fits_root (fresh_tree fresh_firstMount) (by decide) (by decide +kernel) (by decide +kernel)
      (by decide +kernel)⟩, trivial⟩

private theorem insideOk_writeA : InsideOk mountWithA (.write 0 (fun _ => 120) 1 0) := by
  have hsize : (mountWithA.inodeTable (mountWithA.openFiles (handleIndex 0)).stIno).stat.stSize =
      0 := by decide +kernel
  have hcount : (mountWithA.inodeTable (mountWithA.openFiles
      (handleIndex 0)).stIno).stat.stBlocks = 0 := by decide +kernel
  refine ⟨⟨trivial, trivial, fun _ _ _ => ?_⟩, trivial⟩
  rw [hsize, hcount]
  refine ⟨le_refl 1, ⟨le_refl 0, by decide, fun n _ hn => Or.inl ?_⟩, by decide,
    fun n hn => Or.inl ?_⟩
  · unfold blocksOf at hn
    omega
  · have hone : toInt64 (0 + ((1 : Nat) : Int)) = 1 := by decide
    rw [hone] at hn
    unfold blocksOf at hn
    omega

/-- `create /a` on a first mount is answered. -/
theorem answers_createA : ∃ r, Answers firstMount (zeroEnv, .create (rootPath letterA) 0o100644) r
    mountWithA := by
  obtain ⟨r, hcreate⟩ := exec_after zeroEnv (.create (rootPath letterA) 0o100644) firstMount
    (by decide +kernel)
  exact ⟨r, insideOk_createA, hcreate,
    hasRoom_at (by decide : (0 : Int) ≤ 5) (by decide +kernel) (by decide +kernel)⟩

/-- So is the write of one byte to it. -/
theorem answers_writeA : ∃ r, Answers mountWithA (zeroEnv, .write 0 (fun _ => 120) 1 0) r
    mountWithByte := by
  obtain ⟨r, hwrite⟩ := exec_after zeroEnv (.write 0 (fun _ => 120) 1 0) mountWithA
    (by decide +kernel)
  exact ⟨r, insideOk_writeA, hwrite,
    hasRoom_at (by decide : (0 : Int) ≤ 5) (by decide +kernel) (by decide +kernel)⟩

/-- Both calls as a script. -/
theorem script_mountWithByte : ∃ rs, Script Answers firstMount
    [(zeroEnv, .create (rootPath letterA) 0o100644), (zeroEnv, .write 0 (fun _ => 120) 1 0)] rs
    mountWithByte := by
  obtain ⟨r, hcreate⟩ := answers_createA
  obtain ⟨r', hwrite⟩ := answers_writeA
  exact ⟨[r, r'], Script.call hcreate (Script.call hwrite (Script.done _))⟩

/-- A first mount whose memory in front of `inode_table` is not zero. -/
theorem answers_within_tables_firstMount : ∃ s' t' rs,
    (s'.inodeTable (-1)).avail = 7 ∧ s'.cwdInode = 5 ∧ Agree firstMount s' ∧
    Script Gives s' [(zeroEnv, .create (rootPath letterA) 0o100644),
      (zeroEnv, .write 0 (fun _ => 120) 1 0)] rs t' ∧ SameAnswers mountWithByte t' := by
  have hagree : Agree firstMount
      { firstMount.modInode (-1) (fun nd => { nd with avail := 7 }) with cwdInode := 5 } := by
    refine { Agree.refl firstMount with node := fun i h₀ _ => ?_ }
    dsimp only
    rw [FS.modInode_inodeTable_ne _ _ _ (by omega)]
    exact SameInode.refl _
  obtain ⟨rs, hscript⟩ := script_mountWithByte
  obtain ⟨t', hscript', _, hsame⟩ := answers_within_tables (Reach.start fresh_firstMount) hagree
    hscript
  exact ⟨_, t', rs, by simp, rfl, hagree, hscript', hsame⟩

end Runs

end Sfs
