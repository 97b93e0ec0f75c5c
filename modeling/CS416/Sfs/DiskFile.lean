import CS416.Lib.ByteFile
import CS416.Lib.Script
import CS416.Sfs.Disk

/-!
# The disk file

`block.c` keeps block `n` at offset `512 * n` of a file.  `Device` is its global
`diskfile` with that file, and `Store` is what its users rely on: a disk, and
how many blocks of it the file has.  The two give the same answers.

`block.c` does not include the header that declares `pread` and `pwrite`, so they
take the `int` offset as its 32 bits without a sign.  A block with a negative
number is moved like any other one, at an offset just below 4 GB.

`disk_close` closes the descriptor and leaves `diskfile` as it is, so that
`disk_open` opens nothing again before the next process.

`pread` and `pwrite` fail on a descriptor that is not open, and move what there
is otherwise.
-/

namespace Sfs

open CInt ByteFile

/-- The global `diskfile`, whether that descriptor is open, and the file. -/
structure Device where
  diskfile : Int
  isOpen : Bool
  file : List UInt8

/-- `disk_open`; `fd` is what `open` returns, and the program exits where that fails. -/
def diskOpen (fd : Int) (v : Device) : Option Device :=
  if 0 ≤ v.diskfile then some v
  else if fd < 0 then none
  else some { v with diskfile := fd, isOpen := true }

/-- `disk_close` -/
def diskClose (v : Device) : Device :=
  if 0 ≤ v.diskfile then { v with isOpen := false } else v

/-- `block_num * BLOCK_SIZE`, as `pread` and `pwrite` take it. -/
def blockOffset (blockNum : Int) : Nat := (blockNum * blockSize % 4294967296).toNat

/-- `block_read`: what it returns, and the buffer it leaves behind. -/
def Device.blockRead (v : Device) (blockNum : Int) (buf : Block) : Int × Block :=
  if v.isOpen = true then
    let bytes := pread v.file 512 (blockOffset blockNum)
    if bytes.length = 0 then (0, Block.zero)
    else (bytes.length, Block.ofFn fun j =>
      if j < bytes.length then itemAt bytes j else buf.byte j)
  else (-1, Block.zero)

/-- `block_write` -/
def Device.blockWrite (v : Device) (blockNum : Int) (buf : Block) : Int × Device :=
  if v.isOpen = true then
    (512, { v with file := pwrite v.file (List.ofFn buf.bytes) (blockOffset blockNum) })
  else (-1, v)

/-- What happens to the disk file.  A new process starts with its globals as they were. -/
inductive DiskCall
  | opens (fd : Int)
  | closes
  | reads (blockNum : Int) (buf : Block)
  | writes (blockNum : Int) (buf : Block)
  | restarts

/-- What a call gives back. -/
inductive DiskAnswer
  | done
  | got (retstat : Int) (buf : Block)
  | put (retstat : Int)

def Device.exec (v : Device) : DiskCall → Option (DiskAnswer × Device)
  | .opens fd => (diskOpen fd v).map fun v => (.done, v)
  | .closes => some (.done, diskClose v)
  | .reads n buf => some (.got (v.blockRead n buf).1 (v.blockRead n buf).2, v)
  | .writes n buf => some (.put (v.blockWrite n buf).1, (v.blockWrite n buf).2)
  | .restarts => some (.done, { v with diskfile := -1, isOpen := false })

/-- Where a process is with the disk file. -/
inductive Phase
  | before
  | opened
  | closed
  deriving DecidableEq

/-- The place of a block in the file: the negative numbers come behind the others. -/
def place (n : Int) : Nat := (n % 8388608).toNat

/-- The disk as its users see it, and how many blocks the file has. -/
structure Store where
  phase : Phase
  disk : Disk
  covered : Nat

def Store.exec (s : Store) : DiskCall → Option (DiskAnswer × Store)
  | .opens fd =>
    if s.phase = .before then
      if fd < 0 then none else some (.done, { s with phase := .opened })
    else some (.done, s)
  | .closes =>
    if s.phase = .before then some (.done, s) else some (.done, { s with phase := .closed })
  | .reads n _ =>
    if s.phase = .opened then some (.got (if place n < s.covered then 512 else 0) (s.disk n), s)
    else some (.got (-1) Block.zero, s)
  | .writes n buf =>
    if s.phase = .opened then
      some (.put 512, { s with
        disk := blockWrite s.disk n buf, covered := max s.covered (place n + 1) })
    else some (.put (-1), s)
  | .restarts => some (.done, { s with phase := .before })

/-- `block_num * BLOCK_SIZE` is an `int`. -/
def OffsetFits (n : Int) : Prop := -4194304 ≤ n ∧ n < 4194304

instance (n : Int) : Decidable (OffsetFits n) := inferInstanceAs (Decidable (_ ∧ _))

/-- The offset of the call does not overflow. -/
def DiskCall.InRange : DiskCall → Prop
  | .reads n _ | .writes n _ => OffsetFits n
  | _ => True

def DeviceStep (v : Device) (c : DiskCall) (o : DiskAnswer) (w : Device) : Prop :=
  c.InRange ∧ v.exec c = some (o, w)

def StoreStep (s : Store) (c : DiskCall) (o : DiskAnswer) (t : Store) : Prop :=
  c.InRange ∧ s.exec c = some (o, t)

/-- The file is made of whole blocks, and holds the disk. -/
structure Represents (v : Device) (s : Store) : Prop where
  opened : s.phase = .opened ↔ v.isOpen = true
  before : s.phase = .before ↔ v.diskfile < 0
  length : v.file.length = 512 * s.covered
  blocks : ∀ n, OffsetFits n → (s.disk n).bytes = blockAt 512 v.file (place n)

/-- Before the first process the file is empty, or there is none. -/
def newDevice : Device where
  diskfile := -1
  isOpen := false
  file := []

section Answers

variable {v w : Device} {s t : Store} {n : Int} {buf : Block} {c : DiskCall} {o : DiskAnswer}

private theorem blockOffset_eq (n : Int) : blockOffset n = 512 * place n := by
  unfold blockOffset place
  simp only [blockSize]
  omega

/-- Different blocks lie at different places. -/
theorem place_ne {m : Int} (hm : OffsetFits m) (hn : OffsetFits n) (hne : m ≠ n) :
    place m ≠ place n := by
  unfold OffsetFits at hm hn
  unfold place
  omega

/-- A block that the file does not reach is zero. -/
theorem Represents.disk_behind (h : Represents v s) (hn : OffsetFits n)
    (hplace : s.covered ≤ place n) : s.disk n = Block.zero := by
  refine Block.ext ?_
  rw [h.blocks n hn, blockAt_of_le h.length hplace]
  rfl

/-- **What `block_read` returns.** -/
theorem Represents.blockRead (h : Represents v s) (hn : OffsetFits n)
    (hphase : s.phase = .opened) :
    v.blockRead n buf = (if place n < s.covered then 512 else 0, s.disk n) := by
  have hlength := length_pread_block (n := place n) h.length
  unfold Device.blockRead
  dsimp only
  rw [if_pos (h.opened.mp hphase), blockOffset_eq, hlength]
  by_cases hk : place n < s.covered
  · rw [if_pos hk, if_neg (by decide), if_pos hk]
    refine Prod.ext rfl (Block.ext_byte fun j hj => ?_)
    rw [Block.byte_ofFn _ hj, if_pos hj, Block.byte, dif_pos hj, h.blocks n hn]
    exact itemAt_pread_block ⟨j, hj⟩
  · rw [if_neg hk, if_pos rfl, if_neg hk, h.disk_behind hn (not_lt.mp hk)]

/-- The blocks of the file system are read as the model of the disk reads them. -/
theorem Represents.blockRead_disk (h : Represents v s) (hn : OffsetFits n)
    (hphase : s.phase = .opened) (hlt : n < numBlocks) :
    (v.blockRead n buf).2 = Sfs.blockRead s.disk n := by
  rw [h.blockRead hn hphase, Sfs.blockRead_of_lt hlt]

/-- **`block_write`** writes the block of the disk. -/
theorem Represents.blockWrite (h : Represents v s) (hn : OffsetFits n)
    (hphase : s.phase = .opened) :
    (v.blockWrite n buf).1 = 512 ∧ Represents (v.blockWrite n buf).2 { s with
      disk := Sfs.blockWrite s.disk n buf, covered := max s.covered (place n + 1) } := by
  have hwrite : v.blockWrite n buf =
      (512, { v with file := pwrite v.file (List.ofFn buf.bytes) (512 * place n) }) := by
    unfold Device.blockWrite
    rw [if_pos (h.opened.mp hphase), blockOffset_eq]
  rw [hwrite]
  refine ⟨rfl, h.opened, h.before, length_pwrite_block _ (by decide) h.length, ?_⟩
  intro m hm
  show (Sfs.blockWrite s.disk n buf m).bytes = _
  rw [Sfs.blockWrite]
  by_cases hmn : m = n
  · rw [hmn, Function.update_self]
    exact (blockAt_pwrite_self buf.bytes v.file (place n)).symm
  · rw [Function.update_of_ne hmn]
    exact (h.blocks m hm).trans
      (blockAt_pwrite_ne buf.bytes v.file (place_ne hm hn hmn)).symm

/-- `disk_open` on both sides. -/
theorem Represents.opens {fd : Int} (h : Represents v s)
    (hexec : v.exec (.opens fd) = some (o, w)) :
    ∃ t, s.exec (.opens fd) = some (o, t) ∧ Represents w t := by
  obtain ⟨w', hopen, heq⟩ := Option.map_eq_some_iff.mp hexec
  obtain ⟨rfl, rfl⟩ := Prod.mk.inj heq
  unfold diskOpen at hopen
  dsimp only [Store.exec]
  by_cases hbefore : s.phase = .before
  · have hneg := h.before.mp hbefore
    rw [if_neg (by omega)] at hopen
    obtain ⟨hfd, hopen⟩ := Option.ite_none_left_eq_some.mp hopen
    obtain rfl := Option.some.inj hopen
    rw [if_pos hbefore, if_neg hfd]
    exact ⟨_, rfl, iff_of_true rfl rfl, iff_of_false (by simp) hfd, h.length, h.blocks⟩
  · have hpos := mt h.before.mpr hbefore
    rw [if_pos (by omega)] at hopen
    obtain rfl := Option.some.inj hopen
    rw [if_neg hbefore]
    exact ⟨s, rfl, h⟩

/-- `disk_close` on both sides. -/
theorem Represents.closes (h : Represents v s) (hexec : v.exec .closes = some (o, w)) :
    ∃ t, s.exec .closes = some (o, t) ∧ Represents w t := by
  obtain ⟨rfl, rfl⟩ := Prod.mk.inj (Option.some.inj hexec)
  dsimp only [Store.exec]
  unfold diskClose
  by_cases hbefore : s.phase = .before
  · have hneg := h.before.mp hbefore
    rw [if_pos hbefore, if_neg (by omega)]
    exact ⟨s, rfl, h⟩
  · have hpos := mt h.before.mpr hbefore
    rw [if_neg hbefore, if_pos (by omega)]
    exact ⟨_, rfl, iff_of_false (by simp) (by simp), iff_of_false (by simp) hpos, h.length,
      h.blocks⟩

/-- **The disk file is the disk**, call by call. -/
theorem Represents.exec (h : Represents v s) (hrange : c.InRange)
    (hexec : v.exec c = some (o, w)) : ∃ t, s.exec c = some (o, t) ∧ Represents w t := by
  cases c with
  | opens fd => exact h.opens hexec
  | closes => exact h.closes hexec
  | reads n buf =>
      obtain ⟨rfl, rfl⟩ := Prod.mk.inj (Option.some.inj hexec)
      refine ⟨s, ?_, h⟩
      dsimp only [Store.exec]
      split
      · rw [h.blockRead hrange ‹_›]
      · rw [Device.blockRead, if_neg (mt h.opened.mpr ‹_›)]
  | writes n buf =>
      obtain ⟨rfl, rfl⟩ := Prod.mk.inj (Option.some.inj hexec)
      dsimp only [Store.exec]
      split
      · obtain ⟨hret, hnext⟩ := h.blockWrite hrange ‹_›
        rw [hret]
        exact ⟨_, rfl, hnext⟩
      · rw [Device.blockWrite, if_neg (mt h.opened.mpr ‹_›)]
        exact ⟨s, rfl, h⟩
  | restarts =>
      obtain ⟨rfl, rfl⟩ := Prod.mk.inj (Option.some.inj hexec)
      exact ⟨_, rfl, iff_of_false (by simp) (by simp), iff_of_true rfl (Int.negSucc_lt_zero 0),
        h.length, h.blocks⟩

end Answers

/-- **The disk file refines the disk.**  Whatever the order of the calls and restarts, they get
the answers of the disk. -/
theorem device_answers_as_disk {v w : Device} {s : Store} {calls : List DiskCall}
    {answers : List DiskAnswer} (h : Represents v s)
    (hrun : Runs.Script DeviceStep v calls answers w) :
    ∃ t, Runs.Script StoreStep s calls answers t ∧ Represents w t :=
  hrun.simulate (I := fun _ => True) (fun _ _ _ _ _ _ => trivial)
    (fun _ _ _ _ _ _ hR hstep =>
      let ⟨t, hexec, hnext⟩ := hR.exec hstep.1 hstep.2
      ⟨t, ⟨hstep.1, hexec⟩, hnext⟩) trivial h

/-- A write that returned 512: the block and what was written. -/
def writeOf : DiskCall × DiskAnswer → Option (Int × Block)
  | (.writes m buf, .put retstat) => if retstat = 512 then some (m, buf) else none
  | _ => none

/-- The successful writes of a history, oldest first. -/
def written (calls : List DiskCall) (answers : List DiskAnswer) : List (Int × Block) :=
  (calls.zip answers).filterMap writeOf

/-- What was written last to block `n`. -/
def lastWrite (n : Int) (first : Block) (writes : List (Int × Block)) : Block :=
  writes.foldl (fun last x => if x.1 = n then x.2 else last) first

/-- How many blocks the file has: up to the last place that was written. -/
def reach (first : Nat) (writes : List (Int × Block)) : Nat :=
  writes.foldl (fun k x => max k (place x.1 + 1)) first

private theorem newDevice_represents : Represents newDevice ⟨.before, fun _ => Block.zero, 0⟩ :=
  ⟨iff_of_false (by simp) (by simp [newDevice]), iff_of_true rfl (Int.negSucc_lt_zero 0),
    rfl, fun _ _ => rfl⟩

/-- A process writes the blocks 5 and `-1` and ends, and the next one opens the file. -/
def twoProcesses : List DiskCall :=
  [.opens 3, .writes 5 (Block.ofFn fun _ => 7), .writes (-1) (Block.ofFn fun _ => 9), .closes,
    .restarts, .opens 4]

private theorem twoProcesses_run : ∃ w : Device, w.isOpen = true ∧
    Runs.Script DeviceStep newDevice twoProcesses
      [.done, .put 512, .put 512, .done, .done, .done] w :=
  ⟨_, rfl, .call ⟨trivial, rfl⟩ <| .call ⟨⟨by decide, by decide⟩, rfl⟩ <|
    .call ⟨⟨by decide, by decide⟩, rfl⟩ <| .call ⟨trivial, rfl⟩ <| .call ⟨trivial, rfl⟩ <|
    .call ⟨trivial, rfl⟩ <| .done _⟩

/-- The calls of the two processes are answered as by the disk. -/
theorem device_answers_as_disk_two : ∃ t, Runs.Script StoreStep ⟨.before, fun _ => Block.zero, 0⟩
    twoProcesses [.done, .put 512, .put 512, .done, .done, .done] t := by
  obtain ⟨w, _, hrun⟩ := twoProcesses_run
  obtain ⟨t, hscript, _⟩ := device_answers_as_disk newDevice_represents hrun
  exact ⟨t, hscript⟩

section Histories

variable {v w : Device} {s t : Store} {n : Int} {buf : Block} {c : DiskCall} {o : DiskAnswer}
  {calls : List DiskCall} {answers : List DiskAnswer}

/-- A call writes one block of the disk, or none. -/
theorem StoreStep.cases (h : StoreStep s c o t) :
    writeOf (c, o) = none ∧ t.disk = s.disk ∧ t.covered = s.covered ∨
      ∃ m buf, writeOf (c, o) = some (m, buf) ∧
        t.disk = blockWrite s.disk m buf ∧ t.covered = max s.covered (place m + 1) := by
  obtain ⟨_, hexec⟩ := h
  cases c with
  | opens fd =>
      dsimp only [Store.exec] at hexec
      left
      split at hexec
      · obtain ⟨_, hexec⟩ := Option.ite_none_left_eq_some.mp hexec
        obtain ⟨rfl, rfl⟩ := Prod.mk.inj (Option.some.inj hexec)
        exact ⟨rfl, rfl, rfl⟩
      · obtain ⟨rfl, rfl⟩ := Prod.mk.inj (Option.some.inj hexec)
        exact ⟨rfl, rfl, rfl⟩
  | closes =>
      dsimp only [Store.exec] at hexec
      left
      split at hexec
      · obtain ⟨rfl, rfl⟩ := Prod.mk.inj (Option.some.inj hexec)
        exact ⟨rfl, rfl, rfl⟩
      · obtain ⟨rfl, rfl⟩ := Prod.mk.inj (Option.some.inj hexec)
        exact ⟨rfl, rfl, rfl⟩
  | reads m buf =>
      dsimp only [Store.exec] at hexec
      left
      split at hexec
      · obtain ⟨rfl, rfl⟩ := Prod.mk.inj (Option.some.inj hexec)
        exact ⟨rfl, rfl, rfl⟩
      · obtain ⟨rfl, rfl⟩ := Prod.mk.inj (Option.some.inj hexec)
        exact ⟨rfl, rfl, rfl⟩
  | writes m buf =>
      dsimp only [Store.exec] at hexec
      split at hexec
      · obtain ⟨rfl, rfl⟩ := Prod.mk.inj (Option.some.inj hexec)
        exact Or.inr ⟨m, buf, rfl, rfl, rfl⟩
      · obtain ⟨rfl, rfl⟩ := Prod.mk.inj (Option.some.inj hexec)
        exact Or.inl ⟨rfl, rfl, rfl⟩
  | restarts =>
      obtain ⟨rfl, rfl⟩ := Prod.mk.inj (Option.some.inj hexec)
      exact Or.inl ⟨rfl, rfl, rfl⟩

/-- The disk after a history. -/
theorem store_history (hrun : Runs.Script StoreStep s calls answers t) :
    t.disk n = lastWrite n (s.disk n) (written calls answers) ∧
      t.covered = reach s.covered (written calls answers) := by
  induction hrun with
  | done s => exact ⟨rfl, rfl⟩
  | @call s u t c o calls answers hstep hrest ih =>
      obtain ⟨hdisk, hcovered⟩ := ih
      have hcons : written (c :: calls) (o :: answers) =
          (writeOf (c, o)).toList ++ written calls answers := by
        unfold written
        rw [List.zip_cons_cons, List.filterMap_cons]
        cases writeOf (c, o) <;> rfl
      rw [hcons]
      rcases hstep.cases with ⟨hnone, hsame, hreach⟩ | ⟨m, buf, hsome, hwrite, hreach⟩
      · rw [hnone, Option.toList_none, List.nil_append, ← hsame, ← hreach]
        exact ⟨hdisk, hcovered⟩
      · rw [hsome, Option.toList_some]
        rw [hwrite, blockWrite, Function.update_apply] at hdisk
        rw [hreach] at hcovered
        refine ⟨hdisk.trans ?_, hcovered⟩
        simp only [lastWrite, List.cons_append, List.nil_append, List.foldl_cons, eq_comm]

end Histories

/-- **A block is what was written to it last.**  After any history of the disk file, through
restarts, `block_read` gives the last write to the block or zeros, and returns 512 for the blocks
up to the last place written and 0 behind it. -/
theorem block_read_last_write {v : Device} {calls : List DiskCall} {answers : List DiskAnswer}
    (hrun : Runs.Script DeviceStep newDevice calls answers v) (hopen : v.isOpen = true) {n : Int}
    (hn : OffsetFits n) (buf : Block) :
    v.blockRead n buf = (if place n < reach 0 (written calls answers) then 512 else 0,
      lastWrite n Block.zero (written calls answers)) := by
  obtain ⟨t, hscript, h⟩ := device_answers_as_disk newDevice_represents hrun
  obtain ⟨hdisk, hcovered⟩ := store_history (n := n) hscript
  rw [h.blockRead hn (h.opened.mpr hopen), hcovered, hdisk]

/-- The second process reads both blocks, and zeros in between. -/
theorem block_read_last_write_two : ∃ v : Device,
    v.blockRead 5 Block.zero = (512, Block.ofFn fun _ => 7) ∧
    v.blockRead (-1) Block.zero = (512, Block.ofFn fun _ => 9) ∧
    v.blockRead 40000 (Block.ofFn fun _ => 1) = (512, Block.zero) := by
  obtain ⟨v, hopen, hrun⟩ := twoProcesses_run
  have hread := fun n (hn : OffsetFits n) => block_read_last_write hrun hopen hn
  exact ⟨v, hread 5 ⟨by decide, by decide⟩ _, hread (-1) ⟨by decide, by decide⟩ _,
    hread 40000 ⟨by decide, by decide⟩ _⟩

/-- One call on a closed disk file. -/
theorem closed_step {v w : Device} {c : DiskCall} {o : DiskAnswer} (hstep : DeviceStep v c o w)
    (hopened : 0 ≤ v.diskfile) (hclosed : v.isOpen = false) (hc : c ≠ .restarts) :
    w = v ∧ (o = .done ∨ o = .got (-1) Block.zero ∨ o = .put (-1)) := by
  obtain ⟨_, hexec⟩ := hstep
  have hout : ¬ v.isOpen = true := by simp [hclosed]
  cases c with
  | opens fd =>
      obtain ⟨u, hu, heq⟩ := Option.map_eq_some_iff.mp hexec
      obtain ⟨rfl, rfl⟩ := Prod.mk.inj heq
      rw [diskOpen, if_pos hopened] at hu
      exact ⟨(Option.some.inj hu).symm, Or.inl rfl⟩
  | closes =>
      obtain ⟨rfl, rfl⟩ := Prod.mk.inj (Option.some.inj hexec)
      rw [diskClose, if_pos hopened, ← hclosed]
      exact ⟨rfl, Or.inl rfl⟩
  | reads n buf =>
      obtain ⟨rfl, rfl⟩ := Prod.mk.inj (Option.some.inj hexec)
      have hread : v.blockRead n buf = (-1, Block.zero) := if_neg hout
      rw [hread]
      exact ⟨rfl, Or.inr (Or.inl rfl)⟩
  | writes n buf =>
      obtain ⟨rfl, rfl⟩ := Prod.mk.inj (Option.some.inj hexec)
      have hwrite : v.blockWrite n buf = (-1, v) := if_neg hout
      rw [hwrite]
      exact ⟨rfl, Or.inr (Or.inr rfl)⟩
  | restarts => exact absurd rfl hc

/-- **A closed disk file stays closed** until the process ends: the calls do nothing, and those
that read or write return an error. -/
theorem closed_for_good {v w : Device} {calls : List DiskCall} {answers : List DiskAnswer}
    (hrun : Runs.Script DeviceStep v calls answers w) (hopened : 0 ≤ v.diskfile)
    (hclosed : v.isOpen = false) (hrestarts : .restarts ∉ calls) :
    w = v ∧ ∀ o ∈ answers, o = .done ∨ o = .got (-1) Block.zero ∨ o = .put (-1) := by
  induction hrun with
  | done v => exact ⟨rfl, fun o ho => by cases ho⟩
  | call hstep hrest ih =>
      obtain ⟨hc, hcalls⟩ := not_or.mp (mt List.mem_cons.mpr hrestarts)
      obtain ⟨rfl, ho⟩ := closed_step hstep hopened hclosed (Ne.symm hc)
      obtain ⟨hend, hanswers⟩ := ih hopened hclosed hcalls
      exact ⟨hend, List.forall_mem_cons.mpr ⟨ho, hanswers⟩⟩

end Sfs
