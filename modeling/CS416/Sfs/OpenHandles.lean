import CS416.Sfs.Attr

/-!
# Open handles

A session is the file system together with the handles that libfuse holds: a
call of `sfs_create` or `sfs_open` hands one out if it returns 0, and
`sfs_release` takes it back.  `sfs_open` returns the handle itself, so only
handle 0 comes out of it as a success, and `sfs_create` tests an unsigned field
for being negative.
-/

namespace Sfs

open CInt Search Outcome Runs

/-- The calls that hand out handles or take them back. -/
inductive HandleCall
  | create (path : Path) (mode : Nat)
  | openFile (path : Path)
  | release (fh : Int)

/-- The result of a call, the field `fi->fh` after it, and the new state. -/
def HandleCall.run (env : Env) (fi : Int) (s : FS) : HandleCall → Except Stop (Int × Int × FS)
  | .create path mode => sfsCreate env path mode fi s
  | .openFile path => .ok (sfsOpen path fi s)
  | .release fh => .ok ((sfsRelease fh s).1, fh, (sfsRelease fh s).2)

/-- The inode of a path. -/
def inodeAt (s : FS) (path : Path) : Int := (s.nameTable (pathLookup s path)).stIno

/-- The file system, and the handles obtained and not yet released, each with the inode of
the path it was opened on. -/
structure Session where
  fs : FS
  held : List (Int × Int)

/-- The handles held after a call with result `r` and handle `fh`, in the state `t`. -/
def heldAfter (r fh : Int) (t : FS) (held : List (Int × Int)) : HandleCall → List (Int × Int)
  | .create path _ | .openFile path => if r = 0 then (fh, inodeAt t path) :: held else held
  | .release fh => held.filter fun p => p.1 ≠ fh

/-- One call of a session; libfuse releases handles it holds. -/
def SessionStep (a : Session) (c : HandleCall) (b : Session) : Prop :=
  (∀ fh, c = .release fh → fh ∈ a.held.map Prod.fst) ∧
    ∃ env fi r fh, c.run env fi a.fs = .ok (r, fh, b.fs) ∧ b.held = heldAfter r fh b.fs a.held c

/-- Sessions reached from a fresh mount by calls that satisfy `ok` when made. -/
def SessionReached (ok : FS → HandleCall → Prop) : Session → Prop :=
  Reach (fun a => Fresh a.fs ∧ a.held = []) fun a c b => ok a.fs c ∧ SessionStep a c b

/-- All handles are in use. -/
def HandlesFull (s : FS) : Prop := ∀ fh, 0 ≤ fh → fh < maxLink → 0 ≤ (s.openFiles fh).stIno

/-- The call has obtained the handle `fh`, which was free, for the inode of `path`. -/
structure Obtains (s t : FS) (path : Path) (r fh : Int) : Prop where
  result : r = 0
  range : 0 ≤ fh ∧ fh < maxLink
  free : (s.openFiles fh).stIno < 0
  opened : t.openFiles = Function.update s.openFiles fh ⟨1, inodeAt t path, 0⟩
  ino : 0 ≤ inodeAt t path

/-- The call has failed: open handles stay as they are, and if all handles are in use, so do
the tables. -/
structure Refuses (s t : FS) (r : Int) : Prop where
  result : r < 0
  open_eq : ∀ fh, 0 ≤ (s.openFiles fh).stIno → t.openFiles fh = s.openFiles fh
  full : HandlesFull s → t.openFiles = s.openFiles ∧ t.inodeTable = s.inodeTable ∧
    t.nameTable = s.nameTable

/-- The condition on a call: a new file finds a handle and an inode, and a file is opened
while handle 0 is free or no handle is. -/
def HandleRoom (s : FS) : HandleCall → Prop
  | .create path _ =>
      0 < pathLookup s path ∨ pathLookup s path < 0 ∧ 0 ≤ getFh s ∧ HasFreeInode s
  | .openFile path =>
      0 ≤ pathLookup s path → isDirMode (s.inodeTable (inodeAt s path)).stat.stMode = false →
        0 ≤ inodeAt s path ∧ getFh s ≤ 0
  | .release _ => True

section Calls

variable {s t : FS} {env : Env} {path : Path} {mode : Nat} {fi : Int}

/-- The handle that is offered is free. -/
theorem getFh_free (h : 0 ≤ getFh s) : (s.openFiles (getFh s)).stIno < 0 := by
  unfold getFh at h ⊢
  cases hfind : findFrom (fun i => (s.openFiles i).stIno < 0) maxLink.toNat 0 with
  | none =>
      rw [hfind] at h
      exact absurd h (by decide)
  | some fh =>
      obtain ⟨_, _, hfree, _⟩ := findFrom_some hfind
      simpa using hfree

private theorem getFh_full (h : HandlesFull s) : getFh s < 0 := by
  by_contra hge
  have hfree := getFh_free (not_lt.mp hge)
  have hused := h (getFh s) (not_lt.mp hge) (getFh_range s).2
  omega

/-- The handle goes through `fi->fh` unchanged. -/
theorem handleIndex_toU64_getFh (s : FS) : handleIndex (toU64 (getFh s)) = getFh s := by
  have hrange := getFh_range s
  simp only [maxLink] at hrange
  exact toInt64_toU64 (by omega) (by omega)

/-- A call that changes nothing and returns an error. -/
theorem Refuses.same {r : Int} (h : r < 0) : Refuses s s r :=
  ⟨h, fun _ _ => rfl, fun _ => ⟨rfl, rfl, rfl⟩⟩

/-- A name that was not in the table is found where it has been entered. -/
theorem pathLookup_entered {m i : Int} (hnew : pathLookup s path < 0) (h₀ : 0 ≤ m)
    (h₁ : m < maxLink) (hnames : t.nameTable = Function.update s.nameTable m ⟨ALLOCD, i, path⟩) :
    inodeAt t path = i := by
  have hlook : pathLookup t path = m := by
    refine pathLookup_eq h₀ h₁ (by rw [hnames, Function.update_self]) fun j hj₀ hj₁ hj => ?_
    by_contra hjm
    rw [hnames, Function.update_of_ne hjm] at hj
    exact pathLookup_none hnew hj₀ hj₁ hj
  rw [inodeAt, hlook, hnames, Function.update_self]

/-- **`sfs_create` with room for the file.** -/
theorem sfsCreate_handle (hok : HandleRoom s (.create path mode)) :
    Post (sfsCreate env path mode fi s) fun r =>
      Obtains s r.2.2 path r.1 r.2.1 ∨ Refuses s r.2.2 r.1 := by
  unfold sfsCreate
  split
  · exact Post.ok (Or.inr (Refuses.same (show -EEXIST < 0 by decide)))
  rename_i hl
  obtain ⟨hnew, hfh, hfree⟩ := hok.resolve_left hl
  obtain ⟨i, hget, hi₀, _, _⟩ := getInode_of_free hfree
  have hrange := getFh_range s
  have hindex := handleIndex_toU64_getFh s
  have hint := handleIndex_getFh s
  rw [hindex] at hint
  simp only [hget]
  rw [hindex]
  generalize hu : ((s.modInode i _).setOpen _ _).modStat i _ = u
  have huopen : u.openFiles = Function.update s.openFiles (getFh s) ⟨1, i, 0⟩ := by
    rw [← hu]
    rfl
  have hunames : u.nameTable = s.nameTable := by
    rw [← hu]
    rfl
  rcases getMapping_cases u with ⟨m, hmap, hm₀, hm₁, _⟩ | hmap
  · rw [hmap]
    dsimp only
    rw [if_neg (show ¬ m < 0 by omega)]
    split
    · exact Post.error _
    intro r hr
    obtain ⟨t, ht, hrt⟩ := bind_ok.mp hr
    cases hrt
    left
    have hrel := (appendEntry_relinks env _ _ _).post _ ht
    have hnames : t.nameTable = Function.update s.nameTable m ⟨ALLOCD, i, path⟩ := by
      rw [hrel.names, ← hunames]
      simp [enterName]
    have hino := pathLookup_entered hnew hm₀ hm₁ hnames
    have hfield : toU64 (getFh s) = getFh s := by
      simp only [maxLink] at hrange
      exact toU64_of_range hfh (by omega)
    dsimp only
    rw [hfield]
    refine ⟨rfl, ⟨hfh, hrange.2⟩, getFh_free hfh, ?_, by rw [hino]; exact hi₀⟩
    rw [hino, hrel.opens]
    exact huopen
  · rw [hmap]
    dsimp only
    rw [if_pos (by decide)]
    refine Post.ok (Or.inr ⟨show -ENOMEM < 0 by decide, fun fh hused => ?_, fun hfull => ?_⟩)
    · have hne : fh ≠ getFh s := by
        rintro rfl
        have := getFh_free hfh
        omega
      dsimp only
      rw [freeFh, FS.setOpen_openFiles, (freeInode_names i u).2.1, huopen, ← hint,
        Function.update_of_ne hne, Function.update_of_ne hne]
    · have := getFh_full hfull
      omega

/-- **`sfs_open` while handle 0 is free, or none is.** -/
theorem sfsOpen_handle (hok : HandleRoom s (.openFile path)) (fi : Int) :
    Obtains s (sfsOpen path fi s).2.2 path (sfsOpen path fi s).1 (sfsOpen path fi s).2.1 ∨
      Refuses s (sfsOpen path fi s).2.2 (sfsOpen path fi s).1 := by
  unfold sfsOpen
  dsimp only
  split_ifs with hl hd hfh
  · exact Or.inr (Refuses.same (show -ENOENT < 0 by decide))
  · exact Or.inr (Refuses.same (show -EISDIR < 0 by decide))
  · exact Or.inr (Refuses.same (show -ENOMEM < 0 by decide))
  · left
    obtain ⟨hino, hzero⟩ := hok (not_lt.mp hl) (by simpa [inodeAt] using hd)
    have hfh₀ : getFh s = 0 := by omega
    have hfree := getFh_free (not_lt.mp hfh)
    rw [handleIndex_toU64_getFh]
    rw [hfh₀] at hfree ⊢
    exact ⟨rfl, ⟨le_refl 0, show (0 : Int) < maxLink by decide⟩, hfree, rfl, hino⟩

end Calls

/-- The handles held are distinct, in range, and name the inodes they were opened on. -/
structure HeldHandles (a : Session) : Prop where
  distinct : (a.held.map Prod.fst).Nodup
  range : ∀ p ∈ a.held, 0 ≤ p.1 ∧ p.1 < maxLink
  ino : ∀ p ∈ a.held, (a.fs.openFiles p.1).stIno = p.2
  nonneg : ∀ p ∈ a.held, 0 ≤ p.2

section Sessions

variable {a b : Session} {c : HandleCall}

/-- A call that obtains a handle, or is refused. -/
theorem HeldHandles.obtain {path : Path} {r fh : Int} (h : HeldHandles a)
    (hb : b.held = if r = 0 then (fh, inodeAt b.fs path) :: a.held else a.held)
    (ho : Obtains a.fs b.fs path r fh ∨ Refuses a.fs b.fs r) : HeldHandles b := by
  rcases ho with ho | hr
  · rw [if_pos ho.result] at hb
    have hnew : ∀ p ∈ a.held, p.1 ≠ fh := by
      rintro p hp rfl
      have hino := h.ino p hp
      have hfree := ho.free
      have hpos := h.nonneg p hp
      omega
    refine ⟨?_, ?_, ?_, ?_⟩
    · rw [hb, List.map_cons, List.nodup_cons]
      refine ⟨fun hmem => ?_, h.distinct⟩
      obtain ⟨p, hp, heq⟩ := List.mem_map.mp hmem
      exact hnew p hp heq
    · rw [hb]
      rintro p (_ | ⟨_, hp⟩)
      · exact ho.range
      · exact h.range p hp
    · rw [hb, ho.opened]
      rintro p (_ | ⟨_, hp⟩)
      · rw [Function.update_self]
      · rw [Function.update_of_ne (hnew p hp)]
        exact h.ino p hp
    · rw [hb]
      rintro p (_ | ⟨_, hp⟩)
      · exact ho.ino
      · exact h.nonneg p hp
  · rw [if_neg (ne_of_lt hr.result)] at hb
    refine ⟨by rw [hb]; exact h.distinct, by rw [hb]; exact h.range, fun p hp => ?_,
      by rw [hb]; exact h.nonneg⟩
    rw [hb] at hp
    have hino := h.ino p hp
    rw [hr.open_eq p.1 (by rw [hino]; exact h.nonneg p hp)]
    exact hino

/-- **One call** with room keeps the handles apart. -/
theorem HeldHandles.step (h : HeldHandles a) (hok : HandleRoom a.fs c) (hstep : SessionStep a c b) :
    HeldHandles b := by
  obtain ⟨hrel, env, fi, r, fh, hrun, hheld⟩ := hstep
  cases c with
  | create path mode => exact h.obtain hheld (sfsCreate_handle hok _ hrun)
  | openFile path =>
      have heq : sfsOpen path fi a.fs = (r, fh, b.fs) := Except.ok.inj hrun
      have hopen := sfsOpen_handle hok fi
      rw [heq] at hopen
      exact h.obtain hheld hopen
  | release fh' =>
      have heq := Except.ok.inj hrun
      have hfs : b.fs = freeFh fh' a.fs := (congrArg (fun x => x.2.2) heq).symm
      obtain ⟨q, hq, rfl⟩ := List.mem_map.mp (hrel fh' rfl)
      have hrange := h.range q hq
      simp only [maxLink] at hrange
      have hint : toInt q.1 = q.1 := toInt_of_range (by omega) (by omega)
      have hmem : ∀ p ∈ b.held, p ∈ a.held ∧ p.1 ≠ q.1 := fun p hp => by
        rw [hheld] at hp
        simpa [heldAfter] using hp
      refine ⟨?_, fun p hp => h.range p (hmem p hp).1, fun p hp => ?_,
        fun p hp => h.nonneg p (hmem p hp).1⟩
      · rw [hheld]
        exact h.distinct.sublist (List.filter_sublist.map _)
      · rw [hfs, freeFh, hint, FS.setOpen_openFiles, Function.update_of_ne (hmem p hp).2]
        exact h.ino p (hmem p hp).1

private theorem reached_held (h : SessionReached HandleRoom a) : HeldHandles a :=
  h.invariant (I := HeldHandles)
    (fun a ha => by
      obtain ⟨_, hnil⟩ := ha
      refine ⟨by rw [hnil]; exact List.nodup_nil, ?_, ?_, ?_⟩ <;> rw [hnil] <;> simp)
    fun _ _ _ _ hI hstep => hI.step hstep.1 hstep.2

/-- What a session promises: handles held are distinct, below `MAX_LINK` and name their
inodes, and a call either obtains a handle that is not held and returns 0, or fails. -/
def HandlesExclusive (ok : FS → HandleCall → Prop) (a : Session) : Prop :=
  HeldHandles a ∧ ∀ c path env fi r fh t, ok a.fs c →
    ((∃ mode, c = .create path mode) ∨ c = .openFile path) →
    c.run env fi a.fs = .ok (r, fh, t) →
    (r = 0 ∧ 0 ≤ fh ∧ fh < maxLink ∧ fh ∉ a.held.map Prod.fst ∧
      (t.openFiles fh).stIno = inodeAt t path) ∨
    (r < 0 ∧ (HandlesFull a.fs → t.openFiles = a.fs.openFiles ∧
      t.inodeTable = a.fs.inodeTable ∧ t.nameTable = a.fs.nameTable))

/-- **Handles are exclusive** along the sessions whose calls find room. -/
theorem handles_exclusive (h : SessionReached HandleRoom a) : HandlesExclusive HandleRoom a := by
  have hheld := reached_held h
  refine ⟨hheld, fun c path env fi r fh t hok hc hrun => ?_⟩
  have houtcome : Obtains a.fs t path r fh ∨ Refuses a.fs t r := by
    rcases hc with ⟨mode, rfl⟩ | rfl
    · exact sfsCreate_handle hok _ hrun
    · have heq : sfsOpen path fi a.fs = (r, fh, t) := Except.ok.inj hrun
      have hopen := sfsOpen_handle hok fi
      rw [heq] at hopen
      exact hopen
  rcases houtcome with ho | hr
  · left
    refine ⟨ho.result, ho.range.1, ho.range.2, fun hmem => ?_, by
      rw [ho.opened, Function.update_self]⟩
    obtain ⟨p, hp, rfl⟩ := List.mem_map.mp hmem
    have hino := hheld.ino p hp
    have hfree := ho.free
    have hpos := hheld.nonneg p hp
    omega
  · exact Or.inr ⟨hr.result, hr.full⟩

/-- The session after a call; a call that stops leaves it as it was. -/
def Session.next (a : Session) (c : HandleCall) : Session :=
  match c.run zeroEnv 0 a.fs with
  | .ok (r, fh, t) => ⟨t, heldAfter r fh t a.held c⟩
  | .error _ => a

/-- A call that returns leads to a session that can be reached. -/
theorem SessionReached.calls {ok : FS → HandleCall → Prop} {c : HandleCall}
    (h : SessionReached ok a) (hok : ok a.fs c)
    (hheld : ∀ fh, c = .release fh → fh ∈ a.held.map Prod.fst)
    (hret : (c.run zeroEnv 0 a.fs).toBool = true) : SessionReached ok (a.next c) := by
  refine Reach.next h (c := c) ⟨hok, hheld, ?_⟩
  cases hrun : c.run zeroEnv 0 a.fs with
  | ok x =>
      have hnext : a.next c = ⟨x.2.2, heldAfter x.1 x.2.1 x.2.2 a.held c⟩ := by
        simp only [Session.next, hrun]
      rw [hnext]
      exact ⟨zeroEnv, 0, x.1, x.2.1, hrun, rfl⟩
  | error e => simp [hrun, Except.toBool] at hret

/-- The session of a first mount. -/
def firstSession : Session := ⟨firstMount, []⟩

private theorem reached_firstSession (ok : FS → HandleCall → Prop) :
    SessionReached ok firstSession :=
  Reach.start ⟨fresh_firstMount, rfl⟩

/-- A session creates `/a` and `/b`, gives handle 0 back and opens `/b`; handles 0 and 1 are then
both on inode 2. -/
theorem handles_exclusive_two :
    ∃ a, a.held = [(0, 2), (1, 2)] ∧ HandlesExclusive HandleRoom a := by
  have hfirst := (reached_firstSession HandleRoom).calls (c := .create (rootPath letterA) 0o100644)
    (Or.inr ⟨by decide +kernel, by decide +kernel, 127, by decide, by decide, by decide +kernel⟩)
    (fun _ hc => by cases hc) (by decide +kernel)
  have hsecond := hfirst.calls (c := .create (rootPath letterB) 0o100644)
    (Or.inr ⟨by decide +kernel, by decide +kernel, 127, by decide, by decide, by decide +kernel⟩)
    (fun _ hc => by cases hc) (by decide +kernel)
  have hback := hsecond.calls (c := .release 0) trivial
    (fun fh hc => by
      obtain rfl := HandleCall.release.inj hc
      decide +kernel) (by decide +kernel)
  have hopen := hback.calls (c := .openFile (rootPath letterB))
    (fun _ _ => ⟨by decide +kernel, by decide +kernel⟩) (fun _ hc => by cases hc)
    (by decide +kernel)
  exact ⟨_, by decide +kernel, handles_exclusive hopen⟩

/-- `create /a` and `open /a`: the second handle is 1, and `sfs_open` returns it. -/
theorem second_open_fails :
    ¬ ∀ a, SessionReached (fun _ _ => True) a → HandlesExclusive (fun _ _ => True) a := by
  intro h
  have hcreate : SessionReached (fun _ _ => True)
      (firstSession.next (.create (rootPath letterA) 0o100644)) :=
    (reached_firstSession _).calls trivial (fun _ hc => by cases hc) (by decide +kernel)
  generalize ha : firstSession.next (.create (rootPath letterA) 0o100644) = a at hcreate
  have hone : (sfsOpen (rootPath letterA) 0 a.fs).1 = 1 := by
    rw [← ha]
    decide +kernel
  generalize hopen : sfsOpen (rootPath letterA) 0 a.fs = x at hone
  have hrun : (HandleCall.openFile (rootPath letterA)).run zeroEnv 0 a.fs =
      .ok (x.1, x.2.1, x.2.2) := congrArg Except.ok hopen
  have hopen := (h a hcreate).2 _ (rootPath letterA) zeroEnv 0 _ _ _ trivial (Or.inr rfl) hrun
  rw [hone] at hopen
  rcases hopen with ⟨hzero, _⟩ | ⟨hneg, _⟩
  · exact absurd hzero (by decide)
  · exact absurd hneg (by decide)

end Sessions

end Sfs
