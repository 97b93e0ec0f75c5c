import CS416.Sfs.FreshState

/-!
# Attributes

`sfs_getattr` takes the attributes of a path from `inode_table[mapping]`, not
from the inode that the mapping names.  The two agree as long as every new
name gets the same number in both tables.
-/

namespace Sfs

open Runs

/-- A new name takes the same number in `name_table` and in `inode_table`. -/
def Lockstep (s : FS) : Call → Prop
  | .create path _ | .mkdir path _ =>
      pathLookup s path < 0 → 0 ≤ (getMapping s).1 → (getInode s).1 = (getMapping s).1
  | _ => True

/-- The two numberings agree. -/
def Aligned (s : FS) : Prop := ∀ m, Entry s m → inoOf s m = m

private theorem aligned_fresh {s : FS} (h : FreshState s) : Aligned s := by
  intro m hm
  rw [(h.entry_iff m).mp hm, inoOf, h.root_name]

/-- **One call** made in lockstep keeps mappings and inodes aligned. -/
theorem Aligned.exec {s t : FS} {c : Call} (ha : Aligned s) (h : Tree s)
    (hok : FuseOk s c) (hlock : Lockstep s c) (hret : Returns s c t) : Aligned t := by
  rcases exec_tree h hok hret with hs | ⟨path, k, hc, hins⟩ | ⟨m, k, her⟩
  · intro m hm
    have hm' : Entry s m := by simpa [Entry, hs.names] using hm
    rw [inoOf, hs.names]
    exact ha m hm'
  · have hnew : pathLookup s path < 0 := by
      by_contra hl
      obtain ⟨hentry, hpath⟩ := h.lookup_entry hins.parent.2.2.ne_nil (by omega)
      exact hins.fresh _ hentry hpath
    have heq : (getInode s).1 = (getMapping s).1 := by
      obtain ⟨mode, rfl | rfl⟩ := hc
      · exact hlock hnew hins.slot.1
      · exact hlock hnew hins.slot.1
    intro j hj
    rcases (Tree.inserts_entry hins j).mp hj with rfl | hj
    · simpa [inoOf, hins.names] using heq
    · rw [(Tree.inserts_old hins hj).2.2]
      exact ha j hj
  · intro j hj
    obtain ⟨hjm, hj⟩ := (Tree.erases_entry her j).mp hj
    rw [(Tree.erases_old her hjm).2]
    exact ha j hj

private theorem reached_aligned {s : FS} (h : Reached (fun s c => FuseOk s c ∧ Lockstep s c) s) :
    Tree s ∧ Aligned s :=
  h.invariant (I := fun s => Tree s ∧ Aligned s)
    (fun _ hs => ⟨fresh_tree hs, aligned_fresh (fresh_state hs)⟩)
    fun _ _ _ _ ⟨htree, ha⟩ ⟨⟨hok, hlock⟩, hret⟩ =>
      ⟨htree.exec hok hret, ha.exec htree hok hlock hret⟩

/-- **`sfs_getattr` names the right inode** along the runs in lockstep. -/
theorem getattr_of_lockstep {s : FS}
    (h : Reached (fun s c => FuseOk s c ∧ Lockstep s c) s) (env : Env) (path : Path)
    (hpath : ∃ m, Entry s m ∧ pathOf s m = path) :
    sfsGetattr env path s =
      (0, (s.inodeTable (s.nameTable (pathLookup s path)).stIno).stat) := by
  obtain ⟨htree, ha⟩ := reached_aligned h
  obtain ⟨m, hm, rfl⟩ := hpath
  have hm₀ := hm.1
  have hino : (s.nameTable m).stIno = m := ha m hm
  unfold sfsGetattr
  simp only [htree.lookup hm]
  rw [if_neg (show ¬ m < 0 by omega), hino]

/-- A run in lockstep: one new directory. -/
theorem getattr_of_lockstep_mkdir :
    ∃ s, Entry s 1 ∧ pathOf s 1 = rootPath letterA ∧
      sfsGetattr zeroEnv (rootPath letterA) s =
        (0, (s.inodeTable (s.nameTable (pathLookup s (rootPath letterA))).stIno).stat) := by
  have hok : FuseOk firstMount (.mkdir (rootPath letterA) 0o755) :=
    (fuseOk_root firstMount letterA (by decide +kernel)).2
  have hlock : Lockstep firstMount (.mkdir (rootPath letterA) 0o755) :=
    fun _ _ => by decide +kernel
  have hreached := reached_after zeroEnv (.mkdir (rootPath letterA) 0o755)
    (reached_firstMount fun s c => FuseOk s c ∧ Lockstep s c) ⟨hok, hlock⟩ (by decide +kernel)
  have hentry : Entry (after zeroEnv (.mkdir (rootPath letterA) 0o755) firstMount) 1 := by
    decide +kernel
  have hpath : pathOf (after zeroEnv (.mkdir (rootPath letterA) 0o755) firstMount) 1 =
      rootPath letterA := by decide +kernel
  exact ⟨_, hentry, hpath,
    getattr_of_lockstep hreached zeroEnv (rootPath letterA) ⟨1, hentry, hpath⟩⟩

/-- `mkdir /a; rmdir /a; create /b`: the inode of `/a` is not given back, so `/b`
gets entry 1 and inode 2. -/
theorem getattr_other_inode :
    ¬ ∀ s, Reached FuseOk s → ∀ env path, (∃ m, Entry s m ∧ pathOf s m = path) →
      sfsGetattr env path s =
        (0, (s.inodeTable (s.nameTable (pathLookup s path)).stIno).stat) := by
  intro h
  have hmkdir := reached_after zeroEnv (.mkdir (rootPath letterA) 0o755)
    (reached_firstMount FuseOk) (fuseOk_root _ letterA (by decide +kernel)).2
    (by decide +kernel)
  have hrmdir := reached_after zeroEnv (.rmdir (rootPath letterA)) hmkdir
    ⟨by decide, 1, by decide +kernel, by decide +kernel, by decide +kernel⟩ (by decide +kernel)
  have hcreate := reached_after zeroEnv (.create (rootPath letterB) 0o100644) hrmdir
    (fuseOk_root _ letterB (by decide +kernel)).1 (by decide +kernel)
  exact absurd
    (h _ hcreate zeroEnv (rootPath letterB) ⟨1, by decide +kernel, by decide +kernel⟩)
    (by decide +kernel)

end Sfs
