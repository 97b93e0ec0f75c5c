import CS416.Sfs.KeyScan

/-!
# Unmounting between calls

Between any two calls the file system may be unmounted and mounted again: the
tables go to the disk as bytes, the process ends, and a new one, with other
memory around its tables, reads them back.  A script of calls gets the answers
it would have got without.
-/

namespace Sfs

open CInt Memory Outcome Runs

/-- What an unmount and the next mount find in memory: the bytes behind the strings of
`name_table`, the two buffers and the new process. -/
structure Restart where
  stale : Nat → Nat → UInt8
  cycle : Cycle
  mem : FS

/-- `sfs_destroy`, then `sfs_init` in a new process, on the state that the calls work on. -/
def remount (p : Restart) (s : FS) : Option FS :=
  (p.cycle.run (encode p.stale s, s.disk)).map fun x => decode p.mem x.1 x.2

/-- What happens to a file system: a call, or an unmount with the mount that follows. -/
inductive Event
  | call (env : Env) (c : Call)
  | remount (p : Restart)

/-- An event, and the answer it gives. -/
def Serves (s : FS) : Event → Int → FS → Prop
  | .call env c, r, t => exec env c s = .ok (r, t)
  | .remount p, r, t => remount p s = some t ∧ r = 0

/-- The same for a file system that stays mounted, within its tables, whenever an unmount
would leave an image that the next mount can find. -/
def Stays (s : FS) : Event → Int → FS → Prop
  | .call env c, r, t => EnvTyped env ∧ CallTyped c ∧ Answers s (env, c) r t
  | .remount p, r, t => KeyFree p.stale s ∧ t = s ∧ r = 0

section Agreement

variable {s s' t : FS} {stale : Nat → Nat → UInt8}

/-- States that agree with a third one. -/
theorem Agree.trans (h : Agree s s') (h' : Agree s' t) : Agree s t where
  node i h₀ h₁ := (h.node i h₀ h₁).trans (h'.node i h₀ h₁)
  names m h₀ h₁ := (h'.names m h₀ h₁).trans (h.names m h₀ h₁)
  opens fh h₀ h₁ := (h'.opens fh h₀ h₁).trans (h.opens fh h₀ h₁)
  used b h₀ h₁ := (h'.used b h₀ h₁).trans (h.used b h₀ h₁)
  rootInode := h'.rootInode.trans h.rootInode
  rootBlock := h'.rootBlock.trans h.rootBlock
  system := h'.system.trans h.system
  disk n hn := (h'.disk n (h.system ▸ hn)).trans (h.disk n hn)

/-- Values are values of the tables. -/
theorem values_agree (h : Agree s s') (hs : Values s) : Values s' := by
  refine ⟨fun i h₀ h₁ => ?_, fun m h₀ h₁ => ?_, fun fh h₀ h₁ => ?_,
    ⟨fun i h₀ h₁ k hk₀ hk₁ => ?_, fun b h₀ h₁ => ?_, ?_⟩⟩
  · rw [(h.node i h₀ h₁).avail, (h.node i h₀ h₁).stat]
    exact hs.node i h₀ h₁
  · rw [h.names m h₀ h₁]
    exact hs.name m h₀ h₁
  · rw [h.opens fh h₀ h₁]
    exact hs.file fh h₀ h₁
  · rw [(h.node i h₀ h₁).blocks k hk₀ hk₁]
    exact hs.entries.entry i h₀ h₁ k hk₀ hk₁
  · rw [h.used b h₀ h₁]
    exact hs.entries.used b h₀ h₁
  · rw [h.rootInode, h.rootBlock]
    exact hs.entries.root

private theorem keyFree_agree (h : Agree s s') (hs : KeyFree stale s) : KeyFree stale s' := by
  refine ⟨fun n i hn hi => ?_, fun n i j hn hj hi => ?_⟩
  · rw [(h.node n (by omega) (by simp only [maxNodes]; omega)).stat]
    exact hs.size n i hn hi
  · rw [h.names n (by omega) (by simp only [maxLink]; omega)]
    exact hs.path n i j hn hj hi

end Agreement

/-- The mount sets `cwd_inode` itself. -/
theorem decode_cwdInode (mem : FS) (g : Globals) (cwd : Fin 4 → UInt8) (d : Disk) :
    decode mem { g with cwdInode := cwd } d =
      { decode mem g d with cwdInode := Bytes.toInt cwd } := by
  rw [decode, decode]

section Runs

variable {s s' t : FS} {es : List Event} {rs : List Int} {p : Restart}

/-- **A remount gives the tables back**, and the blocks below the image. -/
theorem remount_agree (h : Agree s s') (hs : Inside s) (hv : Values s)
    (hkey : KeyFree p.stale s) : ∃ t', remount p s' = some t' ∧ Agree s t' := by
  have hv' := values_agree h hv
  have hsys : (encode p.stale s').systemBlock = numBlocks - reserveBlocks :=
    h.system.trans hs.reserved.system
  have hkey' := (keyOnce_iff p.cycle.saveJunk hv').mpr (keyFree_agree h hkey)
  refine ⟨_, by rw [remount, Cycle.run, sfsInit_sfsDestroy hsys hkey', Option.map_some,
    Option.map_some], h.trans ?_⟩
  have hback := decode_encode hv'.typed p.stale p.mem
    (d := sfsDestroy p.cycle.saveJunk (encode p.stale s') s'.disk) fun n hn => sfsDestroy_below hn
  rw [decode_cwdInode]
  exact hback.setCwd s'.cwdInode _

/-- One event of the file system that stays mounted. -/
theorem Stays.step {e : Event} {r : Int} (h : Stays s e r t) (hs : Inside s ∧ Values s) :
    Inside t ∧ Values t := by
  cases e with
  | call env c =>
      obtain ⟨henv, htyped, hok, hexec, hroom⟩ := h
      exact ⟨hs.1.step hok hexec hroom, exec_values hs.2 hs.1 henv htyped hok hexec⟩
  | remount p =>
      obtain ⟨_, rfl, _⟩ := h
      exact hs

/-- **One event**, a call or a remount, in a state that agrees. -/
theorem serves_of_stays {e : Event} {r : Int} (hs : Inside s ∧ Values s) (h : Agree s s')
    (hstep : Stays s e r t) : ∃ t', Serves s' e r t' ∧ Agree t t' := by
  cases e with
  | call env c =>
      obtain ⟨_, _, hok, hexec, hroom⟩ := hstep
      exact exec_agree h hs.1 hok hexec hroom
  | remount p =>
      obtain ⟨hkey, rfl, rfl⟩ := hstep
      obtain ⟨t', hremount, hagree⟩ := remount_agree h hs.1 hs.2 hkey
      exact ⟨t', ⟨hremount, rfl⟩, hagree⟩

/-- **Remounts are invisible.**  However often the file system is unmounted and mounted again
between the calls of a script, and whatever the new processes find in their memory, every call
gives the answer that it gives without, and what can be read at the end is the same. -/
theorem remounts_invisible (h : TypedRun s) (hscript : Script Stays s es rs t) :
    ∃ t', Script Serves s es rs t' ∧ Agree t t' ∧ SameAnswers t t' := by
  have hkeep : ∀ (s : FS) e r t, Inside s ∧ Values s → Stays s e r t → Inside t ∧ Values t :=
    fun _ _ _ _ hs hstep => hstep.step hs
  have hs : Inside s ∧ Values s := ⟨h.inside, h.values⟩
  obtain ⟨t', hscript', hagree⟩ := hscript.simulate hkeep
    (fun _ _ _ _ _ hs hR hstep => serves_of_stays hs hR hstep) hs (Agree.refl s)
  exact ⟨t', hscript', hagree, hagree.sameAnswers (hscript.invariant hkeep hs).1⟩

/-- A restart that leaves the bytes behind the strings zero and finds other memory full. -/
def restart : Restart where
  stale := fun _ _ => 0
  cycle := ⟨fun _ => 3, fun _ => 5, blankGlobals⟩
  mem := zeroMemory

/-- A remount after each of two calls. -/
theorem remounts_invisible_byte : ∃ rs t', Script Serves firstMount
    [.call zeroEnv (.create (rootPath letterA) 0o100644), .remount restart,
      .call zeroEnv (.write 0 (fun _ => 120) 1 0), .remount restart] rs t' ∧
    Agree mountWithByte t' ∧ SameAnswers mountWithByte t' := by
  obtain ⟨r, hcreate⟩ := answers_createA
  obtain ⟨r', hwrite⟩ := answers_writeA
  have hstale : ∀ m j, restart.stale m j ≠ percent := fun _ _ => by
    show (0 : UInt8) ≠ percent
    decide
  have hkeyA : KeyFree restart.stale mountWithA :=
    keyFree_of_stale typedRun_mountWithA.values hstale fun n i hn hi => by
      rcases keyFree_sizes hn hi with rfl | rfl | rfl | rfl <;> decide +kernel
  have hkeyByte : KeyFree restart.stale mountWithByte :=
    keyFree_of_stale typedRun_mountWithByte.values hstale fun n i hn hi => by
      rcases keyFree_sizes hn hi with rfl | rfl | rfl | rfl <;> decide +kernel
  have hfirst : Stays firstMount (.call zeroEnv (.create (rootPath letterA) 0o100644)) r
      mountWithA := ⟨envTyped_zeroEnv, callTyped_create (by decide), hcreate⟩
  have hsecond : Stays mountWithA (.remount restart) 0 mountWithA := ⟨hkeyA, rfl, rfl⟩
  have hthird : Stays mountWithA (.call zeroEnv (.write 0 (fun _ => 120) 1 0)) r'
      mountWithByte := ⟨envTyped_zeroEnv, trivial, hwrite⟩
  have hlast : Stays mountWithByte (.remount restart) 0 mountWithByte := ⟨hkeyByte, rfl, rfl⟩
  obtain ⟨t', hserves⟩ := remounts_invisible typedRun_firstMount
    (Script.call hfirst (Script.call hsecond (Script.call hthird
      (Script.call hlast (Script.done _)))))
  exact ⟨_, t', hserves⟩

end Runs

end Sfs
