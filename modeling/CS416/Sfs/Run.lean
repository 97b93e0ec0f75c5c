import CS416.Lib.Reach
import CS416.Sfs.Calls

/-!
# Runs of the file system

A run starts at a fresh mount and goes from call to call.  What a call takes
from outside the program is different at every call, so a step quantifies
over it.
-/

namespace Sfs

/-- The calls that change the state, and `sfs_read`. -/
inductive Call
  | create (path : Path) (mode : Nat)
  | mkdir (path : Path) (mode : Nat)
  | openFile (path : Path)
  | write (fh : Int) (buf : Nat → UInt8) (size : Nat) (offset : Int)
  | read (fh : Int) (size : Nat) (offset : Int)
  | release (fh : Int)
  | unlink (path : Path)
  | rmdir (path : Path)

/-- Run one call: its result and the state after it. -/
def exec (env : Env) (c : Call) (s : FS) : Except Stop (Int × FS) :=
  match c with
  | .create path mode => do
      let (r, _, s) ← sfsCreate env path mode 0 s
      return (r, s)
  | .mkdir path mode => sfsMkdir env path mode s
  | .openFile path =>
      let (r, _, s) := sfsOpen path 0 s
      return (r, s)
  | .write fh buf size offset => sfsWrite env fh buf size offset s
  | .read fh size offset => do
      let (r, _) ← sfsRead fh size offset s
      return (r, s)
  | .release fh => return sfsRelease fh s
  | .unlink path => sfsUnlink env path s
  | .rmdir path => sfsRmdir env path s

/-- A state right after a first mount. -/
def Fresh (s : FS) : Prop := ∃ env s₀, sfsInitFresh env s₀ = .ok s

/-- The call `c` returns, and leaves the state `t`. -/
def Returns (s : FS) (c : Call) (t : FS) : Prop := ∃ env r, exec env c s = .ok (r, t)

/-- States reached from a fresh mount by calls that satisfy `ok` when made. -/
def Reached (ok : FS → Call → Prop) : FS → Prop :=
  Runs.Reach Fresh fun s c t => ok s c ∧ Returns s c t

/-- The state after a call; a call that stops leaves it as it was. -/
def after (env : Env) (c : Call) (s : FS) : FS :=
  match exec env c s with
  | .ok (_, t) => t
  | .error _ => s

/-- Whether a call returns. -/
def returns (env : Env) (c : Call) (s : FS) : Bool :=
  match exec env c s with
  | .ok _ => true
  | .error _ => false

/-- A call that returns leads to the state after it. -/
theorem returns_after {env : Env} {c : Call} {s : FS} (h : returns env c s = true) :
    Returns s c (after env c s) := by
  unfold returns at h
  unfold after
  cases hexec : exec env c s with
  | ok r => exact ⟨env, r.1, by simp [hexec]⟩
  | error e => simp [hexec] at h

/-- That state can be reached. -/
theorem reached_after {ok : FS → Call → Prop} (env : Env) (c : Call) {s : FS}
    (h : Reached ok s) (hok : ok s c) (hret : returns env c s = true) :
    Reached ok (after env c s) :=
  h.next ⟨hok, returns_after hret⟩

/-- The path of the one-letter name `c` in the root directory. -/
def rootPath (c : UInt8) : Path := [slash, c]

/-- The letters `a`, `b` and `c`. -/
abbrev letterA : UInt8 := 97
abbrev letterB : UInt8 := 98
abbrev letterC : UInt8 := 99

/-- A process whose identity, times and uninitialised bytes are all zero. -/
def zeroEnv : Env := ⟨0, 0, 0, 0, 0, fun _ => 0, []⟩

/-- The globals as the program starts with them, and a disk file of zeros. -/
def zeroMemory : FS where
  inodeTable _ := ⟨FREE, Stat.zero, fun _ => 0⟩
  nameTable _ := ⟨FREE, 0, []⟩
  openFiles _ := ⟨0, 0, 0⟩
  diskBlocks _ := FREE
  rootInode := 0
  rootBlock := 0
  systemBlock := 0
  cwdInode := 0
  disk _ := Block.zero

/-- The first mount of an empty disk. -/
def firstMount : FS :=
  match sfsInitFresh zeroEnv zeroMemory with
  | .ok s => s
  | .error _ => zeroMemory

/-- The first mount on blank memory. -/
theorem sfsInitFresh_firstMount : sfsInitFresh zeroEnv zeroMemory = .ok firstMount := by
  have hok : (sfsInitFresh zeroEnv zeroMemory).toBool = true := by decide +kernel
  unfold firstMount
  cases hinit : sfsInitFresh zeroEnv zeroMemory with
  | ok s => rfl
  | error e => simp [hinit, Except.toBool] at hok

theorem fresh_firstMount : Fresh firstMount := ⟨zeroEnv, zeroMemory, sfsInitFresh_firstMount⟩

theorem reached_firstMount (ok : FS → Call → Prop) : Reached ok firstMount :=
  Runs.Reach.start fresh_firstMount

end Sfs
