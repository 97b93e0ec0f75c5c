import CS416.Paging.Memory

/-!
# What a page fault leaves behind

`vmem_sig_handler` swaps the contents of the two frames, but it stores in each
of the two entries the address that the entry already has, and it locks the
frame of the caller's page last.  So no fault is ever resolved: the caller's
page stays where it was, or its frame is locked.
-/

namespace Paging

/-- The entries of `page_data` are on distinct frames, one on each. -/
def Assigned (s : Pages) : Prop :=
  ∃ place : Equiv.Perm Page, ∀ i, (s.pageData i).page = s.memory + place i * pageSize

/-- After a fault at frame `k` the caller's page for it is there, with the contents of every
page kept, and the frame can be accessed. -/
structure Swapped (k : Page) (m m' : Machine) : Prop where
  home : ∃ i, (pagesOf m'.pages m'.running)[(k : Nat)]? = some i ∧
    (m'.pages.pageData i).page = m'.pages.memory + k * pageSize
  assigned : Assigned m'.pages
  contents : ∀ i, m'.frames (frameAt m'.pages (m'.pages.pageData i).page) =
    m.frames (frameAt m.pages (m.pages.pageData i).page)
  accessible : m'.locked k = false

/-- The handler returns, and the swap is as it should be. -/
def Swaps (k : Page) (m : Machine) : Prop :=
  ∃ m', vmemSigHandler k m = some m' ∧ Swapped k m m'

section Swap

variable {m m' : Machine} {k i : Page}

/-- The frame at a place of `memory`. -/
theorem frameAt_place (s : Pages) (f : Page) : frameAt s (s.memory + f * pageSize) = f := by
  apply Fin.ext
  have hf := f.isLt
  simp only [frameAt, Fin.val_ofNat, pageSize, numPages] at hf ⊢
  omega

/-- If the caller's page is in the frame, the frame is locked. -/
theorem Swapped.false_of_call (h : vmemSigHandler k m = some m') (hs : Swapped k m m') :
    False := by
  obtain ⟨r, hr⟩ := vmemSigHandler_faulted h
  obtain ⟨j, hj, hhome⟩ := hs.home
  have hright := (hr.only.rightFrame_eq k).trans hr.right
  rw [rightFrame, hj, Option.map_some, hhome, frameAt_place] at hright
  obtain rfl := Option.some.inj hright
  have hopen := hs.accessible
  rw [hr.locked_at, if_pos rfl] at hopen
  cases hopen

/-- **No fault is resolved.** -/
theorem never_swaps (_hm : Assigned m.pages)
    (_hk : (k : Nat) < (pagesOf m.pages m.running).length) :
    ¬ Swaps k m := by
  intro hs
  obtain ⟨m', hcall, hswapped⟩ := hs
  exact hswapped.false_of_call hcall

/-- Two threads with a page each: thread 2 runs, with its page in frame 1 and the page of
thread 1 locked in frame 0. -/
def twoOwners : Machine :=
  { pages :=
      { memory := 0, pageInit := true
        pageData := fun i => ⟨i * pageSize, none, none, if (i : Nat) < 2 then 0 else 1, 0, i + 1⟩
        owner := fun t => ⟨t, if t = 1 then some 0 else if t = 2 then some 1 else none, 1⟩ }
    frames := fun _ _ => 0, locked := fun f => f = 0, outside := fun _ => none, running := 2
    sched := fun _ => ⟨0, 0, .active⟩, queue := fun _ => ⟨0, 0⟩
    waiting := fun _ => none, currentPriority := 0, runAtPriority := 0 }

private theorem assigned_twoOwners : Assigned twoOwners.pages := by
  refine ⟨Equiv.refl Page, fun i => ?_⟩
  show (i : Nat) * pageSize = 0 + i * pageSize
  rw [Nat.zero_add]

/-- The fault of the first byte of `twoOwners` is handled, without a swap of pages. -/
theorem never_swaps_twoOwners :
    (vmemSigHandler 0 twoOwners).isSome = true ∧ ¬ Swaps 0 twoOwners :=
  ⟨by decide +kernel, never_swaps assigned_twoOwners (by decide +kernel)⟩

/-- Thread 2 touches the first byte: its page stays in frame 1. -/
theorem fault_keeps_page :
    ¬ ∀ m (k : Page), Assigned m.pages → (k : Nat) < (pagesOf m.pages m.running).length →
      Swaps k m := by
  intro hclaim
  obtain ⟨m', hcall, hswapped⟩ := hclaim twoOwners 0 assigned_twoOwners (by decide +kernel)
  exact hswapped.false_of_call hcall

end Swap

end Paging
