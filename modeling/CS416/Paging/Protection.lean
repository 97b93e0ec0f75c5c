import CS416.Paging.Scheduler

/-!
# Protections after a dispatch

The scheduler locks the pages of the thread that ran, and unlocks those of the
next thread if the first queue it looks into has one.  A thread in a later
queue is not dispatched at all: the loop that looks for it dies in `page_free`.
-/

namespace Paging

/-- The pages of the thread that runs now can be accessed, and those of the one that ran
before cannot, unless it is the same. -/
structure ProtectionFollows (m m' : Machine) : Prop where
  unlocked : ∀ i ∈ pagesOf m'.pages m'.running, m'.locked (frameFor m' i) = false
  locked : m.running ≠ m'.running →
    ∀ i ∈ pagesOf m'.pages m.running, m'.locked (frameFor m' i) = true

/-- A thread runs, and no page is on the lists of two threads. -/
structure InOrder (m : Machine) : Prop where
  running : m.running ≠ 0
  lists : Held m.pages

/-- The handler returns with a thread to run, and the protections follow. -/
def Follows (m : Machine) : Prop :=
  ∃ m', schedulerAlarmHandler m = some m' ∧ ProtectionFollows m m'

/-- The condition: the running thread can be put back, and with the counters updated the queue
of the current level is not empty and `get_next` gives its first thread. -/
def FoundAtOnce (m : Machine) : Prop :=
  ∃ u t w, switchStatus paged m = some (u, false) ∧
    ((updateCounters u).queue (updateCounters u).currentPriority).size ≠ 0 ∧
    getNext paged (updateCounters u).currentPriority (updateCounters u) = some (t, w) ∧ t ≠ 0

section Protection

variable {m m' u w : Machine} {t v : Nat} {i : Page}

/-- No frame belongs to the pages of two threads. -/
theorem Held.apart (h : Held m.pages) (hne : t ≠ v) {j : Page} (hi : i ∈ pagesOf m.pages t)
    (hj : j ∈ pagesOf m.pages v) : frameFor m i ≠ frameFor m j := by
  obtain ⟨_, runs, howned⟩ := h
  have hframe : ∀ x : Page, frameFor m x = x := by
    intro x
    apply Fin.ext
    have hx := x.isLt
    simp only [frameFor, frameAt, Fin.val_ofNat, howned.page, pageSize, numPages] at hx ⊢
    omega
  rw [hframe, hframe]
  intro heq
  rw [howned.pagesOf_eq] at hi hj
  exact howned.apart t v hne hi (heq ▸ hj)

/-- A dispatch comes from the first queue. -/
theorem Dispatches.found (h : Dispatches paged m u t w m') : FoundAtOnce m := by
  refine ⟨u, t, w, h.switch, ?_, h.next, h.thread⟩
  intro hzero
  have hnext := h.next
  unfold getNext at hnext
  dsimp only at hnext
  rw [if_pos hzero] at hnext
  exact h.thread (Prod.mk.inj (Option.some.inj hnext)).1.symm

end Protection

/-- Threads 1 and 2 have a page each, and thread 2 waits at level `p` in a node outside
`memory`. -/
def twoThreads (status : Status) (p : Int) : Machine where
  pages := takePage 2 (takePage 1 blankSession.pages)
  frames := fun _ _ => 0
  locked := fun f => f = 1
  outside := fun a =>
    if 2097152 ≤ a ∧ a < 2097168 then some (nodeByte 2 2097152 (a - 2097152)) else none
  running := 1
  sched := fun t => ⟨0, 0, if t = 1 then status else .active⟩
  queue := fun q => if q = p then ⟨2097152, 1⟩ else ⟨0, 0⟩
  waiting := fun _ => none
  currentPriority := 0
  runAtPriority := 0

end Paging
