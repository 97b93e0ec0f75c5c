import CS416.Paging.Freeing
import CS416.Paging.Memory

/-!
# The scheduler and its queues

`my_pthread_t.h` defines `malloc` and `free` as `page_malloc` and `page_free`.
So `enqueue` takes a page of the running thread for its node and stores into
that page through the protections, and `get_next` reads the nodes through the
protections and calls `page_free`, which goes through `running_thread`.  In the
loop that looks for a thread in later queues `running_thread` is `NULL`, and a
queue that is not empty kills the process there.

The operations take the way in which pointers are reached as an argument:
`paged` is what the code does, `undisturbed` the case in which no access meets
a locked frame.
-/

namespace Paging

open CInt

/-- How a queue operation reaches a pointer, and how it gives a node back. -/
structure Library where
  reach : Nat → Machine → Option Machine
  free : Nat → Machine → Option Machine

/-- Accesses with their faults, where three tries decide, and `page_free`. -/
def paged : Library where
  reach a m := settle (touched m.pages a) 3 m
  free index m :=
    if m.running = 0 then none
    else (pageFree m.running index m.pages).map fun s => { m with pages := s }

/-- No access meets a locked frame, and `page_free` does not find the addresses of nodes. -/
def undisturbed : Library where
  reach a m := if ∀ k ∈ touched m.pages a, m.locked k = false then some m else none
  free index m :=
    if m.running ≠ 0 ∧ SetsEinval m.running index m.pages then some m else none

/-- `malloc`, called by the running thread -/
def malloc (size : Nat) (m : Machine) : Option (Nat × Machine) :=
  (pageMalloc m.running size m.pages).map fun r => (r.1, { m with pages := r.2 })

/-- `*a` -/
def load (L : Library) (a : Nat) (m : Machine) : Option (Nat × Machine) := do
  let m ← L.reach a m
  let v ← wordAt m a
  return (v, m)

/-- `*a = v` -/
def store (L : Library) (a v : Nat) (m : Machine) : Option Machine := do
  let m ← L.reach a m
  let _ ← wordAt m a
  return putWord a v m

def setQueue (p : Int) (q : Queue) (m : Machine) : Machine :=
  { m with queue := Function.update m.queue p q }

def setSched (t : Nat) (f : Sched → Sched) (m : Machine) : Machine :=
  { m with sched := Function.update m.sched t (f (m.sched t)) }

/-- The links of a new node behind the last one of `q`; `next` lies 8 bytes behind `thread`. -/
def linkNode (L : Library) (q : Queue) (new : Nat) (m : Machine) : Option Machine :=
  if q.size ≠ 0 then do
    let (next, m) ← load L (q.back + 8) m
    let m ← store L (new + 8) next m
    store L (q.back + 8) new m
  else store L (new + 8) new m

/-- `enqueue(thread, priority_level[p])`; a `Node` has 16 bytes. -/
def enqueue (L : Library) (thread : Nat) (p : Int) (m : Machine) : Option Machine := do
  let (new, m) ← malloc 16 m
  let m ← store L new thread m
  let m ← linkNode L (m.queue p) new m
  return setQueue p ⟨new, toInt ((m.queue p).size + 1)⟩ m

/-- The last node of `q` is linked to the second one, or to itself where there are two. -/
def unlinkFirst (L : Library) (q : Queue) (m : Machine) : Option Machine :=
  if q.size = 2 then store L (q.back + 8) q.back m
  else do
    let (next, m) ← load L (q.back + 8) m
    let (second, m) ← load L (next + 8) m
    store L (q.back + 8) second m

/-- `get_next(priority_level[p])` -/
def getNext (L : Library) (p : Int) (m : Machine) : Option (Nat × Machine) :=
  let q := m.queue p
  if q.size = 0 then some (0, m)
  else if q.size = 1 then do
    let (ret, m) ← load L q.back m
    let m ← L.free q.back m
    return (ret, setQueue p ⟨0, toInt (q.size - 1)⟩ m)
  else do
    let (next, m) ← load L (q.back + 8) m
    let (ret, m) ← load L next m
    let (temp, m) ← load L (q.back + 8) m
    let m ← unlinkFirst L q m
    let m ← L.free temp m
    return (ret, setQueue p { q with size := toInt (q.size - 1) } m)

/-- The `switch` on the status of the running thread, and whether it is resumed. -/
def switchStatus (L : Library) (m : Machine) : Option (Machine × Bool) :=
  let t := m.running
  match (m.sched t).status with
  | .active =>
    let runs := (m.sched t).intervalsRun
    let m := setSched t (fun s => { s with intervalsRun := runs + 1 }) m
    if runs < m.currentPriority then some (m, true)
    else do
      let m := setSched t (fun s => { s with intervalsRun := 0,
                                             priority := (s.priority + 1).tmod numPriority }) m
      let m ← enqueue L t (m.sched t).priority m
      return (m, false)
  | .yield => do
    let m ← enqueue L t (m.sched t).priority m
    return (m, false)
  | .threadExit =>
    match m.waiting (m.pages.owner t).id with
    | none => some (m, false)
    | some w => do
      let m := setSched w (fun s => { s with status := .active }) m
      let m ← enqueue L w (m.sched w).priority m
      return (m, false)
  | .waitThread | .waitMutex => some (m, false)

def nextLevel (m : Machine) : Machine :=
  { m with currentPriority := (m.currentPriority + 1).tmod numPriority }

/-- The update of the priority counters. -/
def updateCounters (m : Machine) : Machine :=
  if m.runAtPriority < numPriority - m.currentPriority then { nextLevel m with runAtPriority := 0 }
  else { m with runAtPriority := m.runAtPriority + 1 }

/-- `mprotect` of all pages of a thread. -/
def protect (m : Machine) (t : Nat) (lock : Bool) : Machine :=
  { m with locked := fun f =>
      if ∃ i ∈ pagesOf m.pages t, frameAt m.pages (m.pages.pageData i).page = f then lock
      else m.locked f }

/-- `while (!running_thread)`; after one round through empty queues it never ends. -/
def findThread (L : Library) : Nat → Machine → Option Machine
  | 0, m => if m.running = 0 then none else some m
  | n + 1, m =>
    if m.running ≠ 0 then some m
    else do
      let (t, m) ← getNext L (nextLevel m).currentPriority (nextLevel m)
      findThread L n { m with running := t }

/-- The body of the scheduler. -/
def alarmHandler (L : Library) (m : Machine) : Option Machine :=
  if m.running = 0 then none
  else do
    let (m, resume) ← switchStatus L m
    if resume then some m
    else do
      let m := updateCounters m
      let prevThread := m.running
      let (t, m) ← getNext L m.currentPriority m
      let m := protect { m with running := t } prevThread true
      let m := if t ≠ 0 then protect m t false else m
      findThread L 5 m

/-- `scheduler_alarm_handler` -/
def schedulerAlarmHandler (m : Machine) : Option Machine := alarmHandler paged m

/-- The frame that an entry of `page_data` is on. -/
def frameFor (m : Machine) (i : Page) : Page := frameAt m.pages (m.pages.pageData i).page

section Kept

variable {L : Library} {R : Machine → Machine → Prop} {m m' : Machine} {t n : Nat} {p : Int}

/-- The steps that the queue operations are made of stay within `R`. -/
structure Keeps (L : Library) (R : Machine → Machine → Prop) : Prop where
  refl : ∀ m, R m m
  trans : ∀ {m m' m''}, R m m' → R m' m'' → R m m''
  reach : ∀ {a m m'}, L.reach a m = some m' → R m m'
  free : ∀ {a m m'}, L.free a m = some m' → R m m'
  malloc : ∀ {size r m m'}, malloc size m = some (r, m') → R m m'
  put : ∀ a v m, R m (putWord a v m)
  queue : ∀ p q m, R m (setQueue p q m)

theorem Keeps.load (hR : Keeps L R) {a v : Nat} (h : load L a m = some (v, m')) : R m m' := by
  obtain ⟨m₁, hreach, h⟩ := Option.bind_eq_some_iff.mp h
  obtain ⟨w, _, h⟩ := Option.bind_eq_some_iff.mp h
  obtain ⟨_, rfl⟩ := Prod.mk.inj (Option.some.inj h)
  exact hR.reach hreach

theorem Keeps.store (hR : Keeps L R) {a v : Nat} (h : store L a v m = some m') : R m m' := by
  obtain ⟨m₁, hreach, h⟩ := Option.bind_eq_some_iff.mp h
  obtain ⟨w, _, h⟩ := Option.bind_eq_some_iff.mp h
  obtain rfl := Option.some.inj h
  exact hR.trans (hR.reach hreach) (hR.put a v m₁)

/-- The links of a new node are made by such steps. -/
theorem Keeps.linkNode (hR : Keeps L R) {q : Queue} {new : Nat}
    (h : linkNode L q new m = some m') : R m m' := by
  unfold Paging.linkNode at h
  split at h
  · obtain ⟨⟨next, m₁⟩, hload, h⟩ := Option.bind_eq_some_iff.mp h
    obtain ⟨m₂, hnext, hback⟩ := Option.bind_eq_some_iff.mp h
    exact hR.trans (hR.load hload) (hR.trans (hR.store hnext) (hR.store hback))
  · exact hR.store h

/-- **`enqueue`** makes only such steps. -/
theorem Keeps.enqueue (hR : Keeps L R) (h : enqueue L t p m = some m') : R m m' := by
  obtain ⟨⟨new, m₁⟩, hmalloc, h⟩ := Option.bind_eq_some_iff.mp h
  obtain ⟨m₂, hthread, h⟩ := Option.bind_eq_some_iff.mp h
  obtain ⟨m₃, hlinks, h⟩ := Option.bind_eq_some_iff.mp h
  obtain rfl := Option.some.inj h
  have hstart := hR.trans (hR.malloc hmalloc) (hR.store hthread)
  exact hR.trans (hR.trans hstart (hR.linkNode hlinks)) (hR.queue _ _ _)

theorem Keeps.unlinkFirst (hR : Keeps L R) {q : Queue} (h : unlinkFirst L q m = some m') :
    R m m' := by
  unfold Paging.unlinkFirst at h
  split at h
  · exact hR.store h
  · obtain ⟨⟨next, m₁⟩, hnext, h⟩ := Option.bind_eq_some_iff.mp h
    obtain ⟨⟨second, m₂⟩, hsecond, hstore⟩ := Option.bind_eq_some_iff.mp h
    exact hR.trans (hR.load hnext) (hR.trans (hR.load hsecond) (hR.store hstore))

/-- **`get_next`** makes only such steps. -/
theorem Keeps.getNext (hR : Keeps L R) (h : getNext L p m = some (t, m')) : R m m' := by
  unfold Paging.getNext at h
  dsimp only at h
  split at h
  · obtain ⟨_, rfl⟩ := Prod.mk.inj (Option.some.inj h)
    exact hR.refl m
  · split at h
    · obtain ⟨⟨ret, m₁⟩, hload, h⟩ := Option.bind_eq_some_iff.mp h
      obtain ⟨m₂, hfree, h⟩ := Option.bind_eq_some_iff.mp h
      obtain ⟨_, rfl⟩ := Prod.mk.inj (Option.some.inj h)
      exact hR.trans (hR.load hload) (hR.trans (hR.free hfree) (hR.queue _ _ _))
    · obtain ⟨⟨next, m₁⟩, hnext, h⟩ := Option.bind_eq_some_iff.mp h
      obtain ⟨⟨ret, m₂⟩, hret, h⟩ := Option.bind_eq_some_iff.mp h
      obtain ⟨⟨temp, m₃⟩, htemp, h⟩ := Option.bind_eq_some_iff.mp h
      obtain ⟨m₄, hlink, h⟩ := Option.bind_eq_some_iff.mp h
      obtain ⟨m₅, hfree, h⟩ := Option.bind_eq_some_iff.mp h
      obtain ⟨_, rfl⟩ := Prod.mk.inj (Option.some.inj h)
      have hstart := hR.trans (hR.load hnext) (hR.trans (hR.load hret) (hR.load htemp))
      have hcut := hR.trans hstart (hR.unlinkFirst hlink)
      exact hR.trans hcut (hR.trans (hR.free hfree) (hR.queue _ _ _))

/-- The `switch` sets fields of threads, and may put one thread into a queue. -/
theorem switchStatus_cases {resume : Bool} (h : switchStatus L m = some (m', resume)) :
    ∃ sched, m' = { m with sched := sched } ∨
      ∃ v q, (v = m.running ∨ ∃ i, m.waiting i = some v) ∧
        enqueue L v q { m with sched := sched } = some m' := by
  unfold switchStatus at h
  dsimp only at h
  split at h
  · split at h
    · obtain ⟨rfl, _⟩ := Prod.mk.inj (Option.some.inj h)
      exact ⟨_, Or.inl rfl⟩
    · obtain ⟨m₁, hput, h⟩ := Option.bind_eq_some_iff.mp h
      obtain ⟨rfl, _⟩ := Prod.mk.inj (Option.some.inj h)
      exact ⟨_, Or.inr ⟨_, _, Or.inl rfl, hput⟩⟩
  · obtain ⟨m₁, hput, h⟩ := Option.bind_eq_some_iff.mp h
    obtain ⟨rfl, _⟩ := Prod.mk.inj (Option.some.inj h)
    exact ⟨m.sched, Or.inr ⟨_, _, Or.inl rfl, hput⟩⟩
  · split at h
    · obtain ⟨rfl, _⟩ := Prod.mk.inj (Option.some.inj h)
      exact ⟨m.sched, Or.inl rfl⟩
    case h_2 w hw =>
      obtain ⟨m₁, hput, h⟩ := Option.bind_eq_some_iff.mp h
      obtain ⟨rfl, _⟩ := Prod.mk.inj (Option.some.inj h)
      exact ⟨_, Or.inr ⟨w, _, Or.inr ⟨_, hw⟩, hput⟩⟩
  · obtain ⟨rfl, _⟩ := Prod.mk.inj (Option.some.inj h)
    exact ⟨m.sched, Or.inl rfl⟩
  · obtain ⟨rfl, _⟩ := Prod.mk.inj (Option.some.inj h)
    exact ⟨m.sched, Or.inl rfl⟩

/-- So is what the `switch` does. -/
theorem Keeps.switchStatus (hR : Keeps L R) (hsched : ∀ m sched, R m { m with sched := sched })
    {resume : Bool} (h : switchStatus L m = some (m', resume)) : R m m' := by
  obtain ⟨sched, rfl | ⟨v, q, _, hput⟩⟩ := switchStatus_cases h
  · exact hsched m sched
  · exact hR.trans (hsched m sched) (hR.enqueue hput)

end Kept

section Loop

variable {m m' : Machine} {t n : Nat} {p : Int}

private theorem onlyFrames_running (h : OnlyFrames m m') : m'.running = m.running := by
  unfold OnlyFrames at h
  rw [h]

/-- The queue operations leave `running_thread`, the counters and the other queues alone. -/
theorem keeps_running : Keeps paged fun m m' => m'.running = m.running := by
  constructor
  case refl => exact fun _ => rfl
  case trans => exact fun h h' => h'.trans h
  case reach => exact fun h => onlyFrames_running (settle_spec h).1
  case free =>
    intro a m m' h
    simp only [paged] at h
    split at h
    · cases h
    · obtain ⟨s, _, rfl⟩ := Option.map_eq_some_iff.mp h
      rfl
  case malloc =>
    intro size r m m' h
    obtain ⟨x, _, hx⟩ := Option.map_eq_some_iff.mp h
    rw [← (Prod.mk.inj hx).2]
  case put => exact fun _ _ _ => rfl
  case queue => exact fun _ _ _ => rfl

/-- `get_next` without a running thread returns only if the queue is empty. -/
theorem getNext_null (hnull : m.running = 0) (h : getNext paged p m = some (t, m')) :
    (m.queue p).size = 0 ∧ t = 0 ∧ m' = m := by
  have hdies : ∀ {a u v}, u.running = 0 → paged.free a u = some v → False := by
    intro a u v hu hfree
    simp only [paged, if_pos hu] at hfree
    cases hfree
  have hload : ∀ {a v u w}, load paged a u = some (v, w) → w.running = u.running :=
    fun h => keeps_running.load h
  unfold getNext at h
  dsimp only at h
  split at h
  case isTrue hzero =>
    obtain ⟨rfl, rfl⟩ := Prod.mk.inj (Option.some.inj h)
    exact ⟨hzero, rfl, rfl⟩
  case isFalse =>
    exfalso
    split at h
    · obtain ⟨⟨ret, m₁⟩, hret, h⟩ := Option.bind_eq_some_iff.mp h
      obtain ⟨m₂, hfree, _⟩ := Option.bind_eq_some_iff.mp h
      exact hdies ((hload hret).trans hnull) hfree
    · obtain ⟨⟨next, m₁⟩, hnext, h⟩ := Option.bind_eq_some_iff.mp h
      obtain ⟨⟨ret, m₂⟩, hret, h⟩ := Option.bind_eq_some_iff.mp h
      obtain ⟨⟨temp, m₃⟩, htemp, h⟩ := Option.bind_eq_some_iff.mp h
      obtain ⟨m₄, hlink, h⟩ := Option.bind_eq_some_iff.mp h
      obtain ⟨m₅, hfree, _⟩ := Option.bind_eq_some_iff.mp h
      have hrun₃ := (hload htemp).trans ((hload hret).trans ((hload hnext).trans hnull))
      exact hdies ((keeps_running.unlinkFirst hlink).trans hrun₃) hfree

/-- **The loop finds nobody.**  Either a queue that is not empty kills the process, or the loop
never ends. -/
theorem findThread_null (hnull : m.running = 0) (n : Nat) : findThread paged n m = none := by
  induction n generalizing m with
  | zero => rw [findThread, if_pos hnull]
  | succ n ih =>
      rw [findThread, if_neg (not_not.mpr hnull)]
      cases hnext : getNext paged (nextLevel m).currentPriority (nextLevel m) with
      | none => rfl
      | some r =>
          obtain ⟨t, m₁⟩ := r
          obtain ⟨_, ht, _⟩ := getNext_null (m := nextLevel m) hnull hnext
          exact ih ht

/-- The page lists are as `page_malloc` and `page_free` keep them: no page is on two lists. -/
def Held (s : Pages) : Prop := s.pageInit = true ∧ ∃ runs, Owned s runs

/-- `page_malloc` leaves the page lists in order. -/
theorem Held.malloc {s u : Pages} {r size : Nat} (hs : Held s)
    (hcall : pageMalloc t size s = some (r, u)) : Held u := by
  obtain ⟨hinit, runs, howned⟩ := hs
  have hpos : 0 < pagesNeeded size := by
    by_contra hle
    rw [pageMalloc, if_pos hinit] at hcall
    simp [not_lt.mp hle] at hcall
  rcases pageMalloc_spec howned hinit hpos t with ⟨_, hfail⟩ | ⟨_, q, v, pages, hok, hserved⟩
  · obtain ⟨_, rfl⟩ := Prod.mk.inj (Option.some.inj (hcall.symm.trans hfail))
    exact ⟨hinit, runs, howned⟩
  · obtain ⟨_, rfl⟩ := Prod.mk.inj (Option.some.inj (hcall.symm.trans hok))
    exact ⟨hserved.init, _, hserved.owned⟩

/-- So does `page_free`. -/
theorem Held.free {s u : Pages} {index : Nat} (hs : Held s)
    (hcall : pageFree t index s = some u) : Held u := by
  obtain ⟨hinit, runs, howned⟩ := hs
  rcases pageFree_cases howned hcall with ⟨_, rfl⟩ | ⟨pre, b, mid, c, post, hcut⟩
  · exact ⟨hinit, runs, howned⟩
  · obtain ⟨runs', howned', _⟩ := hcut.owned howned
    refine ⟨?_, runs', howned'⟩
    rw [hcut.pages]
    exact hinit

/-- The tables after a request of one page. -/
def takePage (t : Nat) (s : Pages) : Pages := ((pageMalloc t 1 s).map Prod.snd).getD s

/-- A page more for one thread. -/
theorem Held.takePage {s : Pages} (h : Held s) (t : Nat) : Held (takePage t s) := by
  unfold Paging.takePage
  cases hcall : pageMalloc t 1 s with
  | none => exact h
  | some r => exact h.malloc (r := r.1) hcall

/-- No page is handed out. -/
theorem held_blankSession : Held blankSession.pages :=
  ⟨rfl, _, owned_initial ⟨_, rfl, fun _ => ⟨rfl, rfl⟩⟩⟩

private theorem onlyFrames_pages (h : OnlyFrames m m') : m'.pages = m.pages := by
  unfold OnlyFrames at h
  rw [h]

/-- The queue operations keep the page lists in order. -/
theorem keeps_held : Keeps paged fun m m' => Held m.pages → Held m'.pages := by
  constructor
  case refl => exact fun _ h => h
  case trans => exact fun h h' hm => h' (h hm)
  case reach =>
    intro a m m' h hm
    rw [onlyFrames_pages (settle_spec h).1]
    exact hm
  case free =>
    intro a m m' h hm
    simp only [paged] at h
    split at h
    · cases h
    · obtain ⟨s, hs, rfl⟩ := Option.map_eq_some_iff.mp h
      exact hm.free hs
  case malloc =>
    intro size r m m' h hm
    obtain ⟨⟨q, s⟩, hs, hr⟩ := Option.map_eq_some_iff.mp h
    rw [← (Prod.mk.inj hr).2]
    exact hm.malloc hs
  case put => exact fun _ _ _ h => h
  case queue => exact fun _ _ _ h => h

/-- What a call that dispatches a thread does, one step after the other. -/
structure Dispatches (L : Library) (m u : Machine) (t : Nat) (w m' : Machine) : Prop where
  switch : switchStatus L m = some (u, false)
  next : getNext L (updateCounters u).currentPriority (updateCounters u) = some (t, w)
  thread : t ≠ 0
  result : m' = protect (protect { w with running := t } u.running true) t false

/-- Nothing but the two counters is updated. -/
theorem updateCounters_rest (m : Machine) : updateCounters m =
    { m with currentPriority := (updateCounters m).currentPriority,
             runAtPriority := (updateCounters m).runAtPriority } := by
  unfold updateCounters
  split <;> rfl

/-- What `mprotect` leaves alone. -/
structure OnlyLocked (m m' : Machine) : Prop where
  pages : m'.pages = m.pages
  frames : m'.frames = m.frames
  outside : m'.outside = m.outside
  running : m'.running = m.running
  queue : m'.queue = m.queue
  currentPriority : m'.currentPriority = m.currentPriority
  runAtPriority : m'.runAtPriority = m.runAtPriority

/-- One change of protections after another. -/
theorem OnlyLocked.trans {m'' : Machine} (h : OnlyLocked m m') (h' : OnlyLocked m' m'') :
    OnlyLocked m m'' :=
  ⟨h'.pages.trans h.pages, h'.frames.trans h.frames, h'.outside.trans h.outside,
    h'.running.trans h.running, h'.queue.trans h.queue,
    h'.currentPriority.trans h.currentPriority, h'.runAtPriority.trans h.runAtPriority⟩

/-- `mprotect` changes protections only. -/
theorem protect_only (m : Machine) (t : Nat) (lock : Bool) : OnlyLocked m (protect m t lock) := by
  unfold protect
  exact ⟨rfl, rfl, rfl, rfl, rfl, rfl, rfl⟩

/-- A call resumes the running thread, or dispatches the thread that it finds in the first queue
it looks into. -/
theorem alarmHandler_cases {L : Library}
    (hnull : ∀ n m, m.running = 0 → findThread L n m = none) (h : alarmHandler L m = some m') :
    switchStatus L m = some (m', true) ∨ ∃ u t w, Dispatches L m u t w m' := by
  unfold alarmHandler at h
  split at h
  · cases h
  · obtain ⟨⟨u, resume⟩, hswitch, h⟩ := Option.bind_eq_some_iff.mp h
    cases resume with
    | true =>
        obtain rfl := Option.some.inj h
        exact Or.inl hswitch
    | false =>
        obtain ⟨⟨t, w⟩, hnext, h⟩ := Option.bind_eq_some_iff.mp h
        have hcount : (updateCounters u).running = u.running := by
          rw [updateCounters_rest]
        dsimp only at h
        by_cases ht : t = 0
        · rw [if_neg (not_not.mpr ht), hnull _ _ (by rw [ht]; rfl)] at h
          cases h
        · rw [if_pos ht] at h
          have hrun : (protect (protect { w with running := t } (updateCounters u).running true)
              t false).running ≠ 0 := ht
          rw [findThread, if_pos hrun] at h
          refine Or.inr ⟨u, t, w, hswitch, hnext, ht, ?_⟩
          rw [← hcount]
          exact (Option.some.inj h).symm

/-- The thread that was running is the one that the `switch` looked at, and the page lists are
in order when the next thread is chosen. -/
theorem Dispatches.state {u w : Machine} (h : Dispatches paged m u t w m') (hm : Held m.pages) :
    u.running = m.running ∧ Held w.pages := by
  have hrun := keeps_running.switchStatus (fun _ _ => rfl) h.switch
  have hheld := keeps_held.switchStatus (fun _ _ hs => hs) h.switch hm
  refine ⟨hrun, keeps_held.getNext h.next ?_⟩
  rw [updateCounters_rest]
  exact hheld

/-- A call that gets that far dispatches the thread. -/
theorem Dispatches.handler {u w : Machine} (hrun : m.running ≠ 0)
    (h : Dispatches paged m u t w m') :
    schedulerAlarmHandler m = some m' := by
  have hcount : (updateCounters u).running = u.running := by
    rw [updateCounters_rest]
  unfold schedulerAlarmHandler alarmHandler
  rw [if_neg hrun, h.switch]
  show (getNext paged _ _).bind _ = _
  rw [h.next]
  show findThread paged 5 (if t ≠ 0 then _ else _) = _
  rw [if_pos h.thread, h.result, ← hcount]
  have hset : (protect (protect { w with running := t } (updateCounters u).running true)
      t false).running ≠ 0 := h.thread
  rw [findThread, if_pos hset]

end Loop

end Paging
