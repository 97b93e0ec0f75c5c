import CS416.Lib.Rotation
import CS416.Paging.Nodes
import CS416.Threads.Dispatch

/-!
# Levels are served in turn

`run_at_priority` is 0 whenever the handler looks at it, so it goes on to the
next level at every dispatch, and the loop that skips empty queues takes the
next level that has a thread.  Between the calls of the handler the program may
do anything that only adds threads to the queues.

The handler with the page protections serves the levels in turn as long as its
queue operations meet no locked frame.  A node that another thread has put into
a queue is on a page of that thread; reading it faults, and what is read then
is a page of the running thread.
-/

namespace Threads

open Rotation

/-- A handler with its queues, `current_priority` and `run_at_priority`.  `resumes` tells
whether it lets the running thread go on. -/
structure Scheduler (σ : Type) where
  view : σ → Server Nat
  counter : σ → Int
  running : σ → Option Nat
  handler : σ → Option σ
  resumes : σ → Bool

/-- Calls of the handler in states that satisfy `ok`, and anything in between that keeps the
two counters and only adds threads to the queues.  The list is that of the dispatches: the
level and the thread. -/
inductive Ops {σ : Type} (S : Scheduler σ) (ok : σ → Prop) : σ → List (Int × Nat) → σ → Prop
  | nil (s : σ) : Ops S ok s [] s
  | enqueues {s u t : σ} {ds : List (Int × Nat)} (h : Grows (S.view s) (S.view u))
      (hcount : S.counter u = S.counter s) (hops : Ops S ok u ds t) : Ops S ok s ds t
  | resume {s u t : σ} {ds : List (Int × Nat)} (hok : ok s) (h : S.handler s = some u)
      (hresume : S.resumes s = true) (hops : Ops S ok u ds t) : Ops S ok s ds t
  | dispatch {s u t : σ} {x : Nat} {ds : List (Int × Nat)} (hok : ok s)
      (h : S.handler s = some u) (hresume : S.resumes s = false) (hx : S.running u = some x)
      (hops : Ops S ok u ds t) : Ops S ok s (((S.view u).current, x) :: ds) t

/-- A run from `s` to `t` with the dispatches `ds` passes no level and no thread by for more
than a round of `n` levels. -/
structure InTurn {σ : Type} (n : Nat) (S : Scheduler σ) (s : σ) (ds : List (Int × Nat))
    (t : σ) : Prop where
  counter : S.counter t = 0
  level : ∀ r, InRange n r → (S.view s).level r ≠ [] → (∀ d ∈ ds, d.1 ≠ r) → ds.length ≤ n - 1
  thread : ∀ r ahead x behind, InRange n r → (S.view s).level r = ahead ++ x :: behind →
    n * (ahead.length + 1) ≤ ds.length → (r, x) ∈ ds.take (n * (ahead.length + 1))

/-- **No overtaking beyond one round** in any run of the handler. -/
def NoOvertaking {σ : Type} (n : Nat) (S : Scheduler σ) (ok : σ → Prop) : Prop :=
  ∀ s ds t, S.counter s = 0 → InRange n (S.view s).current → Ops S ok s ds t →
    InTurn n S s ds t

/-- What a call of the handler does while `run_at_priority` is 0. -/
structure Lawful {σ : Type} (n : Nat) (S : Scheduler σ) (ok : σ → Prop) : Prop where
  resumes : ∀ s u, ok s → S.counter s = 0 → S.handler s = some u → S.resumes s = true →
    S.counter u = 0 ∧ Grows (S.view s) (S.view u)
  dispatches : ∀ s u, ok s → S.counter s = 0 → InRange n (S.view s).current →
    S.handler s = some u → S.resumes s = false → S.counter u = 0 ∧
      ∃ v x, Grows (S.view s) v ∧ S.running u = some x ∧ Rotation.Serves n v x (S.view u)

section Run

variable {σ : Type} {S : Scheduler σ} {ok : σ → Prop} {n : Nat} {s t : σ}
  {ds : List (Int × Nat)}

/-- The queues are served in turn. -/
theorem Lawful.run (hS : Lawful n S ok) (hops : Ops S ok s ds t) (hcount : S.counter s = 0)
    (hrange : InRange n (S.view s).current) : S.counter t = 0 ∧ Run n (S.view s) ds (S.view t) := by
  induction hops with
  | nil s => exact ⟨hcount, .nil _⟩
  | enqueues hgrow hsame _ ih =>
      obtain ⟨hcount', hrun⟩ := ih (hsame.trans hcount) (hgrow.current ▸ hrange)
      exact ⟨hcount', .grow hgrow hrun⟩
  | resume hok hcall hresume _ ih =>
      obtain ⟨hzero, hgrow⟩ := hS.resumes _ _ hok hcount hcall hresume
      obtain ⟨hcount', hrun⟩ := ih hzero (hgrow.current ▸ hrange)
      exact ⟨hcount', .grow hgrow hrun⟩
  | dispatch hok hcall hresume hx _ ih =>
      obtain ⟨hzero, v, x, hgrow, hx', hserves⟩ :=
        hS.dispatches _ _ hok hcount hrange hcall hresume
      obtain rfl := Option.some.inj (hx.symm.trans hx')
      obtain ⟨hcount', hrun⟩ := ih hzero hserves.range
      exact ⟨hcount', .grow hgrow (.serve hserves hrun)⟩

/-- The bounds on what passes a level and a thread. -/
theorem Lawful.noOvertaking (hS : Lawful n S ok) : NoOvertaking n S ok := by
  intro s ds t hcount hrange hops
  obtain ⟨hcount', hrun⟩ := hS.run hops hcount hrange
  constructor
  case counter => exact hcount'
  case level =>
    intro r hr hne hother
    have hpassed := hrun.passed hr hne hother
    have hlt := dist_lt (p := (S.view s).current) hr
    omega
  case thread =>
    intro r ahead x behind hr hlevel hlen
    have hlt := dist_lt (p := (S.view s).current) hr
    refine hrun.served hr hlevel ?_ hlen
    push_cast
    linarith

/-- `n` calls of the handler with their dispatches. -/
def callHandler (S : Scheduler σ) : Nat → σ → Option (List (Int × Nat) × σ)
  | 0, s => some ([], s)
  | n + 1, s => do
    let u ← S.handler s
    let (ds, t) ← callHandler S n u
    if S.resumes s then return (ds, t)
    let x ← S.running u
    return (((S.view u).current, x) :: ds, t)

/-- Calls of the handler one after the other are a run. -/
theorem ops_callHandler (h : callHandler S n s = some (ds, t)) :
    Ops S (fun _ => True) s ds t := by
  induction n generalizing s ds with
  | zero =>
      obtain ⟨rfl, rfl⟩ := Prod.mk.inj (Option.some.inj h)
      exact .nil s
  | succ n ih =>
      obtain ⟨u, hcall, h⟩ := Option.bind_eq_some_iff.mp h
      obtain ⟨⟨rest, t'⟩, hrest, h⟩ := Option.bind_eq_some_iff.mp h
      dsimp only at h
      split at h
      case isTrue hresume =>
        obtain ⟨rfl, rfl⟩ := Prod.mk.inj (Option.some.inj h)
        exact .resume trivial hcall hresume (ih hrest)
      case isFalse hresume =>
        obtain ⟨x, hx, h⟩ := Option.bind_eq_some_iff.mp h
        obtain ⟨rfl, rfl⟩ := Prod.mk.inj (Option.some.inj h)
        exact .dispatch trivial hcall (Bool.eq_false_iff.mpr hresume) hx (ih hrest)

end Run

section First

variable {s u : State} {r : Nat}

/-- The scheduler of `my_pthread.c`. -/
def scheduler : Scheduler State where
  view s := ⟨s.level, s.currentPriority⟩
  counter := State.runAtPriority
  running := State.running
  handler := schedulerAlarmHandler
  resumes s := match s.running with
    | none => false
    | some r => (switchStatus r s.pauseTimer).2

private theorem update_prefix (level : Int → List Nat) (p : Int) (t : Nat) (q : Int) :
    level q <+: Function.update level p (level p ++ [t]) q := by
  by_cases hq : q = p
  · subst hq
    rw [Function.update_self]
    exact List.prefix_append _ _
  · rw [Function.update_of_ne hq]

/-- The `switch` only adds a thread to a queue. -/
theorem switchStatus_grows (r : Nat) (s : State) :
    Grows (scheduler.view s) (scheduler.view (switchStatus r s).1) ∧
      (switchStatus r s).1.runAtPriority = s.runAtPriority := by
  unfold switchStatus
  cases (s.thread r).status with
  | active =>
      dsimp only
      split
      · exact ⟨⟨rfl, fun _ => List.prefix_refl _⟩, rfl⟩
      · exact ⟨⟨rfl, update_prefix s.level _ r⟩, rfl⟩
  | yield => exact ⟨⟨rfl, update_prefix s.level _ r⟩, rfl⟩
  | threadExit =>
      dsimp only
      cases s.waiting (s.thread r).id with
      | none => exact ⟨⟨rfl, fun _ => List.prefix_refl _⟩, rfl⟩
      | some w => exact ⟨⟨rfl, update_prefix s.level _ w⟩, rfl⟩
  | waitThread | waitMutex => exact ⟨⟨rfl, fun _ => List.prefix_refl _⟩, rfl⟩

/-- A level `k` levels on from `p` that has been searched for a thread. -/
structure Found {σ : Type} (S : Scheduler σ) (s u : σ) (c : Int) : Prop where
  counter : S.counter u = S.counter s
  search : ∃ k : Nat, (S.view u).current = (c + k) % 5 ∧
    ∀ j < k, (S.view s).level ((c + j) % 5) = []
  thread : ∃ x, S.running u = some x ∧
    (S.view s).level (S.view u).current = x :: (S.view u).level (S.view u).current
  other : ∀ p, p ≠ (S.view u).current → (S.view u).level p = (S.view s).level p

/-- One level more. -/
theorem Found.step {σ : Type} {S : Scheduler σ} {s u : σ} {c : Int}
    (h : Found S s u ((c + 1) % 5)) (hempty : (S.view s).level (c % 5) = []) : Found S s u c := by
  obtain ⟨k, hcur, hbefore⟩ := h.search
  refine ⟨h.counter, ⟨k + 1, ?_, ?_⟩, h.thread, h.other⟩
  · rw [hcur]
    push_cast
    omega
  · intro j hj
    cases j with
    | zero =>
        rw [Nat.cast_zero, add_zero]
        exact hempty
    | succ j =>
        have hplace : (c + (j + 1 : Nat)) % 5 = ((c + 1) % 5 + j) % 5 := by
          push_cast
          omega
        rw [hplace]
        exact hbefore j (by omega)

/-- The thread that is found is served in turn. -/
theorem Found.serves {σ : Type} {S : Scheduler σ} {s u : σ} {c : Int}
    (h : Found S s u ((c + 1) % 5)) :
    ∃ x, S.running u = some x ∧ Rotation.Serves 5 ⟨(S.view s).level, c⟩ x (S.view u) := by
  obtain ⟨x, hx, hhead⟩ := h.thread
  obtain ⟨k, hcur, hbefore⟩ := h.search
  have hplace : ∀ j : Nat, ((c + 1) % 5 + j) % 5 = (c + 1 + j) % (5 : Nat) := by
    intro j
    push_cast
    omega
  refine ⟨x, hx, ?_, hhead, h.other, ?_⟩
  · rw [hcur]
    constructor
    · exact Int.emod_nonneg _ (by decide)
    · exact Int.emod_lt_of_pos _ (by decide)
  · intro p hp hne
    rw [hcur, hplace]
    refine turn_of_search (s := ⟨(S.view s).level, c⟩) (fun j hj => ?_) hp hne
    rw [← hplace]
    exact hbefore j hj

private theorem tmod_next {p : Int} (hp : 0 ≤ p) : (p + 1).tmod numPriority = (p + 1) % 5 :=
  Int.tmod_eq_emod_of_nonneg (by omega)

private theorem findThread_found {m : Nat} (hp : IsLevel s.currentPriority)
    (h : findThread m s = some u) : Found scheduler s u s.currentPriority := by
  induction m generalizing s with
  | zero => cases h
  | succ m ih =>
      have hself : s.currentPriority % 5 = s.currentPriority := Int.emod_eq_of_lt hp.1 hp.2
      unfold findThread getNext at h
      cases hlevel : s.level s.currentPriority with
      | nil =>
          rw [hlevel] at h
          have hnext : (nextLevel s).currentPriority = (s.currentPriority + 1) % 5 := tmod_next hp.1
          have hrange : IsLevel (nextLevel s).currentPriority := isLevel_next hp
          have hfound := ih hrange h
          rw [hnext] at hfound
          have hstep : Found scheduler s u ((s.currentPriority + 1) % 5) :=
            ⟨hfound.counter, hfound.search, hfound.thread, hfound.other⟩
          exact hstep.step (by rw [hself]; exact hlevel)
      | cons t rest =>
          rw [hlevel] at h
          obtain rfl := Option.some.inj h
          refine ⟨rfl, ⟨0, ?_, fun j hj => absurd hj (Nat.not_lt_zero j)⟩, ⟨t, rfl, ?_⟩, ?_⟩
          · rw [Nat.cast_zero, add_zero, hself]
            rfl
          · show s.level s.currentPriority = t :: Function.update s.level s.currentPriority rest
              s.currentPriority
            rw [Function.update_self, hlevel]
          · intro p hne
            exact Function.update_of_ne hne _ _

/-- With `run_at_priority` 0 the handler goes on by one level. -/
theorem updateCounters_zero (hzero : s.runAtPriority = 0) (hp : IsLevel s.currentPriority) :
    updateCounters s = { nextLevel s with runAtPriority := 0 } := by
  obtain ⟨h₀, h₁⟩ := hp
  rw [updateCounters, if_pos (by omega)]

/-- The handler of `my_pthread.c` serves the levels in turn. -/
theorem lawful_scheduler : Lawful 5 scheduler fun _ => True := by
  constructor
  case resumes =>
    intro s u _ hzero hcall hresume
    cases hrun : s.running with
    | none => simp [scheduler, hrun] at hresume
    | some r =>
        obtain ⟨hgrow, hcount⟩ := switchStatus_grows r s.pauseTimer
        simp only [scheduler, schedulerAlarmHandler, hrun] at hcall hresume
        rw [hresume] at hcall
        obtain rfl := Option.some.inj hcall
        exact ⟨hcount.trans hzero, hgrow⟩
  case dispatches =>
    intro s u _ hzero hrange hcall hresume
    cases hrun : s.running with
    | none => simp [scheduler, schedulerAlarmHandler, hrun] at hcall
    | some r =>
        obtain ⟨hgrow, hcount⟩ := switchStatus_grows r s.pauseTimer
        simp only [scheduler, schedulerAlarmHandler, hrun] at hcall hresume
        rw [hresume] at hcall
        generalize (switchStatus r s.pauseTimer).1 = v at hgrow hcount hcall
        have hlevel : IsLevel v.currentPriority := by
          have hcur : v.currentPriority = s.currentPriority := hgrow.current
          rw [hcur]
          exact hrange
        rw [if_neg Bool.false_ne_true, updateCounters_zero (hcount.trans hzero) hlevel] at hcall
        obtain ⟨w, hfind, rfl⟩ := Option.map_eq_some_iff.mp hcall
        have hnext : (nextLevel v).currentPriority = (v.currentPriority + 1) % 5 :=
          tmod_next hlevel.1
        have hfound := findThread_found (isLevel_next hlevel) hfind
        have hfound' : Found scheduler { nextLevel v with runAtPriority := 0 } w
            ((v.currentPriority + 1) % 5) := hnext ▸ hfound
        obtain ⟨x, hx, hserves⟩ := hfound'.serves
        exact ⟨hfound.counter, scheduler.view v, x, hgrow, hx, hserves⟩

end First

section Second

variable {m u w : Paging.Machine} {t : Nat}

/-- The scheduler with the page protections, and the queues as they lie in memory. -/
def pagingScheduler : Scheduler Paging.Machine where
  view m := ⟨Paging.threadsOf m, m.currentPriority⟩
  counter := Paging.Machine.runAtPriority
  running m := some m.running
  handler := Paging.schedulerAlarmHandler
  resumes m := (Paging.switchStatus Paging.paged m).elim false Prod.snd

/-- The view after the protections have been changed. -/
theorem view_onlyLocked (h : Paging.OnlyLocked m u) :
    pagingScheduler.view u = pagingScheduler.view m := by
  have hthreads := Paging.threadsOf_same (congrArg _ h.pages) h.frames h.outside h.queue
  show Server.mk _ _ = Server.mk _ _
  rw [hthreads, h.currentPriority]

/-- **The handler with the page protections** serves the levels in turn, where its queue
operations meet no locked frame. -/
theorem lawful_pagingScheduler : Lawful 5 pagingScheduler Paging.QueuesOk := by
  have hquiet : ∀ {m u}, Paging.QueuesOk m → pagingScheduler.handler m = some u →
      Paging.alarmHandler Paging.undisturbed m = some u := by
    intro m u hok hcall
    obtain ⟨v, hv⟩ := hok.quiet
    have hsame := Paging.alarmHandler_below m v hv
    obtain rfl := Option.some.inj (hsame.symm.trans hcall)
    exact hv
  have hswitched : ∀ {m v resume}, Paging.switchStatus Paging.undisturbed m = some (v, resume) →
      pagingScheduler.resumes m = resume := by
    intro m v resume h
    have hpaged := Paging.undisturbed_below.switchStatus m _ h
    simp only [pagingScheduler, hpaged, Option.elim_some]
  constructor
  case resumes =>
    intro m u hok hzero hcall hresume
    rcases Paging.undisturbed_cases (hquiet hok hcall) with hswitch | ⟨v, t, w, h⟩
    · obtain ⟨_, hprefix, _, hcur, hcount⟩ := hok.switch hswitch
      exact ⟨hcount.trans hzero, hcur, hprefix⟩
    · have hfalse := hswitched h.switch
      rw [hresume] at hfalse
      cases hfalse
  case dispatches =>
    intro m u hok hzero hrange hcall hresume
    rcases Paging.undisturbed_cases (hquiet hok hcall) with hswitch | ⟨v, t, w, h⟩
    · have htrue := hswitched hswitch
      rw [hresume] at htrue
      cases htrue
    · obtain ⟨⟨heap, nodes, hlevels⟩, hprefix, hshort, hcur, hcount⟩ := hok.switch h.switch
      have hlevel : IsLevel v.currentPriority := by
        rw [hcur]
        exact hrange
      have hcounters : Paging.updateCounters v =
          { Paging.nextLevel v with runAtPriority := 0 } := by
        obtain ⟨h₀, h₁⟩ := hlevel
        rw [Paging.updateCounters, if_pos]
        rw [hcount]
        have hm : m.runAtPriority = 0 := hzero
        rw [hm]
        simp only [numPriority] at h₁
        simp only [Paging.numPriority]
        omega
      have hnext := h.next
      rw [hcounters] at hnext
      have hp : (Paging.nextLevel v).currentPriority = (v.currentPriority + 1) % 5 :=
        tmod_next hlevel.1
      generalize hc : ({ Paging.nextLevel v with runAtPriority := 0 } : Paging.Machine) = c
        at hnext
      have hcp : c.currentPriority = (v.currentPriority + 1) % 5 := by rw [← hc]; exact hp
      have hcc : c.runAtPriority = 0 := by rw [← hc]
      have hsame : Paging.threadsOf c = Paging.threadsOf v := by
        rw [← hc]
        exact Paging.threadsOf_same rfl rfl rfl rfl
      have hc' : Paging.Levels c heap nodes := by
        refine ⟨?_, ?_⟩
        · rw [← hc]
          exact hlevels.shows.congr fun _ => rfl
        · rw [hsame, ← hc]
          exact hlevels.queues
      have htook := Paging.getNext_undisturbed hnext
      obtain ⟨hhead, hother⟩ := hc'.getNext htook h.thread (by rw [hsame]; exact hshort _)
      have hkept := Paging.keeps_counters.getNext hnext
      have honly := (Paging.protect_only { w with running := t } v.running true).trans
        (Paging.protect_only _ t false)
      rw [← h.result] at honly
      have hset : Paging.threadsOf { w with running := t } = Paging.threadsOf w :=
        Paging.threadsOf_same rfl rfl rfl rfl
      have hview : pagingScheduler.view u = pagingScheduler.view w := by
        rw [view_onlyLocked honly]
        show Server.mk _ _ = Server.mk _ _
        rw [hset]
      have hcurrent : (pagingScheduler.view u).current = (v.currentPriority + 1) % 5 := by
        rw [hview]
        exact hkept.1.trans hcp
      have hcounter : pagingScheduler.counter u = 0 :=
        honly.runAtPriority.trans (hkept.2.trans hcc)
      have hthreads : (pagingScheduler.view u).level = Paging.threadsOf w := by rw [hview]; rfl
      have hfound : Found pagingScheduler c u ((v.currentPriority + 1) % 5) := by
        refine ⟨hcounter.trans hcc.symm, ⟨0, ?_, fun j hj => absurd hj (Nat.not_lt_zero j)⟩,
          ⟨t, ?_, ?_⟩, ?_⟩
        · rw [hcurrent, Nat.cast_zero, add_zero, Int.emod_emod]
        · exact congrArg some honly.running
        · rw [hthreads, hcurrent, ← hcp]
          exact hhead
        · intro p hne
          rw [hcurrent, ← hcp] at hne
          rw [hthreads]
          exact hother p hne
      obtain ⟨x, hx, hserves⟩ := hfound.serves
      have hlevels' : (pagingScheduler.view c).level = Paging.threadsOf v := hsame
      rw [hlevels'] at hserves
      exact ⟨hcounter, pagingScheduler.view v, x, ⟨hcur, hprefix⟩, hx, hserves⟩

end Second

/-- **No overtaking beyond one round**: in all runs of the handler of `my_pthread.c`, and in
those of the handler with the page protections whose queue operations meet no locked frame. -/
theorem no_overtaking (s t : State) (ds : List (Int × Nat)) (m u : Paging.Machine)
    (es : List (Int × Nat)) :
    (s.runAtPriority = 0 → InRange 5 s.currentPriority →
      Ops scheduler (fun _ => True) s ds t → InTurn 5 scheduler s ds t) ∧
    (m.runAtPriority = 0 → InRange 5 m.currentPriority →
      Ops pagingScheduler Paging.QueuesOk m es u → InTurn 5 pagingScheduler m es u) :=
  ⟨lawful_scheduler.noOvertaking s ds t, lawful_pagingScheduler.noOvertaking m es u⟩

/-- Thread 1 runs at level 0, threads 2 and 3 wait at level 1, and all three yield. -/
def threeYielding : State where
  init := true
  thread t := ⟨t, if t = 1 then 0 else 1, 0, -1, .yield, 0⟩
  pc := fun _ => .own
  running := some 1
  level p := if p = 1 then [2, 3] else []
  currentPriority := 0
  runAtPriority := 0
  threadCount := 4
  tidList := []
  threadTable := fun _ => none
  waiting := fun _ => none
  done := fun _ => false
  mutex := fun _ => ⟨none, none⟩
  mutexList := fun _ => none
  armed := true
  cont := true

/-- Thread 1 runs at level 0 and yields; threads 2 and 3 wait at level 1, in nodes outside
`memory`. -/
def twoWaiting : Paging.Machine where
  pages := Paging.blankSession.pages
  frames := fun _ _ => 0
  locked := fun _ => false
  outside := fun a =>
    if 2097152 ≤ a ∧ a < 2097168 then some (Paging.nodeByte 2 2097184 (a - 2097152))
    else if 2097184 ≤ a ∧ a < 2097200 then some (Paging.nodeByte 3 2097152 (a - 2097184))
    else none
  running := 1
  sched := fun t => ⟨0, 0, if t = 1 then .yield else .active⟩
  queue := fun p => if p = 1 then ⟨2097184, 2⟩ else ⟨0, 0⟩
  waiting := fun _ => none
  currentPriority := 0
  runAtPriority := 0

/-- The nodes of `twoWaiting`. -/
def twoNodes : Queues.Heap := fun n =>
  if n = 2097152 then some ⟨2, some 2097184⟩
  else if n = 2097184 then some ⟨3, some 2097152⟩ else none

private theorem twoNodes_cases {n : Nat} {x : Queues.Node} (h : twoNodes n = some x) :
    n = 2097152 ∧ x = ⟨2, some 2097184⟩ ∨ n = 2097184 ∧ x = ⟨3, some 2097152⟩ := by
  unfold twoNodes at h
  split at h
  case isTrue hn => exact Or.inl ⟨hn, (Option.some.inj h).symm⟩
  case isFalse =>
    split at h
    case isTrue hn => exact Or.inr ⟨hn, (Option.some.inj h).symm⟩
    case isFalse => cases h

private theorem threadsOf_twoWaiting (p : Int) :
    Paging.threadsOf twoWaiting p = if p = 1 then [2, 3] else [] := by
  by_cases hp : p = 1
  · subst hp
    decide +kernel
  · have hqueue : twoWaiting.queue p = ⟨0, 0⟩ := if_neg hp
    rw [if_neg hp, Paging.threadsOf, hqueue]
    rfl

private theorem levels_twoWaiting :
    Paging.Levels twoWaiting twoNodes fun p => if p = 1 then [2097152, 2097184] else [] := by
  have hwords : Paging.wordAt twoWaiting 2097152 = some 2 ∧
      Paging.wordAt twoWaiting 2097160 = some 2097184 ∧
      Paging.wordAt twoWaiting 2097184 = some 3 ∧
      Paging.wordAt twoWaiting 2097192 = some 2097152 := by decide +kernel
  obtain ⟨hword₁, hlink₁, hword₂, hlink₂⟩ := hwords
  constructor
  case shows =>
    constructor
    case thread =>
      intro n x hx
      rcases twoNodes_cases hx with ⟨rfl, rfl⟩ | ⟨rfl, rfl⟩
      · exact hword₁
      · exact hword₂
    case next =>
      intro n x hx
      rcases twoNodes_cases hx with ⟨rfl, rfl⟩ | ⟨rfl, rfl⟩
      · exact ⟨2097184, hlink₁, rfl⟩
      · exact ⟨2097152, hlink₂, rfl⟩
    case apart =>
      intro n k x y hx hy hne
      rcases twoNodes_cases hx with ⟨rfl, _⟩ | ⟨rfl, _⟩ <;>
        rcases twoNodes_cases hy with ⟨rfl, _⟩ | ⟨rfl, _⟩ <;> omega
    case bound =>
      intro n x hx
      rcases twoNodes_cases hx with ⟨rfl, _⟩ | ⟨rfl, _⟩ <;> norm_num
  case queues =>
    constructor
    case holds =>
      intro p
      rw [threadsOf_twoWaiting]
      by_cases hp : p = 1
      · simp only [if_pos hp, twoWaiting]
        constructor
        case ring =>
          refine ⟨by decide, by simp [Queues.nextIn, twoNodes], ?_⟩
          intro a ha z hz
          obtain rfl := Option.some.inj ha
          obtain rfl := Option.some.inj hz
          rfl
        case back => rfl
        case size => rfl
        case threads => rfl
      · simp only [if_neg hp, twoWaiting]
        exact ⟨Rings.isRing_nil _, rfl, rfl, rfl⟩
    case apart =>
      intro p r hne
      by_cases hp : p = 1
      · have hr : r ≠ 1 := fun heq => hne (hp.trans heq.symm)
        simp only [if_neg hr]
        exact List.disjoint_nil_right _
      · simp only [if_neg hp]
        exact List.disjoint_nil_left _

private theorem queuesOk_twoWaiting : Paging.QueuesOk twoWaiting := by
  constructor
  case lists => exact Paging.held_blankSession
  case levels =>
    refine ⟨_, _, levels_twoWaiting, fun k y hk => ?_⟩
    have haddress : Paging.nodeAddress twoWaiting = 8193 := by decide +kernel
    rw [haddress]
    rcases twoNodes_cases hk with ⟨rfl, _⟩ | ⟨rfl, _⟩ <;> omega
  case short =>
    intro p
    rw [threadsOf_twoWaiting]
    split <;> simp
  case address =>
    show 8192 + 256 * 4096 ≤ 2 ^ 64
    norm_num
  case threads => exact ⟨by simp [twoWaiting], fun i w hw => by cases hw⟩
  case quiet =>
    have hsome : (Paging.alarmHandler Paging.undisturbed twoWaiting).isSome = true := by
      decide +kernel
    exact Option.isSome_iff_exists.mp hsome

/-- In ten calls thread 3 is dispatched; with the page protections thread 1 is put back on a
page of its own, and thread 2 is dispatched from level 1. -/
theorem no_overtaking_yield :
    (∃ ds t, callHandler scheduler 10 threeYielding = some (ds, t) ∧
      (1, 3) ∈ ds ∧ t.runAtPriority = 0) ∧
    ∃ u, Paging.schedulerAlarmHandler twoWaiting = some u ∧ Paging.threadsOf u 0 = [1] ∧
      Paging.threadsOf u 1 = [3] ∧ u.running = 2 ∧ u.runAtPriority = 0 := by
  have hten : ((callHandler scheduler 10 threeYielding).map fun r => r.1.length) = some 10 := by
    decide +kernel
  obtain ⟨⟨ds, t⟩, hrun, hlen⟩ := Option.map_eq_some_iff.mp hten
  have hsome : ((Paging.schedulerAlarmHandler twoWaiting).map fun u =>
      (pagingScheduler.resumes twoWaiting, Paging.threadsOf u 0, Paging.threadsOf u 1,
        u.running)) = some (false, [1], [3], 2) := by decide +kernel
  obtain ⟨u, hcall, hsees⟩ := Option.map_eq_some_iff.mp hsome
  simp only [Prod.mk.injEq] at hsees
  obtain ⟨hresume, hback, hwaits, hruns⟩ := hsees
  have hops : Ops pagingScheduler Paging.QueuesOk twoWaiting [(u.currentPriority, u.running)] u :=
    .dispatch queuesOk_twoWaiting hcall hresume rfl (.nil u)
  obtain ⟨hfirst, hsecond⟩ := no_overtaking threeYielding t ds twoWaiting u
    [(u.currentPriority, u.running)]
  have hturn := hfirst rfl ⟨by decide, by decide⟩ (ops_callHandler hrun)
  have hturn' := hsecond rfl ⟨by decide, by decide⟩ hops
  have hmem := hturn.thread 1 [2] 3 [] ⟨by decide, by decide⟩ rfl hlen.ge
  exact ⟨⟨ds, t, hrun, List.mem_of_mem_take hmem, hturn.counter⟩,
    u, hcall, hback, hwaits, hruns, hturn'.counter⟩

/-- Thread 1 waits at level 0, in a node on the page that it took for it, which is locked;
thread 2 has used up its time at the last level. -/
def nodeElsewhere : Paging.Machine where
  pages := Paging.takePage 1 Paging.blankSession.pages
  frames := fun f j =>
    if f = 0 ∧ 1 ≤ j ∧ j < 17 then Paging.nodeByte 1 8193 (j - 1) else 0
  locked := fun f => f = 0
  outside := fun _ => none
  running := 2
  sched := fun t => if t = 2 then ⟨4, 4, .active⟩ else ⟨0, 0, .active⟩
  queue := fun p => if p = 0 then ⟨8193, 1⟩ else ⟨0, 0⟩
  waiting := fun _ => none
  currentPriority := 4
  runAtPriority := 0

/-- Thread 2 is dispatched from each of the five levels: the node of thread 1 has the address
of its own first node. -/
theorem waiting_thread_lost :
    ¬ (NoOvertaking 5 scheduler (fun _ => True) ∧
      NoOvertaking 5 pagingScheduler fun _ => True) := by
  intro hclaim
  have hsome : (callHandler pagingScheduler 11 nodeElsewhere).map Prod.fst =
      some [(0, 2), (1, 2), (2, 2), (3, 2), (4, 2)] := by decide +kernel
  have hwaits : Paging.threadsOf nodeElsewhere 0 = [1] := by decide +kernel
  obtain ⟨⟨ds, t⟩, hrun, rfl⟩ := Option.map_eq_some_iff.mp hsome
  have hturn := hclaim.2 nodeElsewhere _ t rfl ⟨by decide, by decide⟩ (ops_callHandler hrun)
  have hmem := hturn.thread 0 [] 1 [] ⟨by decide, by decide⟩ hwaits (by decide)
  revert hmem
  decide

end Threads
