import CS416.Lib.Levels
import CS416.Threads.Machine

/-!
# What a dispatch does

The handler puts the running thread, or the thread that waited for it, into the
ready queues and takes the next thread out of them.  It changes no queue of a
mutex, no table and no program counter.
-/

namespace Threads

/-- All ready threads. -/
def ready (s : State) : List Nat := Levels.flat 5 s.level

/-- The levels are numbered from 0. -/
def IsLevel (p : Int) : Prop := 0 ≤ p ∧ p < numPriority

def Runnable (x : Status) : Prop := x = .active ∨ x = .yield

/-- The threads that the handler puts into the ready queues when it interrupts `r`. -/
def putBack (r : Nat) (s : State) : List Nat :=
  match (s.thread r).status with
  | .active | .yield => [r]
  | .threadExit => (s.waiting (s.thread r).id).toList
  | .waitThread | .waitMutex => []

/-- The thread that the handler wakes. -/
def woken (r : Nat) (s : State) : List Nat :=
  match (s.thread r).status with
  | .threadExit => (s.waiting (s.thread r).id).toList
  | _ => []

/-- What the scheduler leaves alone. -/
structure Frame (s s' : State) : Prop where
  init : s'.init = s.init
  pc : s'.pc = s.pc
  threadCount : s'.threadCount = s.threadCount
  tidList : s'.tidList = s.tidList
  threadTable : s'.threadTable = s.threadTable
  waiting : s'.waiting = s.waiting
  done : s'.done = s.done
  mutex : s'.mutex = s.mutex
  mutexList : s'.mutexList = s.mutexList

/-- What the scheduler leaves alone in a thread; the threads in `wake` become active. -/
structure Serves (wake : List Nat) (s s' : State) : Prop where
  status : ∀ u, (s'.thread u).status = if u ∈ wake then .active else (s.thread u).status
  id : ∀ u, (s'.thread u).id = (s.thread u).id
  waitId : ∀ u, (s'.thread u).waitId = (s.thread u).waitId
  ret : ∀ u, (s'.thread u).ret = (s.thread u).ret
  priority : ∀ u, IsLevel (s.thread u).priority → IsLevel (s'.thread u).priority

/-- The running thread `r` is interrupted, and `t` is dispatched. -/
structure Dispatched (r t : Nat) (s s' : State) : Prop where
  running : s'.running = some t
  queues : (putBack r s ++ ready s).Perm (t :: ready s')
  serves : Serves (woken r s) s s'
  current : IsLevel s'.currentPriority
  frame : Frame s s'

section Dispatch

variable {s s' u : State} {r t : Nat} {p : Int}

/-- The fields that belong to the scheduler. -/
theorem Frame.sched (s : State) (thread : Nat → MyPthread) (running : Option Nat)
    (level : Int → List Nat) (cp rap : Int) (armed cont : Bool) :
    Frame s { s with thread := thread, running := running, level := level,
                     currentPriority := cp, runAtPriority := rap, armed := armed, cont := cont } :=
  ⟨rfl, rfl, rfl, rfl, rfl, rfl, rfl, rfl, rfl⟩

/-- One call after another. -/
theorem Frame.trans (h : Frame s u) (h' : Frame u s') : Frame s s' where
  init := h'.init.trans h.init
  pc := h'.pc.trans h.pc
  threadCount := h'.threadCount.trans h.threadCount
  tidList := h'.tidList.trans h.tidList
  threadTable := h'.threadTable.trans h.threadTable
  waiting := h'.waiting.trans h.waiting
  done := h'.done.trans h.done
  mutex := h'.mutex.trans h.mutex
  mutexList := h'.mutexList.trans h.mutexList

/-- A change of one thread's counters. -/
theorem Serves.count {f : MyPthread → MyPthread}
    (hstatus : ∀ x, (f x).status = x.status) (hid : ∀ x, (f x).id = x.id)
    (hwait : ∀ x, (f x).waitId = x.waitId) (hret : ∀ x, (f x).ret = x.ret)
    (hprio : ∀ x, IsLevel x.priority → IsLevel (f x).priority) :
    Serves [] s (s.setThread t f) := by
  have hcases : ∀ v, (s.setThread t f).thread v = s.thread v ∨
      (s.setThread t f).thread v = f (s.thread v) := by
    intro v
    by_cases hv : v = t
    · subst hv
      exact Or.inr (by simp [State.setThread])
    · exact Or.inl (by simp [State.setThread, hv])
  constructor
  case status =>
    intro v
    rcases hcases v with h | h
    · simp [h]
    · simp [h, hstatus]
  case id =>
    intro v
    rcases hcases v with h | h
    · rw [h]
    · rw [h, hid]
  case waitId =>
    intro v
    rcases hcases v with h | h
    · rw [h]
    · rw [h, hwait]
  case ret =>
    intro v
    rcases hcases v with h | h
    · rw [h]
    · rw [h, hret]
  case priority =>
    intro v hv
    rcases hcases v with h | h
    · rw [h]
      exact hv
    · rw [h]
      exact hprio _ hv

/-- The ready threads are in the queues of the levels. -/
theorem mem_ready : t ∈ ready s ↔ ∃ p, IsLevel p ∧ t ∈ s.level p := by
  unfold ready
  rw [Levels.mem_flat]
  constructor
  · intro h
    obtain ⟨i, hi, hmem⟩ := h
    exact ⟨i, ⟨by omega, by simp only [numPriority]; omega⟩, hmem⟩
  · intro h
    obtain ⟨p, ⟨h₀, h₁⟩, hmem⟩ := h
    simp only [numPriority] at h₁
    refine ⟨p.toNat, by omega, ?_⟩
    rw [Int.toNat_of_nonneg h₀]
    exact hmem

/-- Level 0 is one of them. -/
theorem isLevel_zero : IsLevel 0 := ⟨le_rfl, by decide⟩

/-- The level after a level. -/
theorem isLevel_next (hp : IsLevel p) : IsLevel ((p + 1).tmod numPriority) := by
  obtain ⟨h₀, h₁⟩ := hp
  rw [Int.tmod_eq_emod_of_nonneg (by omega)]
  exact ⟨Int.emod_nonneg _ (by decide), Int.emod_lt_of_pos _ (by decide)⟩

/-- `enqueue` adds a ready thread. -/
theorem ready_enqueue (hp : IsLevel p) : (ready (enqueue t p s)).Perm (t :: ready s) :=
  Levels.flat_push hp.1 hp.2

/-- `get_next` takes a ready thread away. -/
theorem getNext_some (hp : IsLevel p) (h : getNext p s = (some t, s')) :
    (ready s).Perm (t :: ready s') ∧ s' = { s with level := s'.level } := by
  unfold getNext at h
  split at h
  case h_1 => cases h
  case h_2 v rest hq =>
    obtain ⟨hv, rfl⟩ := Prod.mk.inj h
    obtain rfl := Option.some.inj hv
    exact ⟨Levels.flat_pop hp.1 hp.2 hq, rfl⟩

private theorem getNext_none (h : getNext p s = (none, s')) : s' = s := by
  unfold getNext at h
  split at h
  case h_1 => exact (Prod.mk.inj h).2.symm
  case h_2 => cases h

/-- **The selection loop** takes the thread it dispatches out of the queues. -/
theorem findThread_spec {n : Nat} (hp : IsLevel s.currentPriority)
    (h : findThread n s = some s') :
    ∃ t, s'.running = some t ∧ (ready s).Perm (t :: ready s') ∧ s'.thread = s.thread ∧
      IsLevel s'.currentPriority ∧ Frame s s' := by
  induction n generalizing s with
  | zero => cases h
  | succ n ih =>
      unfold findThread at h
      split at h
      case h_1 t v hnext =>
        obtain rfl := Option.some.inj h
        obtain ⟨hperm, heq⟩ := getNext_some hp hnext
        refine ⟨t, rfl, hperm, ?_, ?_, ?_⟩
        · rw [heq]
        · rw [heq]
          exact hp
        · rw [heq]
          exact Frame.sched _ _ _ _ _ _ _ _
      case h_2 v hnext =>
        obtain rfl := getNext_none hnext
        obtain ⟨t, hrun, hperm, hthread, hlevel, hframe⟩ := ih (isLevel_next hp) h
        exact ⟨t, hrun, hperm, hthread, hlevel, (Frame.sched _ _ _ _ _ _ _ _).trans hframe⟩

/-- The update of the counters moves no thread. -/
theorem updateCounters_spec (hp : IsLevel s.currentPriority) :
    ready (updateCounters s) = ready s ∧ (updateCounters s).thread = s.thread ∧
      IsLevel (updateCounters s).currentPriority ∧ Frame s (updateCounters s) := by
  unfold updateCounters
  split
  · exact ⟨rfl, rfl, isLevel_next hp, Frame.sched _ _ _ _ _ _ _ _⟩
  · exact ⟨rfl, rfl, hp, Frame.sched _ _ _ _ _ _ _ _⟩

/-- A woken thread is active and ready. -/
theorem activate_spec (hp : IsLevel (s.thread t).priority) :
    (ready (activate t s)).Perm (t :: ready s) ∧ Serves [t] s (activate t s) ∧
      (activate t s).running = s.running ∧
      (activate t s).currentPriority = s.currentPriority ∧ Frame s (activate t s) := by
  refine ⟨ready_enqueue hp, ?_, rfl, rfl, Frame.sched _ _ _ _ _ _ _ _⟩
  have hcases : ∀ v, (activate t s).thread v =
      if v = t then { s.thread v with status := .active } else s.thread v := by
    intro v
    by_cases hv : v = t
    · subst hv
      simp [activate, enqueue, State.setThread]
    · simp [activate, enqueue, State.setThread, hv]
  constructor
  case status =>
    intro v
    rw [hcases]
    by_cases hv : v = t <;> simp [hv]
  case id =>
    intro v
    rw [hcases]
    split <;> rfl
  case waitId =>
    intro v
    rw [hcases]
    split <;> rfl
  case ret =>
    intro v
    rw [hcases]
    split <;> rfl
  case priority =>
    intro v hv
    rw [hcases]
    split <;> exact hv

/-- One step of the handler after another. -/
theorem Serves.trans {wake : List Nat} (h : Serves [] s u) (h' : Serves wake u s') :
    Serves wake s s' where
  status v := by
    rw [h'.status v, h.status v]
    simp
  id v := (h'.id v).trans (h.id v)
  waitId v := (h'.waitId v).trans (h.waitId v)
  ret v := (h'.ret v).trans (h.ret v)
  priority v hv := h'.priority v (h.priority v hv)

private theorem Serves.of_thread {wake : List Nat} (h : Serves wake s u)
    (heq : s'.thread = u.thread) :
    Serves wake s s' := by
  constructor
  case status =>
    rw [heq]
    exact h.status
  case id =>
    rw [heq]
    exact h.id
  case waitId =>
    rw [heq]
    exact h.waitId
  case ret =>
    rw [heq]
    exact h.ret
  case priority =>
    rw [heq]
    exact h.priority

theorem Serves.refl (s : State) : Serves [] s s where
  status := by simp
  id _ := rfl
  waitId _ := rfl
  ret _ := rfl
  priority _ h := h

/-- The running thread is charged an interval. -/
theorem serves_charge (r : Nat) (n : Int) (s : State) :
    Serves [] s (s.setThread r fun x => { x with intervalsRun := n }) :=
  Serves.count (fun _ => rfl) (fun _ => rfl) (fun _ => rfl) (fun _ => rfl) (fun _ h => h)

/-- The running thread drops a level. -/
theorem serves_drop (r : Nat) (s : State) :
    Serves [] s (s.setThread r fun x =>
      { x with intervalsRun := 0, priority := (x.priority + 1).tmod numPriority }) :=
  Serves.count (fun _ => rfl) (fun _ => rfl) (fun _ => rfl) (fun _ => rfl)
    (fun _ h => isLevel_next h)

/-- What the `switch` comes to. -/
structure Switched (r : Nat) (s : State) (out : State × Bool) : Prop where
  resumes : out.2 = true → putBack r s = [r] ∧ ready out.1 = ready s
  goesOn : out.2 = false → (putBack r s ++ ready s).Perm (ready out.1)
  serves : Serves (woken r s) s out.1
  running : out.1.running = s.running
  current : out.1.currentPriority = s.currentPriority
  frame : Frame s out.1

private theorem switched_active (hr : IsLevel (s.thread r).priority)
    (hstatus : (s.thread r).status = .active) : Switched r s (switchStatus r s) := by
  have hback : putBack r s = [r] := by simp [putBack, hstatus]
  have hwoken : woken r s = [] := by simp [woken, hstatus]
  have hcharge := serves_charge r ((s.thread r).intervalsRun + 1) s
  unfold switchStatus
  rw [hstatus]
  dsimp only
  split
  case isTrue hlt =>
    constructor
    case resumes => exact fun _ => ⟨hback, rfl⟩
    case goesOn => exact fun h => Bool.noConfusion h
    case serves => exact hwoken ▸ hcharge.of_thread rfl
    case running => rfl
    case current => rfl
    case frame => exact Frame.sched _ _ _ _ _ _ _ _
  case isFalse hlt =>
    have hdrop := hcharge.trans (serves_drop r _)
    have hlevel := hdrop.priority r hr
    constructor
    case resumes => exact fun h => Bool.noConfusion h
    case goesOn =>
      intro _
      rw [hback]
      exact (ready_enqueue hlevel).symm
    case serves => exact hwoken ▸ hdrop.of_thread rfl
    case running => rfl
    case current => rfl
    case frame => exact Frame.sched _ _ _ _ _ _ _ _

private theorem switched_exit (hstatus : (s.thread r).status = .threadExit)
    (hrange : ∀ v ∈ woken r s, IsLevel (s.thread v).priority) :
    Switched r s (switchStatus r s) := by
  have hback : putBack r s = (s.waiting (s.thread r).id).toList := by simp [putBack, hstatus]
  have hwoken : woken r s = (s.waiting (s.thread r).id).toList := by simp [woken, hstatus]
  unfold switchStatus
  rw [hstatus]
  dsimp only
  cases hwait : s.waiting (s.thread r).id with
  | none =>
      rw [hwait] at hback hwoken
      constructor
      case resumes => exact fun h => Bool.noConfusion h
      case goesOn =>
        intro _
        rw [hback]
        exact List.Perm.refl _
      case serves => exact hwoken ▸ (Serves.refl s).of_thread rfl
      case running => rfl
      case current => rfl
      case frame => exact Frame.sched _ _ _ _ _ _ _ _
  | some w =>
      rw [hwait] at hback hwoken
      have hlevel : IsLevel (s.thread w).priority := hrange w (by simp [hwoken])
      obtain ⟨hready, hserves, hrunning, hcurrent, hframe⟩ := activate_spec hlevel
      constructor
      case resumes => exact fun h => Bool.noConfusion h
      case goesOn =>
        intro _
        rw [hback]
        exact hready.symm
      case serves => exact hwoken ▸ hserves
      case running => exact hrunning
      case current => exact hcurrent
      case frame => exact hframe

/-- **The `switch`** puts the threads of `putBack` into the queues, or resumes. -/
theorem switchStatus_spec (hr : IsLevel (s.thread r).priority)
    (hrange : ∀ v ∈ woken r s, IsLevel (s.thread v).priority) :
    Switched r s (switchStatus r s) := by
  cases hstatus : (s.thread r).status with
  | active => exact switched_active hr hstatus
  | threadExit => exact switched_exit hstatus hrange
  | yield =>
      have hback : putBack r s = [r] := by simp [putBack, hstatus]
      have hwoken : woken r s = [] := by simp [woken, hstatus]
      unfold switchStatus
      rw [hstatus]
      dsimp only
      constructor
      case resumes => exact fun h => Bool.noConfusion h
      case goesOn =>
        intro _
        rw [hback]
        exact (ready_enqueue hr).symm
      case serves => exact hwoken ▸ (Serves.refl s).of_thread rfl
      case running => rfl
      case current => rfl
      case frame => exact Frame.sched _ _ _ _ _ _ _ _
  | waitThread | waitMutex =>
      have hback : putBack r s = [] := by simp [putBack, hstatus]
      have hwoken : woken r s = [] := by simp [woken, hstatus]
      unfold switchStatus
      rw [hstatus]
      dsimp only
      constructor
      case resumes => exact fun h => Bool.noConfusion h
      case goesOn =>
        intro _
        rw [hback]
        exact List.Perm.refl _
      case serves => exact hwoken ▸ (Serves.refl s).of_thread rfl
      case running => rfl
      case current => rfl
      case frame => exact Frame.sched _ _ _ _ _ _ _ _

/-- **The handler** interrupts the running thread and dispatches one out of the queues. -/
theorem schedulerAlarmHandler_spec (hrun : s.running = some r)
    (hr : IsLevel (s.thread r).priority)
    (hrange : ∀ v ∈ woken r s, IsLevel (s.thread v).priority) (hp : IsLevel s.currentPriority)
    (h : schedulerAlarmHandler s = some s') : ∃ t, Dispatched r t s s' := by
  have hswitch : Switched r s.pauseTimer (switchStatus r s.pauseTimer) :=
    switchStatus_spec hr hrange
  unfold schedulerAlarmHandler at h
  rw [hrun] at h
  dsimp only at h
  generalize switchStatus r s.pauseTimer = out at h hswitch
  obtain ⟨v, resume⟩ := out
  dsimp only at h
  have hserves := hswitch.serves
  have hframe : Frame s v := (Frame.sched _ _ _ _ _ _ _ _).trans hswitch.frame
  have hcurrent : IsLevel v.currentPriority := by
    rw [hswitch.current]
    exact hp
  cases resume with
  | true =>
      obtain ⟨hback, hready⟩ := hswitch.resumes rfl
      rw [if_pos rfl] at h
      obtain rfl := Option.some.inj h
      refine ⟨r, hswitch.running.trans hrun, ?_, ⟨hserves.status, hserves.id, hserves.waitId,
        hserves.ret, hserves.priority⟩, hcurrent, hframe.trans (Frame.sched _ _ _ _ _ _ _ _)⟩
      show (putBack r s.pauseTimer ++ ready s.pauseTimer).Perm (r :: ready v)
      rw [hback, hready]
      exact List.Perm.refl _
  | false =>
      rw [if_neg Bool.false_ne_true] at h
      obtain ⟨u, hfind, rfl⟩ := Option.map_eq_some_iff.mp h
      obtain ⟨hready, hthread, hlevel, hcount⟩ := updateCounters_spec hcurrent
      obtain ⟨t, hrunning, hperm, hsame, hlevel', hfind⟩ := findThread_spec hlevel hfind
      have hall := hserves.of_thread (hsame.trans hthread)
      refine ⟨t, hrunning, ?_, ⟨hall.status, hall.id, hall.waitId, hall.ret, hall.priority⟩,
        hlevel', ((hframe.trans hcount).trans hfind).trans (Frame.sched _ _ _ _ _ _ _ _)⟩
      have hback := hswitch.goesOn rfl
      rw [← hready] at hback
      exact hback.trans hperm

private theorem getNext_frame (p : Int) (s : State) : Frame s (getNext p s).2 := by
  unfold getNext
  split
  · exact Frame.sched _ _ _ _ _ _ _ _
  · exact Frame.sched _ _ _ _ _ _ _ _

private theorem findThread_frame {n : Nat} (h : findThread n s = some s') : Frame s s' := by
  induction n generalizing s with
  | zero => cases h
  | succ n ih =>
      have hnext := getNext_frame s.currentPriority s
      unfold findThread at h
      split at h
      case h_1 t v heq =>
        obtain rfl := Option.some.inj h
        rw [heq] at hnext
        exact hnext.trans (Frame.sched _ _ _ _ _ _ _ _)
      case h_2 v heq =>
        rw [heq] at hnext
        exact hnext.trans ((Frame.sched _ _ _ _ _ _ _ _).trans (ih h))

private theorem switchStatus_frame (r : Nat) (s : State) : Frame s (switchStatus r s).1 := by
  unfold switchStatus
  cases (s.thread r).status with
  | active =>
      dsimp only
      split
      · exact Frame.sched _ _ _ _ _ _ _ _
      · exact Frame.sched _ _ _ _ _ _ _ _
  | threadExit =>
      dsimp only
      cases s.waiting (s.thread r).id with
      | none => exact Frame.sched _ _ _ _ _ _ _ _
      | some w => exact Frame.sched _ _ _ _ _ _ _ _
  | yield | waitThread | waitMutex => exact Frame.sched _ _ _ _ _ _ _ _

/-- The `switch` leaves `current_priority` alone. -/
theorem switchStatus_current (r : Nat) (s : State) :
    (switchStatus r s).1.currentPriority = s.currentPriority := by
  unfold switchStatus
  cases (s.thread r).status with
  | active =>
      dsimp only
      split <;> rfl
  | threadExit =>
      dsimp only
      cases s.waiting (s.thread r).id <;> rfl
  | yield | waitThread | waitMutex => rfl

private theorem updateCounters_frame (s : State) : Frame s (updateCounters s) := by
  unfold updateCounters
  split
  · exact Frame.sched _ _ _ _ _ _ _ _
  · exact Frame.sched _ _ _ _ _ _ _ _

/-- Whatever the state of the threads, the handler leaves the rest alone. -/
theorem schedulerAlarmHandler_frame (h : schedulerAlarmHandler s = some s') : Frame s s' := by
  unfold schedulerAlarmHandler at h
  split at h
  case h_1 => cases h
  case h_2 r hrun =>
    have hswitch := switchStatus_frame r s.pauseTimer
    dsimp only at h
    generalize switchStatus r s.pauseTimer = out at h hswitch
    have hpause : Frame s s.pauseTimer := Frame.sched _ _ _ _ _ _ _ _
    split at h
    · obtain rfl := Option.some.inj h
      exact hpause.trans (hswitch.trans (Frame.sched _ _ _ _ _ _ _ _))
    · obtain ⟨u, hfind, rfl⟩ := Option.map_eq_some_iff.mp h
      have hrest := (updateCounters_frame out.1).trans (findThread_frame hfind)
      exact hpause.trans (hswitch.trans (hrest.trans (Frame.sched _ _ _ _ _ _ _ _)))

end Dispatch

end Threads
