import CS416.Threads.Dispatch
import CS416.Threads.Transitions

/-!
# What holds between steps

Three groups of facts: where the threads are queued, who has which ID, and who
joins whom.  Each kind of step keeps them; a step that signals keeps them up to
the dispatch, and the dispatch restores the rest.
-/

namespace Threads

def State.stage (s : State) (t : Nat) : Stage := (s.pc t).stage

/-- The join that a thread is in. -/
def Stage.wanted : Stage → Option Target
  | .asking j | .joining j | .sleeping j => some j
  | _ => none

/-- The join of a thread that was found in `thread_table`. -/
def Stage.target : Stage → Option Target
  | .joining j | .sleeping j => some j
  | _ => none

/-- The places where a thread has entered itself in a queue and is about to signal. -/
def Pc.Signals (p : Pc) : Prop := (∃ m, p = .lockRaise m) ∨ ∃ j, p = .joinRaise j

/-- The ready queues and the queues of the mutexes. -/
structure Queues (s : State) : Prop where
  nodup : (ready s).Nodup
  ready : ∀ t ∈ ready s, s.running ≠ some t ∧ s.stage t ≠ .unborn ∧ Runnable (s.thread t).status
  runnable : ∀ t, s.stage t ≠ .unborn → Runnable (s.thread t).status →
    s.running = some t ∨ t ∈ Threads.ready s
  level : ∀ t, s.stage t ≠ .unborn → IsLevel (s.thread t).priority
  current : IsLevel s.currentPriority
  gone : ∀ t, s.stage t ≠ .unborn → ((s.thread t).status = .threadExit ↔ s.stage t = .exited)
  wanting : ∀ t, s.stage t ≠ .unborn → (s.thread t).status = .waitMutex →
    ∃ m q, s.stage t = .locking m ∧ (s.mutex m).waiting = some q ∧ t ∈ q
  queue : ∀ m q, (s.mutex m).waiting = some q → q.Nodup ∧
    ∀ t ∈ q, s.stage t = .locking m ∧ (s.thread t).status = .waitMutex

/-- The IDs: an ID belongs to one thread until that thread is joined. -/
structure Tables (s : State) : Prop where
  main : s.stage 0 ≠ .unborn ∧ (s.thread 0).id = 0
  table : ∀ i u, s.threadTable i = some u → s.stage u ≠ .unborn ∧ (s.thread u).id = i ∧
    1 ≤ i ∧ i < threadLim ∧ i < s.threadCount ∧ i ∉ s.tidList
  entered : ∀ u, u ≠ 0 → s.stage u ≠ .unborn → s.stage u ≠ .exited →
    s.threadTable (s.thread u).id = some u
  done : ∀ i u, s.threadTable i = some u → (s.done i = true ↔ s.stage u = .exited)
  nodup : s.tidList.Nodup
  free : ∀ i ∈ s.tidList, 1 ≤ i ∧ i < threadLim ∧ i < s.threadCount
  cover : ∀ i, 1 ≤ i → i < threadLim → i < s.threadCount → s.threadTable i ≠ none ∨ i ∈ s.tidList
  count : 1 ≤ s.threadCount

/-- The joins: one thread at a time has found a given ID. -/
structure Joins (s : State) : Prop where
  asleep : ∀ t, s.stage t ≠ .unborn → (s.thread t).status = .waitThread →
    ∃ j, s.stage t = .sleeping j ∧ s.waiting j.id = some t
  waiter : ∀ i w, s.waiting i = some w → (s.thread w).waitId = i ∧
    ∃ j, s.stage w = .sleeping j ∧ j.id = i ∧
      ((s.thread w).status = .waitThread ∨ s.done i = true)
  found : ∀ z j, (s.stage z).target = some j → s.threadTable j.id ≠ none
  alone : ∀ z z' j j', (s.stage z).target = some j → (s.stage z').target = some j' →
    j.id = j'.id → z = z'
  woken : ∀ z j, s.stage z = .sleeping j → Runnable (s.thread z).status → s.done j.id = true

structure Core (s : State) : Prop where
  queues : Queues s
  tables : Tables s
  joins : Joins s

/-- The running thread can run, or is about to signal. -/
structure Inv (s : State) : Prop where
  core : Core s
  running : ∃ r, s.running = some r ∧ s.stage r ≠ .unborn ∧
    (Runnable (s.thread r).status ∨ (s.pc r).Signals)

/-- Two statuses that count the same for the queues. -/
def SameStatus (x y : Status) : Prop := x = y ∨ Runnable x ∧ Runnable y

/-- A thread that can run does not sleep. -/
theorem Runnable.ne {x y : Status} (h : Runnable x)
    (hy : y = .waitThread ∨ y = .waitMutex ∨ y = .threadExit) : x ≠ y := by
  rcases h with rfl | rfl <;> rcases hy with rfl | rfl | rfl <;> decide

/-- A thread can run, sleeps, or has exited. -/
theorem runnable_or (x : Status) :
    Runnable x ∨ x = .waitThread ∨ x = .waitMutex ∨ x = .threadExit := by
  cases x <;> simp [Runnable]

/-- Whether a thread can run is the same. -/
theorem SameStatus.runnable {x y : Status} (h : SameStatus x y) : Runnable x ↔ Runnable y := by
  rcases h with rfl | ⟨hx, hy⟩
  · exact Iff.rfl
  · exact ⟨fun _ => hy, fun _ => hx⟩

private theorem SameStatus.eq_iff {x y z : Status} (h : SameStatus x y)
    (hz : z = .waitThread ∨ z = .waitMutex ∨ z = .threadExit) : x = z ↔ y = z := by
  rcases h with rfl | ⟨hx, hy⟩
  · exact Iff.rfl
  · exact ⟨fun h => absurd h (hx.ne hz), fun h => absurd h (hy.ne hz)⟩

/-- What a step leaves as it is when no thread changes its place. -/
structure Same (s s' : State) : Prop where
  stage : ∀ t, s'.stage t = s.stage t
  status : ∀ t, SameStatus (s'.thread t).status (s.thread t).status
  id : ∀ t, (s'.thread t).id = (s.thread t).id
  waitId : ∀ t, (s'.thread t).waitId = (s.thread t).waitId
  priority : ∀ t, (s'.thread t).priority = (s.thread t).priority
  running : s'.running = s.running
  level : s'.level = s.level
  current : s'.currentPriority = s.currentPriority
  threadTable : s'.threadTable = s.threadTable
  waiting : s'.waiting = s.waiting
  done : s'.done = s.done
  tidList : s'.tidList = s.tidList
  threadCount : s'.threadCount = s.threadCount
  queue : ∀ m q, q ≠ [] → ((s'.mutex m).waiting = some q ↔ (s.mutex m).waiting = some q)

section Same

variable {s s' : State}

/-- The same threads are ready. -/
theorem Same.ready (h : Same s s') : ready s' = ready s := by
  unfold Threads.ready
  rw [h.level]

/-- The part on queues, where nothing has changed for it. -/
theorem Queues.same (hq : Queues s) (h : Same s s') : Queues s' where
  nodup := by
    rw [h.ready]
    exact hq.nodup
  ready t ht := by
    rw [h.ready] at ht
    obtain ⟨hne, hborn, hrun⟩ := hq.ready t ht
    rw [h.running, h.stage]
    exact ⟨hne, hborn, (h.status t).runnable.mpr hrun⟩
  runnable t hborn hrun := by
    rw [h.stage] at hborn
    rw [h.running, h.ready]
    exact hq.runnable t hborn ((h.status t).runnable.mp hrun)
  level t hborn := by
    rw [h.stage] at hborn
    rw [h.priority]
    exact hq.level t hborn
  current := by
    rw [h.current]
    exact hq.current
  gone t hborn := by
    rw [h.stage] at hborn ⊢
    exact ((h.status t).eq_iff (by simp)).trans (hq.gone t hborn)
  wanting t hborn hwait := by
    rw [h.stage] at hborn ⊢
    have hold := ((h.status t).eq_iff (by simp)).mp hwait
    obtain ⟨m, q, hstage, hqueue, hmem⟩ := hq.wanting t hborn hold
    exact ⟨m, q, hstage, (h.queue m q (List.ne_nil_of_mem hmem)).mpr hqueue, hmem⟩
  queue m q hqueue := by
    by_cases hnil : q = []
    · subst hnil
      exact ⟨List.nodup_nil, fun t ht => absurd ht List.not_mem_nil⟩
    · obtain ⟨hnodup, hmem⟩ := hq.queue m q ((h.queue m q hnil).mp hqueue)
      refine ⟨hnodup, ?_⟩
      intro t ht
      obtain ⟨hstage, hwait⟩ := hmem t ht
      exact ⟨(h.stage t).trans hstage, ((h.status t).eq_iff (by simp)).mpr hwait⟩

/-- The part on tables, where nothing has changed for it. -/
theorem Tables.same (ht : Tables s) (h : Same s s') : Tables s' where
  main := by
    rw [h.stage, h.id]
    exact ht.main
  table i u hu := by
    rw [h.threadTable] at hu
    rw [h.stage, h.id, h.threadCount, h.tidList]
    exact ht.table i u hu
  entered u hne hborn halive := by
    rw [h.stage] at hborn halive
    rw [h.threadTable, h.id]
    exact ht.entered u hne hborn halive
  done i u hu := by
    rw [h.threadTable] at hu
    rw [h.done, h.stage]
    exact ht.done i u hu
  nodup := by
    rw [h.tidList]
    exact ht.nodup
  free i hi := by
    rw [h.tidList] at hi
    rw [h.threadCount]
    exact ht.free i hi
  cover i hi hlim hcount := by
    rw [h.threadCount] at hcount
    rw [h.threadTable, h.tidList]
    exact ht.cover i hi hlim hcount
  count := by
    rw [h.threadCount]
    exact ht.count

/-- The part on joins, where nothing has changed for it. -/
theorem Joins.same (hj : Joins s) (h : Same s s') : Joins s' where
  asleep t hborn hwait := by
    rw [h.stage] at hborn ⊢
    rw [h.waiting]
    exact hj.asleep t hborn (((h.status t).eq_iff (by simp)).mp hwait)
  waiter i w hw := by
    rw [h.waiting] at hw
    obtain ⟨hwait, j, hstage, hid, hwhy⟩ := hj.waiter i w hw
    refine ⟨(h.waitId w).trans hwait, j, (h.stage w).trans hstage, hid, ?_⟩
    rw [h.done, (h.status w).eq_iff (by simp)]
    exact hwhy
  found z j hz := by
    rw [h.stage] at hz
    rw [h.threadTable]
    exact hj.found z j hz
  alone z z' j j' hz hz' := by
    rw [h.stage] at hz hz'
    exact hj.alone z z' j j' hz hz'
  woken z j hz hrun := by
    rw [h.stage] at hz
    rw [h.done]
    exact hj.woken z j hz ((h.status z).runnable.mp hrun)

/-- **Steps without a change of place.** -/
theorem Core.same (hc : Core s) (h : Same s s') : Core s' :=
  ⟨hc.queues.same h, hc.tables.same h, hc.joins.same h⟩

end Same

section Dispatch

variable {s s' : State} {r t v : Nat}

/-- The handler puts the running thread back, or the one that it wakes. -/
theorem mem_putBack : v ∈ putBack r s ↔
    v = r ∧ Runnable (s.thread r).status ∨ v ∈ woken r s := by
  unfold putBack woken Runnable
  cases (s.thread r).status <;> simp

/-- What the handler may assume of the threads it wakes. -/
def WakeOk (r : Nat) (s : State) : Prop :=
  ∀ w ∈ woken r s, (s.thread w).status = .waitThread ∧
    ∃ j, s.stage w = .sleeping j ∧ s.done j.id = true

private theorem putBack_nodup (hq : Queues s) (hrun : s.running = some r) (hwake : WakeOk r s) :
    (putBack r s ++ ready s).Nodup := by
  apply List.Nodup.append
  · unfold putBack
    cases (s.thread r).status <;> try simp
    cases s.waiting (s.thread r).id <;> simp
  · exact hq.nodup
  · intro v hback hready
    obtain ⟨hne, _, hrunnable⟩ := hq.ready v hready
    rcases mem_putBack.mp hback with ⟨rfl, _⟩ | hw
    · exact hne hrun
    · exact hrunnable.ne (Or.inl rfl) (hwake v hw).1

/-- A dispatch moves no thread in its code. -/
theorem Dispatched.stage (h : Dispatched r t s s') : s'.stage v = s.stage v := by
  unfold State.stage
  rw [h.frame.pc]

/-- A thread that is not woken keeps its status. -/
theorem Dispatched.status (h : Dispatched r t s s') (hv : v ∉ woken r s) :
    (s'.thread v).status = (s.thread v).status := by
  rw [h.serves.status, if_neg hv]

/-- The thread that is woken is active. -/
theorem Dispatched.active (h : Dispatched r t s s') (hv : v ∈ woken r s) :
    (s'.thread v).status = .active := by
  rw [h.serves.status, if_pos hv]

/-- The threads that were put back or ready are born, and can run afterwards. -/
theorem Dispatched.candidate (hq : Queues s) (hborn : s.stage r ≠ .unborn) (hwake : WakeOk r s)
    (h : Dispatched r t s s') (hv : v ∈ putBack r s ++ ready s) :
    s'.stage v ≠ .unborn ∧ Runnable (s'.thread v).status := by
  rw [h.stage]
  by_cases hw : v ∈ woken r s
  · obtain ⟨_, j, hstage, _⟩ := hwake v hw
    refine ⟨by simp [hstage], ?_⟩
    rw [h.active hw]
    exact Or.inl rfl
  · rw [h.status hw]
    rcases List.mem_append.mp hv with hback | hready
    · rcases mem_putBack.mp hback with ⟨rfl, hrunnable⟩ | hmem
      · exact ⟨hborn, hrunnable⟩
      · exact absurd hmem hw
    · exact (hq.ready v hready).2

/-- A status of waiting or of exit is not new. -/
theorem Dispatched.status_of (h : Dispatched r t s s') {x : Status} (hx : x ≠ .active)
    (hv : (s'.thread v).status = x) : (s.thread v).status = x := by
  by_cases hw : v ∈ woken r s
  · rw [h.active hw] at hv
    exact absurd hv.symm hx
  · rw [← h.status hw]
    exact hv

/-- **A dispatch** keeps the queues apart. -/
theorem Queues.dispatch (hq : Queues s) (hrun : s.running = some r) (hborn : s.stage r ≠ .unborn)
    (hwake : WakeOk r s) (h : Dispatched r t s s') : Queues s' where
  nodup := (List.nodup_cons.mp (h.queues.nodup (putBack_nodup hq hrun hwake))).2
  ready v hv := by
    have hall := h.queues.nodup (putBack_nodup hq hrun hwake)
    have hmem := h.queues.symm.subset (List.mem_cons_of_mem t hv)
    refine ⟨?_, h.candidate hq hborn hwake hmem⟩
    intro heq
    rw [h.running] at heq
    obtain rfl := Option.some.inj heq
    exact (List.nodup_cons.mp hall).1 hv
  runnable v hv hrunnable := by
    rw [h.stage] at hv
    have hmem : v ∈ putBack r s ++ Threads.ready s := by
      apply List.mem_append.mpr
      by_cases hw : v ∈ woken r s
      · exact Or.inl (mem_putBack.mpr (Or.inr hw))
      · rw [h.status hw] at hrunnable
        rcases hq.runnable v hv hrunnable with heq | hready
        · obtain rfl := Option.some.inj (hrun.symm.trans heq)
          exact Or.inl (mem_putBack.mpr (Or.inl ⟨rfl, hrunnable⟩))
        · exact Or.inr hready
    rcases List.mem_cons.mp (h.queues.subset hmem) with rfl | hready
    · exact Or.inl h.running
    · exact Or.inr hready
  level v hv := by
    rw [h.stage] at hv
    exact h.serves.priority v (hq.level v hv)
  current := h.current
  gone v hv := by
    rw [h.stage] at hv ⊢
    by_cases hw : v ∈ woken r s
    · obtain ⟨_, j, hstage, _⟩ := hwake v hw
      rw [h.active hw, hstage]
      simp
    · rw [h.status hw]
      exact hq.gone v hv
  wanting v hv hwait := by
    rw [h.stage] at hv ⊢
    rw [h.frame.mutex]
    exact hq.wanting v hv (h.status_of (by decide) hwait)
  queue m q hqueue := by
    rw [h.frame.mutex] at hqueue
    obtain ⟨hnodup, hmem⟩ := hq.queue m q hqueue
    refine ⟨hnodup, ?_⟩
    intro v hv
    obtain ⟨hstage, hwait⟩ := hmem v hv
    have hw : v ∉ woken r s := by
      intro hw
      have hother := (hwake v hw).1
      rw [hwait] at hother
      cases hother
    rw [h.stage, h.status hw]
    exact ⟨hstage, hwait⟩

/-- **A dispatch** keeps the tables. -/
theorem Tables.dispatch (ht : Tables s) (h : Dispatched r t s s') : Tables s' where
  main := by
    rw [h.stage, h.serves.id]
    exact ht.main
  table i u hu := by
    rw [h.frame.threadTable] at hu
    rw [h.stage, h.serves.id, h.frame.threadCount, h.frame.tidList]
    exact ht.table i u hu
  entered u hne hborn halive := by
    rw [h.stage] at hborn halive
    rw [h.frame.threadTable, h.serves.id]
    exact ht.entered u hne hborn halive
  done i u hu := by
    rw [h.frame.threadTable] at hu
    rw [h.frame.done, h.stage]
    exact ht.done i u hu
  nodup := by
    rw [h.frame.tidList]
    exact ht.nodup
  free i hi := by
    rw [h.frame.tidList] at hi
    rw [h.frame.threadCount]
    exact ht.free i hi
  cover i hi hlim hcount := by
    rw [h.frame.threadCount] at hcount
    rw [h.frame.threadTable, h.frame.tidList]
    exact ht.cover i hi hlim hcount
  count := by
    rw [h.frame.threadCount]
    exact ht.count

/-- **A dispatch** keeps the joins. -/
theorem Joins.dispatch (hj : Joins s) (hwake : WakeOk r s) (h : Dispatched r t s s') :
    Joins s' where
  asleep v hv hwait := by
    rw [h.stage] at hv ⊢
    rw [h.frame.waiting]
    exact hj.asleep v hv (h.status_of (by decide) hwait)
  waiter i w hw := by
    rw [h.frame.waiting] at hw
    obtain ⟨hwait, j, hstage, hid, hwhy⟩ := hj.waiter i w hw
    refine ⟨(h.serves.waitId w).trans hwait, j, h.stage.trans hstage, hid, ?_⟩
    rw [h.frame.done]
    by_cases hmem : w ∈ Threads.woken r s
    · obtain ⟨_, j', hstage', hdone⟩ := hwake w hmem
      obtain rfl : j = j' := Stage.sleeping.inj (hstage.symm.trans hstage')
      exact Or.inr (hid ▸ hdone)
    · rw [h.status hmem]
      exact hwhy
  found z j hz := by
    rw [h.stage] at hz
    rw [h.frame.threadTable]
    exact hj.found z j hz
  alone z z' j j' hz hz' := by
    rw [h.stage] at hz hz'
    exact hj.alone z z' j j' hz hz'
  woken z j hz hrunnable := by
    rw [h.stage] at hz
    rw [h.frame.done]
    by_cases hmem : z ∈ Threads.woken r s
    · obtain ⟨_, j', hstage', hdone⟩ := hwake z hmem
      obtain rfl : j = j' := Stage.sleeping.inj (hz.symm.trans hstage')
      exact hdone
    · rw [h.status hmem] at hrunnable
      exact hj.woken z j hz hrunnable

/-- The handler dispatches where it returns. -/
theorem Core.dispatched (hc : Core s) (hrun : s.running = some r) (hborn : s.stage r ≠ .unborn)
    (hwake : WakeOk r s) (h : schedulerAlarmHandler s = some s') : ∃ t, Dispatched r t s s' := by
  have hrange : ∀ v ∈ woken r s, IsLevel (s.thread v).priority := by
    intro v hv
    obtain ⟨_, j, hstage, _⟩ := hwake v hv
    exact hc.queues.level v (by simp [hstage])
  exact schedulerAlarmHandler_spec hrun (hc.queues.level r hborn) hrange hc.queues.current h

/-- **The handler** restores the invariant. -/
theorem Core.handler (hc : Core s) (hrun : s.running = some r) (hborn : s.stage r ≠ .unborn)
    (hwake : WakeOk r s) (h : schedulerAlarmHandler s = some s') : Inv s' := by
  obtain ⟨t, hd⟩ := hc.dispatched hrun hborn hwake h
  refine ⟨⟨hc.queues.dispatch hrun hborn hwake hd, hc.tables.dispatch hd,
    hc.joins.dispatch hwake hd⟩, t, hd.running, ?_⟩
  have hmem := hd.queues.symm.subset (List.mem_cons_self)
  obtain ⟨hstage, hrunnable⟩ := hd.candidate hc.queues hborn hwake hmem
  exact ⟨hstage, Or.inl hrunnable⟩

end Dispatch

end Threads
