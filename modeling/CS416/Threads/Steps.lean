import CS416.Threads.Invariant
import CS416.Threads.Timer

/-!
# Every step keeps the invariant

Most steps change one thread: it goes on to another place, leaves the ready
threads, or is woken.  For each of the three there is a lemma on the queues,
and one on the joins for all of them.  `Ruled` says what the program itself has
to observe.
-/

namespace Threads

/-- The object of a new thread: it was never used, or its thread exited and was joined. -/
def Spare (t : Nat) (s : State) : Prop :=
  t ≠ 0 ∧ (s.stage t = .unborn ∨ s.stage t = .exited ∧ ∀ i, s.threadTable i ≠ some t)

/-- Fewer than `THREAD_LIM` threads: an entry of `thread_table` is left. -/
def PlaceLeft (s : State) : Prop := ∃ i : Int, 1 ≤ i ∧ i < threadLim ∧ s.threadTable i = none

/-- No thread waits for the mutex. -/
def NoWaiter (m : Nat) (s : State) : Prop := ∀ q, (s.mutex m).waiting = some q → q = []

/-- The rules of a program: an ID is joined by one thread at a time, a mutex is neither
initialised nor destroyed while threads wait for it, and a new thread has an object of its own
and an entry of `thread_table`. -/
def Ruled (s : State) : Action → Prop
  | .call (.join t _) => s.stage t ≠ .unborn
  | .call (.mutexInit m _) | .call (.destroy m) => NoWaiter m s
  | .advance =>
    (∀ t, s.pc s.current = .creating t .available → Spare t s ∧ PlaceLeft s) ∧
      ∀ j, s.pc s.current = .joinTable j →
        ∀ z k, (s.stage z).target = some k → k.id ≠ j.id
  | _ => True

/-- The library before `scheduler_init`: only `main` runs, and it is not waiting. -/
structure Before (s : State) : Prop where
  running : s.running = none
  main : s.stage 0 = .plain
  starting : ∀ t res, s.pc 0 ≠ .creating t res
  others : ∀ t, t ≠ 0 → s.stage t = .unborn
  level : s.level = fun _ => []
  current : s.currentPriority = 0
  waiting : s.waiting = fun _ => none
  queue : ∀ m, NoWaiter m s

/-- What holds in every state that a program following the rules can reach. -/
structure Good (s : State) : Prop where
  after : s.init = true → Inv s
  before : s.init = false → Before s

/-- Only the thread `x` changes. -/
structure Only (x : Nat) (s s' : State) : Prop where
  stage : ∀ t, t ≠ x → s'.stage t = s.stage t
  thread : ∀ t, t ≠ x → s'.thread t = s.thread t

/-- What a step leaves alone that moves no thread to or from the ready queues. -/
structure SameReady (s s' : State) : Prop where
  running : s'.running = s.running
  level : s'.level = s.level
  current : s'.currentPriority = s.currentPriority

/-- What a step leaves alone that neither creates nor joins. -/
structure SameIds (s s' : State) : Prop where
  table : s'.threadTable = s.threadTable
  done : s'.done = s.done
  list : s'.tidList = s.tidList
  count : s'.threadCount = s.threadCount

section Parts

variable {s s' : State} {r x : Nat} {p : Pc}

/-- The running thread is the one whose step comes next. -/
theorem current_of_running (hr : s.running = some r) : s.current = r := by
  simp [State.current, hr]

/-- One thread goes on, and the others stay. -/
theorem stage_goto (s : State) (p : Pc) (t : Nat) :
    (s.goto p).stage t = if t = s.current then p.stage else s.stage t := by
  unfold State.stage State.goto
  dsimp only
  rw [Function.update_apply]
  split <;> rfl

/-- The queues of the mutexes in `s'`. -/
def QueuesOk (s : State) : Prop :=
  (∀ t, s.stage t ≠ .unborn → (s.thread t).status = .waitMutex →
    ∃ m q, s.stage t = .locking m ∧ (s.mutex m).waiting = some q ∧ t ∈ q) ∧
  ∀ m q, (s.mutex m).waiting = some q → q.Nodup ∧
    ∀ t ∈ q, s.stage t = .locking m ∧ (s.thread t).status = .waitMutex

/-- A change of a thread that does not wait for a mutex. -/
theorem Queues.keep (hq : Queues s) (h : Only x s s') (hmutex : s'.mutex = s.mutex)
    (hold : s.stage x ≠ .unborn → (s.thread x).status ≠ .waitMutex)
    (hnew : (s'.thread x).status ≠ .waitMutex) : QueuesOk s' := by
  constructor
  · intro t hborn hwait
    have hne : t ≠ x := by
      intro heq
      subst heq
      exact hnew hwait
    rw [h.stage t hne] at hborn ⊢
    rw [h.thread t hne] at hwait
    rw [hmutex]
    exact hq.wanting t hborn hwait
  · intro m q hqueue
    rw [hmutex] at hqueue
    obtain ⟨hnodup, hmem⟩ := hq.queue m q hqueue
    refine ⟨hnodup, ?_⟩
    intro t ht
    obtain ⟨hstage, hwait⟩ := hmem t ht
    have hne : t ≠ x := by
      intro heq
      subst heq
      exact hold (by simp [hstage]) hwait
    rw [h.stage t hne, h.thread t hne]
    exact ⟨hstage, hwait⟩

/-- The running thread changes, and the ready queues do not. -/
theorem Queues.leave (hq : Queues s) (hr : s.running = some r) (h : Only r s s')
    (hsame : SameReady s s') (hprio : (s'.thread r).priority = (s.thread r).priority)
    (hborn : s.stage r ≠ .unborn)
    (hgone : (s'.thread r).status = .threadExit ↔ s'.stage r = .exited)
    (hqueues : QueuesOk s') : Queues s' := by
  have hready : Threads.ready s' = Threads.ready s := by
    unfold Threads.ready
    rw [hsame.level]
  have hne : ∀ t ∈ Threads.ready s, t ≠ r := by
    intro t ht heq
    subst heq
    exact (hq.ready t ht).1 hr
  constructor
  case nodup =>
    rw [hready]
    exact hq.nodup
  case ready =>
    intro t ht
    rw [hready] at ht
    rw [hsame.running, h.stage t (hne t ht), h.thread t (hne t ht)]
    exact hq.ready t ht
  case runnable =>
    intro t hlive hrunnable
    rw [hsame.running, hready]
    by_cases htr : t = r
    · subst htr
      exact Or.inl hr
    · rw [h.stage t htr] at hlive
      rw [h.thread t htr] at hrunnable
      exact hq.runnable t hlive hrunnable
  case level =>
    intro t hlive
    by_cases htr : t = r
    · subst htr
      rw [hprio]
      exact hq.level t hborn
    · rw [h.stage t htr] at hlive
      rw [h.thread t htr]
      exact hq.level t hlive
  case current =>
    rw [hsame.current]
    exact hq.current
  case gone =>
    intro t hlive
    by_cases htr : t = r
    · subst htr
      exact hgone
    · rw [h.stage t htr] at hlive ⊢
      rw [h.thread t htr]
      exact hq.gone t hlive
  case wanting => exact hqueues.1
  case queue => exact hqueues.2

/-- A thread that was not ready becomes ready. -/
theorem Queues.wake (hq : Queues s) (hx : s.running ≠ some x) (h : Only x s s')
    (hrun : s'.running = s.running) (hready : (Threads.ready s').Perm (x :: Threads.ready s))
    (hcur : s'.currentPriority = s.currentPriority) (hprio : IsLevel (s'.thread x).priority)
    (hold : x ∉ Threads.ready s) (hborn : s'.stage x ≠ .unborn) (hlive : s'.stage x ≠ .exited)
    (hactive : (s'.thread x).status = .active) (hqueues : QueuesOk s') : Queues s' := by
  constructor
  case nodup => exact hready.nodup_iff.mpr (List.nodup_cons.mpr ⟨hold, hq.nodup⟩)
  case ready =>
    intro t ht
    rw [hrun]
    rcases List.mem_cons.mp (hready.subset ht) with rfl | hmem
    · exact ⟨hx, hborn, Or.inl hactive⟩
    · have hne : t ≠ x := by
        intro heq
        subst heq
        exact hold hmem
      rw [h.stage t hne, h.thread t hne]
      exact hq.ready t hmem
  case runnable =>
    intro t hlive hrunnable
    rw [hrun]
    by_cases htx : t = x
    · subst htx
      exact Or.inr (hready.symm.subset List.mem_cons_self)
    · rw [h.stage t htx] at hlive
      rw [h.thread t htx] at hrunnable
      rcases hq.runnable t hlive hrunnable with heq | hmem
      · exact Or.inl heq
      · exact Or.inr (hready.symm.subset (List.mem_cons_of_mem x hmem))
  case level =>
    intro t hlive
    by_cases htx : t = x
    · subst htx
      exact hprio
    · rw [h.stage t htx] at hlive
      rw [h.thread t htx]
      exact hq.level t hlive
  case current =>
    rw [hcur]
    exact hq.current
  case gone =>
    intro t hborn
    by_cases htx : t = x
    · subst htx
      rw [hactive]
      exact ⟨fun h => absurd h (by decide), fun h => absurd h hlive⟩
    · rw [h.stage t htx] at hborn ⊢
      rw [h.thread t htx]
      exact hq.gone t hborn
  case wanting => exact hqueues.1
  case queue => exact hqueues.2

/-- A thread changes that is not asleep for another one, before or after. -/
theorem Joins.move (hj : Joins s) (h : Only x s s') (hold : ∀ j, s.stage x ≠ .sleeping j)
    (hnew : (s'.thread x).status ≠ .waitThread) (hwaiting : s'.waiting = s.waiting)
    (htable : ∀ i, s.threadTable i ≠ none → s'.threadTable i ≠ none)
    (hdone : ∀ i, s.threadTable i ≠ none → s.done i = true → s'.done i = true)
    (hfound : ∀ j, (s'.stage x).target = some j → s'.threadTable j.id ≠ none)
    (halone : ∀ j, (s'.stage x).target = some j →
      ∀ z j', z ≠ x → (s.stage z).target = some j' → j'.id ≠ j.id)
    (hwoken : ∀ j, s'.stage x = .sleeping j → s'.done j.id = true) : Joins s' := by
  constructor
  case asleep =>
    intro t hlive hwait
    have hne : t ≠ x := by
      intro heq
      subst heq
      exact hnew hwait
    rw [h.stage t hne] at hlive ⊢
    rw [h.thread t hne] at hwait
    rw [hwaiting]
    exact hj.asleep t hlive hwait
  case waiter =>
    intro i w hw
    rw [hwaiting] at hw
    obtain ⟨hwait, j, hstage, hid, hwhy⟩ := hj.waiter i w hw
    have hne : w ≠ x := by
      intro heq
      subst heq
      exact hold j hstage
    have hin : s.threadTable i ≠ none := hid ▸ hj.found w j (by rw [hstage]; rfl)
    rw [h.stage w hne, h.thread w hne]
    exact ⟨hwait, j, hstage, hid, hwhy.imp_right (hdone i hin)⟩
  case found =>
    intro z j hz
    by_cases hzx : z = x
    · subst hzx
      exact hfound j hz
    · rw [h.stage z hzx] at hz
      exact htable j.id (hj.found z j hz)
  case alone =>
    intro z z' j j' hz hz' hid
    by_cases hzx : z = x
    · subst hzx
      by_contra hne
      rw [h.stage z' (Ne.symm hne)] at hz'
      exact halone j hz z' j' (Ne.symm hne) hz' hid.symm
    · rw [h.stage z hzx] at hz
      by_cases hzx' : z' = x
      · subst hzx'
        exact absurd hid (halone j' hz' z j hzx hz)
      · rw [h.stage z' hzx'] at hz'
        exact hj.alone z z' j j' hz hz' hid
  case woken =>
    intro z j hz hrunnable
    by_cases hzx : z = x
    · subst hzx
      exact hwoken j hz
    · rw [h.stage z hzx] at hz
      rw [h.thread z hzx] at hrunnable
      exact hdone j.id (hj.found z j (by rw [hz]; rfl)) (hj.woken z j hz hrunnable)

/-- The IDs do not depend on more than who is there. -/
theorem Tables.keep (ht : Tables s) (h : Only x s s') (hid : (s'.thread x).id = (s.thread x).id)
    (hborn : s'.stage x = .unborn ↔ s.stage x = .unborn)
    (hgone : s'.stage x = .exited ↔ s.stage x = .exited) (hsame : SameIds s s') : Tables s' := by
  have hids : ∀ t, (s'.thread t).id = (s.thread t).id := by
    intro t
    by_cases htx : t = x
    · subst htx
      exact hid
    · rw [h.thread t htx]
  have hall : ∀ t, (s'.stage t = .unborn ↔ s.stage t = .unborn) ∧
      (s'.stage t = .exited ↔ s.stage t = .exited) := by
    intro t
    by_cases htx : t = x
    · subst htx
      exact ⟨hborn, hgone⟩
    · rw [h.stage t htx]
      exact ⟨Iff.rfl, Iff.rfl⟩
  constructor
  case main =>
    rw [Ne, (hall 0).1, hids]
    exact ht.main
  case table =>
    intro i u hu
    rw [hsame.table] at hu
    rw [Ne, (hall u).1, hids, hsame.count, hsame.list]
    exact ht.table i u hu
  case entered =>
    intro u hu hlive halive
    rw [Ne, (hall u).1] at hlive
    rw [Ne, (hall u).2] at halive
    rw [hsame.table, hids]
    exact ht.entered u hu hlive halive
  case done =>
    intro i u hu
    rw [hsame.table] at hu
    rw [hsame.done, (hall u).2]
    exact ht.done i u hu
  case nodup =>
    rw [hsame.list]
    exact ht.nodup
  case free =>
    rw [hsame.list, hsame.count]
    exact ht.free
  case cover =>
    rw [hsame.table, hsame.list, hsame.count]
    exact ht.cover
  case count =>
    rw [hsame.count]
    exact ht.count

end Parts

section Steps

variable {s s' : State} {r : Nat} {p p' : Pc} {j : Target}

/-- A step that changes no thread and no queue. -/
theorem Same.of (pc : Nat → Pc) (mutex : Nat → Mutex) (list : Nat → Option Nat)
    (armed cont : Bool) (hstage : ∀ t, (pc t).stage = s.stage t)
    (hqueue : ∀ m q, q ≠ [] → ((mutex m).waiting = some q ↔ (s.mutex m).waiting = some q)) :
    Same s { s with pc := pc, mutex := mutex, mutexList := list, armed := armed, cont := cont } :=
  ⟨hstage, fun _ => Or.inl rfl, fun _ => rfl, fun _ => rfl, fun _ => rfl, rfl, rfl, rfl, rfl, rfl,
    rfl, rfl, rfl, hqueue⟩

/-- A step within the same stage. -/
theorem stage_update (hpc : s.pc s.current = p) (hp : p'.stage = p.stage) (t : Nat) :
    (Function.update s.pc s.current p' t).stage = s.stage t := by
  unfold State.stage
  rw [Function.update_apply]
  split
  case isTrue heq => rw [heq, hpc, hp]
  case isFalse heq => rfl

/-- Another entry for a mutex that no thread waits for. -/
theorem queue_update {m : Nat} {x : Mutex} (hold : NoWaiter m s)
    (hnew : ∀ q, x.waiting = some q → q = []) (m' : Nat) (q : List Nat) (hne : q ≠ []) :
    (Function.update s.mutex m x m').waiting = some q ↔ (s.mutex m').waiting = some q := by
  by_cases hm : m' = m
  · subst hm
    rw [Function.update_self]
    exact ⟨fun h => absurd (hnew q h) hne, fun h => absurd (hold q h) hne⟩
  · rw [Function.update_of_ne hm]

private theorem queue_user {m : Nat} (user : Option Nat) (m' : Nat) (q : List Nat) :
    (Function.update s.mutex m { s.mutex m with user := user } m').waiting = some q ↔
      (s.mutex m').waiting = some q := by
  by_cases hm : m' = m
  · subst hm
    rw [Function.update_self]
  · rw [Function.update_of_ne hm]

/-- The thread that takes a step inside a call, except one that signals, can run. -/
theorem Inv.runs (h : Inv s) (hpc : s.pc s.current = p) (hp : ¬ p.Signals) :
    ∃ r, s.running = some r ∧ s.current = r ∧ s.stage r = p.stage ∧ s.stage r ≠ .unborn ∧
      Runnable (s.thread r).status := by
  obtain ⟨r, hr, hborn, hwhy⟩ := h.running
  have hcur := current_of_running hr
  rw [hcur] at hpc
  refine ⟨r, hr, hcur, ?_, hborn, ?_⟩
  · unfold State.stage
    rw [hpc]
  · rw [hpc] at hwhy
    exact hwhy.resolve_right hp

/-- **A step that changes nothing for the invariant** keeps it. -/
theorem Inv.same (h : Inv s) (hr : s.running = some r) (hrun : Runnable (s.thread r).status)
    (hborn : s.stage r ≠ .unborn) (hsame : Same s s') : Inv s' := by
  refine ⟨h.core.same hsame, r, hsame.running.trans hr, ?_, ?_⟩
  · rw [hsame.stage]
    exact hborn
  · exact Or.inl ((hsame.status r).runnable.mpr hrun)

/-- **A step without a change of place.** -/
theorem Inv.quiet (h : Inv s) (hpc : s.pc s.current = p) (hp : ¬ p.Signals) (hsame : Same s s') :
    Inv s' := by
  obtain ⟨r, hr, _, _, hborn, hrun⟩ := h.runs hpc hp
  exact h.same hr hrun hborn hsame

private theorem only_goto (hr : s.running = some r) (p : Pc) : Only r s (s.goto p) := by
  constructor
  · intro t hne
    rw [stage_goto, current_of_running hr, if_neg hne]
  · intro t _
    rfl

/-- **A step of the running thread to another place**; it can run, before and after. -/
theorem Inv.restage (h : Inv s) (hpc : s.pc s.current = p) (hp : ¬ p.Signals)
    (hold : p.stage ≠ .unborn ∧ p.stage ≠ .exited ∧ ∀ j, p.stage ≠ .sleeping j)
    (hnew : p'.stage ≠ .unborn ∧ p'.stage ≠ .exited)
    (hfound : ∀ j, p'.stage.target = some j → s.threadTable j.id ≠ none)
    (halone : ∀ j, p'.stage.target = some j →
      ∀ z j', z ≠ s.current → (s.stage z).target = some j' → j'.id ≠ j.id)
    (hwoken : ∀ j, p'.stage = .sleeping j → s.done j.id = true) : Inv (s.goto p') := by
  obtain ⟨r, hr, hcur, hstage, hborn, hrun⟩ := h.runs hpc hp
  obtain ⟨hq, ht, hj⟩ := h.core
  have honly := only_goto hr p'
  have hplace : (s.goto p').stage r = p'.stage := by
    rw [stage_goto, hcur, if_pos rfl]
  have hne : (s.thread r).status ≠ .waitMutex := hrun.ne (by simp)
  refine ⟨⟨?_, ?_, ?_⟩, r, hr, ?_, Or.inl hrun⟩
  · refine hq.leave hr honly ⟨rfl, rfl, rfl⟩ rfl hborn ?_ (hq.keep honly rfl (fun _ => hne) hne)
    rw [hplace]
    exact ⟨fun hexit => absurd hexit (hrun.ne (by simp)), fun hexit => absurd hexit hnew.2⟩
  · refine ht.keep honly rfl ?_ ?_ ⟨rfl, rfl, rfl, rfl⟩
    · rw [hplace, hstage]
      exact ⟨fun h => absurd h hnew.1, fun h => absurd h hold.1⟩
    · rw [hplace, hstage]
      exact ⟨fun h => absurd h hnew.2, fun h => absurd h hold.2.1⟩
  · apply hj.move honly
    · intro j
      rw [hstage]
      exact hold.2.2 j
    · exact hrun.ne (by simp)
    · rfl
    · exact fun _ h => h
    · exact fun _ _ h => h
    · rw [hplace]
      exact hfound
    · rw [hplace]
      rw [hcur] at halone
      exact halone
    · rw [hplace]
      exact hwoken
  · rw [hplace]
    exact hnew.1

/-- A thread in its own code is in no queue of a mutex. -/
theorem Queues.out {m : Nat} {q : List Nat} (hq : Queues s) (hstage : s.stage r = .plain)
    (hqueue : (s.mutex m).waiting = some q) : r ∉ q := by
  intro hmem
  have hlock := ((hq.queue m q hqueue).2 r hmem).1
  rw [hstage] at hlock
  cases hlock

/-- A thread enters the queue of a mutex. -/
theorem Queues.enter {m : Nat} {queue : List Nat} {x : Mutex} (hq : Queues s)
    (honly : Only r s s') (hold : s.stage r = .plain)
    (hqueue : (s.mutex m).waiting = some queue) (hmutex : s'.mutex = Function.update s.mutex m x)
    (hx : x.waiting = some (queue ++ [r])) (hplace : s'.stage r = .locking m)
    (hstatus : (s'.thread r).status = .waitMutex) : QueuesOk s' := by
  constructor
  · intro t hlive hwait
    by_cases htr : t = r
    · subst htr
      refine ⟨m, queue ++ [t], hplace, ?_, by simp⟩
      rw [hmutex, Function.update_self]
      exact hx
    · rw [honly.stage t htr] at hlive ⊢
      rw [honly.thread t htr] at hwait
      obtain ⟨m', q, hlock, hin, hmem⟩ := hq.wanting t hlive hwait
      by_cases hm : m' = m
      · subst hm
        obtain rfl := Option.some.inj (hin.symm.trans hqueue)
        refine ⟨m', q ++ [r], hlock, ?_, List.mem_append_left _ hmem⟩
        rw [hmutex, Function.update_self]
        exact hx
      · refine ⟨m', q, hlock, ?_, hmem⟩
        rw [hmutex, Function.update_of_ne hm]
        exact hin
  · intro m' q hnew
    by_cases hm : m' = m
    · subst hm
      rw [hmutex, Function.update_self, hx] at hnew
      obtain rfl := Option.some.inj hnew
      obtain ⟨hnodup, hmem⟩ := hq.queue m' queue hqueue
      constructor
      · apply (List.perm_append_singleton r queue).nodup_iff.mpr
        exact List.nodup_cons.mpr ⟨hq.out hold hqueue, hnodup⟩
      · intro t hin
        rcases List.mem_append.mp hin with hin | hin
        · have hne : t ≠ r := fun heq => hq.out hold hqueue (heq ▸ hin)
          rw [honly.stage t hne, honly.thread t hne]
          exact hmem t hin
        · obtain rfl := List.mem_singleton.mp hin
          exact ⟨hplace, hstatus⟩
    · rw [hmutex, Function.update_of_ne hm] at hnew
      obtain ⟨hnodup, hmem⟩ := hq.queue m' q hnew
      refine ⟨hnodup, ?_⟩
      intro t hin
      have hne : t ≠ r := fun heq => hq.out hold hnew (heq ▸ hin)
      rw [honly.stage t hne, honly.thread t hne]
      exact hmem t hin

/-- The first thread leaves the queue of a mutex. -/
theorem Queues.hand {m w : Nat} {rest : List Nat} {x : Mutex} (hq : Queues s)
    (honly : Only w s s') (hqueue : (s.mutex m).waiting = some (w :: rest))
    (hmutex : s'.mutex = Function.update s.mutex m x) (hx : x.waiting = some rest)
    (hstatus : (s'.thread w).status = .active) : QueuesOk s' := by
  obtain ⟨hnodup, hmem⟩ := hq.queue m _ hqueue
  have hwstage := (hmem w List.mem_cons_self).1
  constructor
  · intro t hlive hwait
    have htw : t ≠ w := by
      intro heq
      subst heq
      rw [hstatus] at hwait
      cases hwait
    rw [honly.stage t htw] at hlive ⊢
    rw [honly.thread t htw] at hwait
    obtain ⟨m', q, hlock, hin, hq'⟩ := hq.wanting t hlive hwait
    by_cases hm : m' = m
    · subst hm
      obtain rfl := Option.some.inj (hin.symm.trans hqueue)
      refine ⟨m', rest, hlock, ?_, (List.mem_cons.mp hq').resolve_left htw⟩
      rw [hmutex, Function.update_self]
      exact hx
    · refine ⟨m', q, hlock, ?_, hq'⟩
      rw [hmutex, Function.update_of_ne hm]
      exact hin
  · intro m' q hnew
    by_cases hm : m' = m
    · subst hm
      rw [hmutex, Function.update_self, hx] at hnew
      obtain rfl := Option.some.inj hnew
      obtain ⟨hout, hrest⟩ := List.nodup_cons.mp hnodup
      refine ⟨hrest, ?_⟩
      intro t hin
      have htw : t ≠ w := fun heq => hout (heq ▸ hin)
      rw [honly.stage t htw, honly.thread t htw]
      exact hmem t (List.mem_cons_of_mem w hin)
    · rw [hmutex, Function.update_of_ne hm] at hnew
      obtain ⟨hnodup', hmem'⟩ := hq.queue m' q hnew
      refine ⟨hnodup', ?_⟩
      intro t hin
      have htw : t ≠ w := by
        intro heq
        subst heq
        have hother := (hmem' t hin).1
        rw [hwstage] at hother
        exact hm (Stage.locking.inj hother).symm
      rw [honly.stage t htw, honly.thread t htw]
      exact hmem' t hin

/-- Only the running thread changes place. -/
theorem only_update {f : MyPthread} (hpc : s'.pc = Function.update s.pc r p)
    (hthread : s'.thread = Function.update s.thread r f) : Only r s s' := by
  constructor
  · intro t hne
    rw [State.stage, hpc, Function.update_of_ne hne]
    rfl
  · intro t hne
    rw [hthread, Function.update_of_ne hne]

/-- **The running thread enters the queue of a mutex.** -/
theorem Inv.waits {m : Nat} {queue : List Nat} {armed cont : Bool} (h : Inv s)
    (hown : s.pc s.current = .own) (hr : s.running = some r)
    (hqueue : (s.mutex m).waiting = some queue) :
    Inv ({ (s.setMutex m { s.mutex m with waiting := some (queue ++ [r]) }).setThread r
        fun x => { x with status := .waitMutex } with armed := armed, cont := cont }.goto
      (.lockRaise m)) := by
  obtain ⟨r', hr', hcur, hstage, hborn, hrun⟩ := h.runs hown (by simp [Pc.Signals])
  obtain rfl := Option.some.inj (hr'.symm.trans hr)
  obtain ⟨hq, ht, hj⟩ := h.core
  set s' := State.goto _ _ with hs'
  have hpc : s'.pc = Function.update s.pc r' (.lockRaise m) := hcur ▸ rfl
  have hthread : s'.thread = Function.update s.thread r'
      { s.thread r' with status := .waitMutex } := rfl
  have honly : Only r' s s' := only_update hpc hthread
  have hplace : s'.stage r' = .locking m := by
    rw [State.stage, hpc, Function.update_self]
    rfl
  have hself : s'.thread r' = { s.thread r' with status := .waitMutex } := by
    rw [hthread, Function.update_self]
  have hstatus : (s'.thread r').status = .waitMutex := by rw [hself]
  have hqueues : QueuesOk s' := hq.enter honly hstage hqueue rfl rfl hplace hstatus
  have hsignal : s'.pc r' = .lockRaise m := by rw [hpc, Function.update_self]
  refine ⟨⟨?_, ?_, ?_⟩, r', hr', by simp [hplace], Or.inr (Or.inl ⟨m, hsignal⟩)⟩
  · refine hq.leave hr' honly ⟨rfl, rfl, rfl⟩ (by rw [hself]) hborn ?_ hqueues
    rw [hstatus, hplace]
    simp
  · refine ht.keep honly (by rw [hself]) ?_ ?_ ⟨rfl, rfl, rfl, rfl⟩
    · simp [hplace, hstage, Pc.stage]
    · simp [hplace, hstage, Pc.stage]
  · apply hj.move honly
    · intro j
      simp [hstage, Pc.stage]
    · rw [hstatus]
      decide
    · rfl
    · exact fun _ h => h
    · exact fun _ _ h => h
    · simp [hplace, Stage.target]
    · simp [hplace, Stage.target]
    · simp [hplace]

/-- **The first waiting thread is woken.** -/
theorem Inv.hands {m w : Nat} {rest : List Nat} {armed cont : Bool} (h : Inv s)
    (hown : s.pc s.current = .own) (hqueue : (s.mutex m).waiting = some (w :: rest)) :
    Inv { activate w (s.setMutex m { waiting := some rest, user := some w }) with
      armed := armed, cont := cont } := by
  obtain ⟨r, hr, hcur, hstage, hborn, hrun⟩ := h.runs hown (by simp [Pc.Signals])
  obtain ⟨hq, ht, hj⟩ := h.core
  obtain ⟨hlock, hwait⟩ := (hq.queue m _ hqueue).2 w List.mem_cons_self
  have hne : r ≠ w := by
    intro heq
    subst heq
    rw [hstage] at hlock
    cases hlock
  have hlevel : IsLevel (s.thread w).priority := hq.level w (by simp [hlock])
  obtain ⟨hready, _⟩ := activate_spec (t := w)
    (s := s.setMutex m { waiting := some rest, user := some w }) hlevel
  set s' : State := { activate w (s.setMutex m { waiting := some rest, user := some w }) with
    armed := armed, cont := cont } with hs'
  have hthread : s'.thread = Function.update s.thread w
      { s.thread w with status := .active } := rfl
  have honly : Only w s s' := by
    refine ⟨fun t _ => rfl, fun t htw => ?_⟩
    rw [hthread, Function.update_of_ne htw]
  have hself : s'.thread w = { s.thread w with status := .active } := by
    rw [hthread, Function.update_self]
  have hactive : (s'.thread w).status = .active := by rw [hself]
  have hplace : s'.stage w = .locking m := hlock
  have hout : w ∉ Threads.ready s := by
    intro hmem
    exact (hq.ready w hmem).2.2.ne (by simp) hwait
  refine ⟨⟨?_, ?_, ?_⟩, r, hr, hborn, ?_⟩
  · refine hq.wake (fun heq => hne (Option.some.inj (hr.symm.trans heq))) honly rfl hready rfl ?_
      hout (by simp [hplace]) (by simp [hplace]) hactive (hq.hand honly hqueue rfl rfl hactive)
    rw [hself]
    exact hlevel
  · exact ht.keep honly (by rw [hself]) Iff.rfl Iff.rfl ⟨rfl, rfl, rfl, rfl⟩
  · apply hj.move honly
    · simp [hlock]
    · rw [hactive]
      decide
    · rfl
    · exact fun _ h => h
    · exact fun _ _ h => h
    · simp [hplace, Stage.target]
    · simp [hplace, Stage.target]
    · simp [hplace]
  · rw [honly.thread r hne]
    exact Or.inl hrun

/-- **The running thread goes to sleep for the thread it joins.** -/
theorem Inv.blocks {armed cont : Bool} (h : Inv s) (hpc : s.pc s.current = .joinBlock j)
    (hr : s.running = some r) :
    Inv ({ s.setThread r fun x => { x with status := .waitThread, waitId := j.id } with
      waiting := Function.update s.waiting j.id (some r)
      armed := armed, cont := cont }.goto (.joinRaise j)) := by
  obtain ⟨r', hr', hcur, hstage, hborn, hrun⟩ := h.runs hpc (by simp [Pc.Signals])
  obtain rfl := Option.some.inj (hr'.symm.trans hr)
  obtain ⟨hq, ht, hj⟩ := h.core
  set s' := State.goto _ _ with hs'
  have hpc' : s'.pc = Function.update s.pc r' (.joinRaise j) := hcur ▸ rfl
  have hthread : s'.thread = Function.update s.thread r'
      { s.thread r' with status := .waitThread, waitId := j.id } := rfl
  have hwaiting : s'.waiting = Function.update s.waiting j.id (some r') := rfl
  have honly : Only r' s s' := only_update hpc' hthread
  have hplace : s'.stage r' = .sleeping j := by
    rw [State.stage, hpc', Function.update_self]
    rfl
  have hself : s'.thread r' = { s.thread r' with status := .waitThread, waitId := j.id } := by
    rw [hthread, Function.update_self]
  have htarget : (s.stage r').target = some j := by simp [hstage, Pc.stage, Stage.target]
  have hin : s.threadTable j.id ≠ none := hj.found r' j htarget
  have hfree : ∀ w, s.waiting j.id ≠ some w := by
    intro w hw
    obtain ⟨_, j', hsleep, hid, _⟩ := hj.waiter j.id w hw
    have heq := hj.alone w r' j' j (by simp [hsleep, Stage.target]) htarget hid
    subst heq
    rw [hstage] at hsleep
    cases hsleep
  have hsignal : s'.pc r' = .joinRaise j := by rw [hpc', Function.update_self]
  refine ⟨⟨?_, ?_, ?_⟩, r', hr', by simp [hplace], Or.inr (Or.inr ⟨j, hsignal⟩)⟩
  · have hold : (s.thread r').status ≠ .waitMutex := hrun.ne (by simp)
    refine hq.leave hr' honly ⟨rfl, rfl, rfl⟩ (by rw [hself]) hborn ?_
      (hq.keep honly rfl (fun _ => hold) (by simp [hself]))
    simp [hself, hplace]
  · refine ht.keep honly (by rw [hself]) ?_ ?_ ⟨rfl, rfl, rfl, rfl⟩
    · simp [hplace, hstage, Pc.stage]
    · simp [hplace, hstage, Pc.stage]
  · constructor
    case asleep =>
      intro t hlive hwait
      by_cases htr : t = r'
      · subst htr
        refine ⟨j, hplace, ?_⟩
        rw [hwaiting, Function.update_self]
      · rw [honly.stage t htr] at hlive ⊢
        rw [honly.thread t htr] at hwait
        obtain ⟨j', hsleep, hw⟩ := hj.asleep t hlive hwait
        refine ⟨j', hsleep, ?_⟩
        rw [hwaiting, Function.update_of_ne]
        · exact hw
        · intro hid
          exact hfree t (hid ▸ hw)
    case waiter =>
      intro i w hw
      by_cases hi : i = j.id
      · subst hi
        rw [hwaiting, Function.update_self] at hw
        obtain rfl := Option.some.inj hw
        exact ⟨by rw [hself], j, hplace, rfl, Or.inl (by rw [hself])⟩
      · rw [hwaiting, Function.update_of_ne hi] at hw
        obtain ⟨hwait, j', hsleep, hid, hwhy⟩ := hj.waiter i w hw
        have hne : w ≠ r' := by
          intro heq
          subst heq
          rw [hstage] at hsleep
          cases hsleep
        rw [honly.stage w hne, honly.thread w hne]
        exact ⟨hwait, j', hsleep, hid, hwhy⟩
    case found =>
      intro z j' hz
      by_cases hzr : z = r'
      · subst hzr
        rw [hplace] at hz
        obtain rfl := Option.some.inj hz
        exact hin
      · rw [honly.stage z hzr] at hz
        exact hj.found z j' hz
    case alone =>
      intro z z' k k' hz hz' hid
      have hback : ∀ t l, (s'.stage t).target = some l → (s.stage t).target = some l := by
        intro t l hl
        by_cases htr : t = r'
        · subst htr
          rw [hplace] at hl
          rw [htarget]
          exact hl
        · rw [honly.stage t htr] at hl
          exact hl
      exact hj.alone z z' k k' (hback z k hz) (hback z' k' hz') hid
    case woken =>
      intro z j' hz hrunnable
      by_cases hzr : z = r'
      · subst hzr
        rw [hself] at hrunnable
        exact absurd rfl (hrunnable.ne (by simp))
      · rw [honly.stage z hzr] at hz
        rw [honly.thread z hzr] at hrunnable
        exact hj.woken z j' hz hrunnable

/-- **A join ends**: the ID is free again. -/
theorem Inv.finishes {armed cont : Bool} (h : Inv s) (hpc : s.pc s.current = .joinFinish j) :
    Inv ({ s with
      waiting := Function.update s.waiting j.id none
      threadTable := Function.update s.threadTable j.id none
      tidList := j.id :: s.tidList
      armed := armed, cont := cont }.goto .own) := by
  obtain ⟨r, hr, hcur, hstage, hborn, hrun⟩ := h.runs hpc (by simp [Pc.Signals])
  obtain ⟨hq, ht, hj⟩ := h.core
  have hdone : s.done j.id = true := hj.woken r j hstage hrun
  have htarget : (s.stage r).target = some j := by simp [hstage, Pc.stage, Stage.target]
  obtain ⟨u, hu⟩ := Option.ne_none_iff_exists'.mp (hj.found r j htarget)
  obtain ⟨_, _, hpos, hlim, hlt, hnew⟩ := ht.table j.id u hu
  have hexited : s.stage u = .exited := (ht.done j.id u hu).mp hdone
  set s' := State.goto _ _ with hs'
  have hpc' : s'.pc = Function.update s.pc r .own := hcur ▸ rfl
  have honly : Only r s s' := ⟨fun t hne => by
    rw [State.stage, hpc', Function.update_of_ne hne]
    rfl, fun t _ => rfl⟩
  have hplace : s'.stage r = .plain := by
    rw [State.stage, hpc', Function.update_self]
    rfl
  have htable : s'.threadTable = Function.update s.threadTable j.id none := rfl
  have hwaiting : s'.waiting = Function.update s.waiting j.id none := rfl
  have hold : (s.thread r).status ≠ .waitMutex := hrun.ne (by simp)
  -- no other thread joins this ID
  have hother : ∀ z k, z ≠ r → (s.stage z).target = some k → k.id ≠ j.id :=
    fun z k hz hk hid => hz (hj.alone z r k j hk htarget hid)
  have hborn' : ∀ t, s'.stage t = .unborn ↔ s.stage t = .unborn := by
    intro t
    by_cases htr : t = r
    · subst htr
      simp [hplace, hstage, Pc.stage]
    · rw [honly.stage t htr]
  have hexited' : ∀ t, s'.stage t = .exited ↔ s.stage t = .exited := by
    intro t
    by_cases htr : t = r
    · subst htr
      simp [hplace, hstage, Pc.stage]
    · rw [honly.stage t htr]
  refine ⟨⟨?_, ?_, ?_⟩, r, hr, by simp [hplace], Or.inl hrun⟩
  · refine hq.leave hr honly ⟨rfl, rfl, rfl⟩ rfl hborn ?_ (hq.keep honly rfl (fun _ => hold) hold)
    rw [hexited']
    exact hq.gone r hborn
  · constructor
    case main =>
      rw [Ne, hborn']
      exact ht.main
    case table =>
      intro i v hv
      have hi : i ≠ j.id := by
        intro heq
        rw [htable, heq, Function.update_self] at hv
        cases hv
      rw [htable, Function.update_of_ne hi] at hv
      obtain ⟨hlive, hid, hpos, hlim, hlt, hout⟩ := ht.table i v hv
      rw [Ne, hborn']
      exact ⟨hlive, hid, hpos, hlim, hlt, fun h => (List.mem_cons.mp h).elim hi hout⟩
    case entered =>
      intro v hv hlive halive
      rw [Ne, hborn'] at hlive
      rw [Ne, hexited'] at halive
      have hentry := ht.entered v hv hlive halive
      have hi : (s.thread v).id ≠ j.id := by
        intro heq
        rw [heq, hu] at hentry
        obtain rfl := Option.some.inj hentry
        exact halive hexited
      show s'.threadTable (s.thread v).id = some v
      rw [htable, Function.update_of_ne hi]
      exact hentry
    case done =>
      intro i v hv
      have hi : i ≠ j.id := by
        intro heq
        rw [htable, heq, Function.update_self] at hv
        cases hv
      rw [htable, Function.update_of_ne hi] at hv
      rw [hexited']
      exact ht.done i v hv
    case nodup => exact List.nodup_cons.mpr ⟨hnew, ht.nodup⟩
    case free =>
      intro i hi
      rcases List.mem_cons.mp hi with rfl | hi
      · exact ⟨hpos, hlim, hlt⟩
      · exact ht.free i hi
    case cover =>
      intro i hi hlim hcount
      by_cases heq : i = j.id
      · exact Or.inr (heq ▸ List.mem_cons_self)
      · rw [htable, Function.update_of_ne heq]
        exact (ht.cover i hi hlim hcount).imp_right (List.mem_cons_of_mem _)
    case count => exact ht.count
  · constructor
    case asleep =>
      intro t hlive hwait
      have htr : t ≠ r := by
        intro heq
        subst heq
        exact hrun.ne (by simp) hwait
      rw [honly.stage t htr] at hlive ⊢
      obtain ⟨k, hsleep, hw⟩ := hj.asleep t hlive hwait
      refine ⟨k, hsleep, ?_⟩
      rw [hwaiting, Function.update_of_ne (hother t k htr (by simp [hsleep, Stage.target]))]
      exact hw
    case waiter =>
      intro i w hw
      have hi : i ≠ j.id := by
        intro heq
        rw [hwaiting, heq, Function.update_self] at hw
        cases hw
      rw [hwaiting, Function.update_of_ne hi] at hw
      obtain ⟨hwait, k, hsleep, hid, hwhy⟩ := hj.waiter i w hw
      have hwr : w ≠ r := by
        intro heq
        subst heq
        have hsame := Stage.sleeping.inj (hsleep.symm.trans hstage)
        exact hi (hid.symm.trans (congrArg Target.id hsame))
      rw [honly.stage w hwr]
      exact ⟨hwait, k, hsleep, hid, hwhy⟩
    case found =>
      intro z k hz
      have hzr : z ≠ r := by
        intro heq
        subst heq
        rw [hplace] at hz
        cases hz
      rw [honly.stage z hzr] at hz
      rw [htable, Function.update_of_ne (hother z k hzr hz)]
      exact hj.found z k hz
    case alone =>
      intro z z' k k' hz hz' hid
      have hback : ∀ t l, (s'.stage t).target = some l → (s.stage t).target = some l := by
        intro t l hl
        by_cases htr : t = r
        · subst htr
          rw [hplace] at hl
          cases hl
        · rw [honly.stage t htr] at hl
          exact hl
      exact hj.alone z z' k k' (hback z k hz) (hback z' k' hz') hid
    case woken =>
      intro z k hz hrunnable
      have hzr : z ≠ r := by
        intro heq
        subst heq
        rw [hplace] at hz
        cases hz
      rw [honly.stage z hzr] at hz
      exact hj.woken z k hz hrunnable

/-- An ID that `get_ID` hands out, with the counter and the list that it leaves. -/
structure Issued (s : State) (id n : Int) (l : List Int) : Prop where
  range : 1 ≤ id ∧ id < threadLim ∧ id < n
  new : s.threadTable id = none
  out : id ∉ l
  nodup : l.Nodup
  sub : ∀ i ∈ l, i ∈ s.tidList
  mono : s.threadCount ≤ n
  cover : ∀ i, i ≠ id → i < n → i < s.threadCount ∧ (i ∈ s.tidList → i ∈ l)

/-- `get_ID` returns an ID that is not in use. -/
theorem Tables.getId (ht : Tables s) (hplace : PlaceLeft s) :
    ∃ id n l, Threads.getId s = (id, { s with threadCount := n, tidList := l }) ∧
      Issued s id n l := by
  unfold Threads.getId
  cases hl : s.tidList with
  | nil =>
      have hlt : s.threadCount < threadLim := by
        obtain ⟨i, hpos, hlim, hnone⟩ := hplace
        by_contra hge
        rcases ht.cover i hpos hlim (by omega) with hsome | hmem
        · exact hsome hnone
        · rw [hl] at hmem
          cases hmem
      refine ⟨s.threadCount, s.threadCount + 1, [], ?_, ?_⟩
      · dsimp only
        rw [if_neg (by omega)]
      · refine ⟨⟨ht.count, hlt, by omega⟩, ?_, List.not_mem_nil, List.nodup_nil,
          fun i hi => absurd hi List.not_mem_nil, by omega, fun i hne hi => ⟨by omega, fun h => ?_⟩⟩
        · by_contra hsome
          obtain ⟨u, hu⟩ := Option.ne_none_iff_exists'.mp hsome
          obtain ⟨_, _, _, _, hcount, _⟩ := ht.table _ u hu
          omega
        · rw [hl] at h
          exact h
  | cons tid rest =>
      have hmem : tid ∈ s.tidList := by
        rw [hl]
        exact List.mem_cons_self
      have hnodup := ht.nodup
      rw [hl] at hnodup
      obtain ⟨hout, hrest⟩ := List.nodup_cons.mp hnodup
      obtain ⟨hpos, hlim, hcount⟩ := ht.free tid hmem
      refine ⟨tid, s.threadCount, rest, ?_, ?_⟩
      · dsimp only
        rw [if_neg (by omega)]
      · refine ⟨⟨hpos, hlim, hcount⟩, ?_, hout, hrest, fun i hi => ?_, le_rfl,
          fun i hne hi => ⟨hi, fun h => ?_⟩⟩
        · by_contra hsome
          obtain ⟨u, hu⟩ := Option.ne_none_iff_exists'.mp hsome
          obtain ⟨_, _, _, _, _, hfresh⟩ := ht.table _ u hu
          exact hfresh hmem
        · rw [hl]
          exact List.mem_cons_of_mem tid hi
        · rw [hl] at h
          exact (List.mem_cons.mp h).resolve_left hne

/-- The running thread has not exited. -/
theorem Inv.alive (h : Inv s) (hr : s.running = some r) :
    s.stage r ≠ .unborn ∧ s.stage r ≠ .exited ∧ (s.thread r).status ≠ .threadExit := by
  obtain ⟨r', hr', hborn, hwhy⟩ := h.running
  obtain rfl := Option.some.inj (hr'.symm.trans hr)
  have hgone := h.core.queues.gone r' hborn
  have hlive : s.stage r' ≠ .exited := by
    intro hexit
    rcases hwhy with hrun | ⟨m, hpc⟩ | ⟨j, hpc⟩
    · exact hrun.ne (by simp) (hgone.mpr hexit)
    · simp [State.stage, hpc, Pc.stage] at hexit
    · simp [State.stage, hpc, Pc.stage] at hexit
  exact ⟨hborn, hlive, fun hexit => hlive (hgone.mp hexit)⟩

/-- A creation with the ID that `get_ID` returns. -/
theorem createThread_eq {t : Nat} {id n : Int} {l : List Int}
    (h : Threads.getId s = (id, { s with threadCount := n, tidList := l })) :
    createThread t s = enqueue t 0
      { s with
        threadCount := n
        tidList := l
        thread := Function.update s.thread t
          { id := id, waitId := -1, priority := 0, intervalsRun := 0, ret := 0, status := .active }
        pc := Function.update s.pc t .own
        threadTable := Function.update s.threadTable id (some t)
        waiting := Function.update s.waiting id none
        done := Function.update s.done id false } := by
  unfold createThread
  rw [h]
  rfl

/-- The object of a new thread is in no queue. -/
theorem Inv.spare {t : Nat} (h : Inv s) (ht : Spare t s) :
    s.running ≠ some t ∧ t ∉ Threads.ready s ∧
      (s.stage t ≠ .unborn → (s.thread t).status = .threadExit) := by
  obtain ⟨_, hfree⟩ := ht
  have hidle : s.stage t ≠ .unborn → (s.thread t).status = .threadExit := by
    intro hlive
    exact (h.core.queues.gone t hlive).mpr (hfree.resolve_left hlive).1
  refine ⟨?_, ?_, hidle⟩
  · intro hr
    obtain ⟨hborn, hlive, _⟩ := h.alive hr
    exact hlive (hfree.resolve_left hborn).1
  · intro hmem
    obtain ⟨_, hlive, hrunnable⟩ := h.core.queues.ready t hmem
    exact hrunnable.ne (by simp) (hidle hlive)

/-- **A new thread** gets an ID that nobody has. -/
theorem Inv.creates {t : Nat} {armed cont : Bool} (h : Inv s)
    (hpc : s.pc s.current = .creating t .available) (hspare : Spare t s) (hleft : PlaceLeft s) :
    Inv ({ createThread t s with armed := armed, cont := cont }.goto .own) := by
  obtain ⟨r, hr, hcur, hstage, hborn, hrun⟩ := h.runs hpc (by simp [Pc.Signals])
  obtain ⟨hq, ht, hj⟩ := h.core
  obtain ⟨hnot, hout, hidle⟩ := h.spare hspare
  obtain ⟨hmain, hfree⟩ := hspare
  obtain ⟨id, n, l, hget, hid⟩ := ht.getId hleft
  have hrt : r ≠ t := by
    intro heq
    exact hnot (heq ▸ hr)
  rw [createThread_eq hget]
  set s' := State.goto _ _ with hs'
  have hpc' : s'.pc = Function.update (Function.update s.pc t .own) r .own := hcur ▸ rfl
  have hthread : s'.thread = Function.update s.thread t
      { id := id, waitId := -1, priority := 0, intervalsRun := 0, ret := 0,
        status := .active } := rfl
  have htable : s'.threadTable = Function.update s.threadTable id (some t) := rfl
  have hdone : s'.done = Function.update s.done id false := rfl
  have honly : Only t s s' := by
    constructor
    · intro v hv
      by_cases hvr : v = r
      · subst hvr
        rw [State.stage, hpc', Function.update_self, hstage]
        rfl
      · rw [State.stage, hpc', Function.update_of_ne hvr, Function.update_of_ne hv]
        rfl
    · intro v hv
      rw [hthread, Function.update_of_ne hv]
  have hplace : s'.stage t = .plain := by
    rw [State.stage, hpc', Function.update_of_ne hrt.symm, Function.update_self]
    rfl
  have hself : s'.thread t =
      { id := id, waitId := -1, priority := 0, intervalsRun := 0, ret := 0,
        status := .active } := by
    rw [hthread, Function.update_self]
  have hnowait : s.waiting id = none := by
    by_contra hsome
    obtain ⟨w, hw⟩ := Option.ne_none_iff_exists'.mp hsome
    obtain ⟨_, k, hsleep, hk, _⟩ := hj.waiter id w hw
    exact hj.found w k (by simp [hsleep, Stage.target]) (hk ▸ hid.new)
  have hold : s.stage t ≠ .unborn → (s.thread t).status ≠ .waitMutex := by
    intro hlive
    rw [hidle hlive]
    decide
  obtain ⟨hpos, hlim, hlt⟩ := hid.range
  refine ⟨⟨?_, ?_, ?_⟩, r, hr, ?_, ?_⟩
  · refine hq.wake ?_ honly rfl (ready_enqueue isLevel_zero) rfl ?_ hout (by simp [hplace])
      (by simp [hplace]) (by rw [hself]) (hq.keep honly rfl hold (by simp [hself]))
    · intro heq
      exact hrt (Option.some.inj (hr.symm.trans heq))
    · rw [hself]
      exact isLevel_zero
  · constructor
    case main =>
      rw [honly.stage 0 hmain.symm, honly.thread 0 hmain.symm]
      exact ht.main
    case table =>
      intro i v hv
      by_cases hi : i = id
      · subst hi
        rw [htable, Function.update_self] at hv
        obtain rfl := Option.some.inj hv
        rw [hplace, hself]
        exact ⟨by simp, rfl, hpos, hlim, hlt, hid.out⟩
      · rw [htable, Function.update_of_ne hi] at hv
        obtain ⟨hlive, hvid, hpos, hlim, hcount, hnot⟩ := ht.table i v hv
        have hvt : v ≠ t := by
          intro heq
          subst heq
          exact (hfree.resolve_left hlive).2 i hv
        have hmono := hid.mono
        rw [honly.stage v hvt, honly.thread v hvt]
        exact ⟨hlive, hvid, hpos, hlim, lt_of_lt_of_le hcount hmono, fun h => hnot (hid.sub i h)⟩
    case entered =>
      intro v hv hlive halive
      by_cases hvt : v = t
      · subst hvt
        rw [htable, hself, Function.update_self]
      · rw [honly.stage v hvt] at hlive halive
        have hentry := ht.entered v hv hlive halive
        rw [htable, honly.thread v hvt, Function.update_of_ne]
        · exact hentry
        · intro heq
          rw [heq, hid.new] at hentry
          cases hentry
    case done =>
      intro i v hv
      by_cases hi : i = id
      · subst hi
        rw [htable, Function.update_self] at hv
        obtain rfl := Option.some.inj hv
        rw [hdone, Function.update_self, hplace]
        simp
      · rw [htable, Function.update_of_ne hi] at hv
        have hvt : v ≠ t := by
          intro heq
          subst heq
          exact (hfree.resolve_left (ht.table i v hv).1).2 i hv
        rw [hdone, Function.update_of_ne hi, honly.stage v hvt]
        exact ht.done i v hv
    case nodup => exact hid.nodup
    case free =>
      intro i hi
      obtain ⟨hpos, hlim, hcount⟩ := ht.free i (hid.sub i hi)
      exact ⟨hpos, hlim, lt_of_lt_of_le hcount hid.mono⟩
    case cover =>
      intro i hi hlim hcount
      by_cases heq : i = id
      · subst heq
        rw [htable, Function.update_self]
        exact Or.inl (by simp)
      · obtain ⟨hlt, hlist⟩ := hid.cover i heq hcount
        rw [htable, Function.update_of_ne heq]
        exact (ht.cover i hi hlim hlt).imp_right hlist
    case count => exact le_trans ht.count hid.mono
  · apply hj.move honly
    · intro k hk
      rcases hfree with hfree | ⟨hfree, _⟩
      · rw [hfree] at hk
        cases hk
      · rw [hfree] at hk
        cases hk
    · simp [hself]
    · have hwaiting : s'.waiting = Function.update s.waiting id none := rfl
      rw [hwaiting, ← hnowait, Function.update_eq_self]
    · intro i hi
      rw [htable, Function.update_apply]
      split
      · simp
      · exact hi
    · intro i hi hdone'
      rw [hdone, Function.update_of_ne]
      · exact hdone'
      · intro heq
        exact hi (heq ▸ hid.new)
    · simp [hplace, Stage.target]
    · simp [hplace, Stage.target]
    · simp [hplace]
  · rw [honly.stage r hrt]
    exact hborn
  · rw [honly.thread r hrt]
    exact Or.inl hrun

/-- Only an exit wakes. -/
theorem wakeOk_of_alive (h : (s.thread r).status ≠ .threadExit) : WakeOk r s := by
  intro w hw
  unfold woken at hw
  cases hstatus : (s.thread r).status <;> simp_all

/-- **An alarm** keeps the invariant. -/
theorem Inv.alarm (h : Inv s) (hcall : schedulerAlarmHandler s = some s') : Inv s' := by
  obtain ⟨r, hr, hborn, _⟩ := h.running
  exact h.core.handler hr hborn (wakeOk_of_alive (h.alive hr).2.2) hcall

/-- The signal is handled within the call. -/
theorem afterSignal_stage (h : p.afterSignal = some p') : p'.stage = p.stage := by
  cases p <;> simp [Pc.afterSignal] at h <;> subst h <;> rfl

/-- **The running thread signals.** -/
theorem Inv.signals (h : Inv s) (hpc : s.pc s.current = p) (hp : p.afterSignal = some p')
    (hcall : raise p' s = some s') : Inv s' := by
  obtain ⟨r, hr, hborn, _⟩ := h.running
  have hsame : Same s (s.goto p') :=
    Same.of _ s.mutex s.mutexList s.armed s.cont (stage_update hpc (afterSignal_stage hp))
      fun _ _ _ => Iff.rfl
  have hborn' : (s.goto p').stage r ≠ .unborn := by
    rw [hsame.stage]
    exact hborn
  exact (h.core.same hsame).handler hr hborn' (wakeOk_of_alive (h.alive hr).2.2) hcall

/-- The exiting thread, when it signals. -/
theorem Inv.exitMark (h : Inv s) (hown : s.pc s.current = .own) (hr : s.running = some r)
    (value : Nat) :
    Core ((exitMark r value s).goto .exited) ∧ WakeOk r ((exitMark r value s).goto .exited) := by
  obtain ⟨r', hr', hcur, hstage, hborn, hrun⟩ := h.runs hown (by simp [Pc.Signals])
  obtain rfl := Option.some.inj (hr'.symm.trans hr)
  obtain ⟨hq, ht, hj⟩ := h.core
  set u := State.goto .exited (Threads.exitMark r' value s) with hu
  have hpc' : u.pc = Function.update s.pc r' .exited := hcur ▸ rfl
  have hself : u.thread r' = { s.thread r' with ret := value, status := .threadExit } :=
    Function.update_self ..
  have honly : Only r' s u := only_update hpc' rfl
  have hplace : u.stage r' = .exited := by
    rw [State.stage, hpc', Function.update_self]
    rfl
  have hdone : u.done = Function.update s.done (s.thread r').id true := by
    have hid : (Threads.exitMark r' value s).done = Function.update s.done
        ((s.pauseTimer.setThread r' fun x =>
          { x with ret := value, status := .threadExit }).thread r').id true := rfl
    have hsame : ((s.pauseTimer.setThread r' fun x =>
        { x with ret := value, status := .threadExit }).thread r').id = (s.thread r').id := by
      simp [State.setThread, State.pauseTimer]
    rw [hsame] at hid
    exact hid
  -- the ID is in `thread_table` under the exiting thread only
  have hentry : ∀ v, s.threadTable (s.thread r').id = some v → v = r' := by
    intro v hv
    by_cases hzero : r' = 0
    · obtain ⟨_, hid, hpos, _⟩ := ht.table _ v hv
      rw [hzero, ht.main.2] at hpos
      exact absurd hpos (by decide)
    · have hmine := ht.entered r' hzero hborn (by simp [hstage, Pc.stage])
      exact Option.some.inj (hv.symm.trans hmine)
  have hold : (s.thread r').status ≠ .waitMutex := hrun.ne (by simp)
  have hcore : Core u := by
    refine ⟨?_, ?_, ?_⟩
    · refine hq.leave hr' honly ⟨rfl, rfl, rfl⟩ (by rw [hself]) hborn ?_
        (hq.keep honly rfl (fun _ => hold) (by simp [hself]))
      simp [hself, hplace]
    · have hborn' : ∀ t, u.stage t = .unborn ↔ s.stage t = .unborn := by
        intro t
        by_cases htr : t = r'
        · subst htr
          simp [hplace, hborn]
        · rw [honly.stage t htr]
      have hids : ∀ t, (u.thread t).id = (s.thread t).id := by
        intro t
        by_cases htr : t = r'
        · subst htr
          rw [hself]
        · rw [honly.thread t htr]
      constructor
      case main =>
        rw [Ne, hborn', hids]
        exact ht.main
      case table =>
        intro i v hv
        rw [Ne, hborn', hids]
        exact ht.table i v hv
      case entered =>
        intro v hv hlive halive
        have hvr : v ≠ r' := by
          intro heq
          subst heq
          exact halive hplace
        rw [honly.stage v hvr] at hlive halive
        rw [hids]
        exact ht.entered v hv hlive halive
      case done =>
        intro i v hv
        have hi : s.threadTable i = some v := hv
        obtain ⟨_, hid, _⟩ := ht.table i v hi
        rw [hdone]
        by_cases hvr : v = r'
        · subst hvr
          rw [← hid, Function.update_self, hplace]
          simp
        · have hne : i ≠ (s.thread r').id := by
            intro heq
            exact hvr (hentry v (heq ▸ hi))
          rw [Function.update_of_ne hne, honly.stage v hvr]
          exact ht.done i v hi
      case nodup => exact ht.nodup
      case free => exact ht.free
      case cover => exact ht.cover
      case count => exact ht.count
    · apply hj.move honly
      · simp [hstage, Pc.stage]
      · simp [hself]
      · rfl
      · exact fun _ h => h
      · intro i _ hi
        rw [hdone, Function.update_apply]
        split
        · rfl
        · exact hi
      · simp [hplace, Stage.target]
      · simp [hplace, Stage.target]
      · simp [hplace]
  have hwake : WakeOk r' u := by
    intro w hw
    have hw' : s.waiting (s.thread r').id = some w := by
      have hmem : w ∈ (u.waiting (u.thread r').id).toList := by
        unfold woken at hw
        rw [hself] at hw ⊢
        exact hw
      rw [hself] at hmem
      exact Option.mem_toList.mp hmem
    obtain ⟨_, k, hsleep, hid, hwhy⟩ := hj.waiter _ w hw'
    have hwr : w ≠ r' := by
      intro heq
      subst heq
      rw [hstage] at hsleep
      cases hsleep
    rw [honly.stage w hwr, honly.thread w hwr]
    refine ⟨hwhy.resolve_right ?_, k, hsleep, ?_⟩
    · intro hdone'
      obtain ⟨v, hv⟩ := Option.ne_none_iff_exists'.mp
        (hj.found w k (by simp [hsleep, Stage.target]))
      rw [hid] at hv
      obtain rfl := hentry v hv
      have hexit := (ht.done _ v hv).mp hdone'
      rw [hstage] at hexit
      cases hexit
    · rw [hdone, hid, Function.update_self]
  exact ⟨hcore, hwake⟩

/-- **The running thread exits.** -/
theorem Inv.exits {value : Nat} (h : Inv s) (hown : s.pc s.current = .own)
    (hr : s.running = some r) (hcall : raise .exited (Threads.exitMark r value s) = some s') :
    Inv s' := by
  obtain ⟨hcore, hwake⟩ := h.exitMark hown hr value
  refine hcore.handler hr ?_ hwake hcall
  have hcur : (Threads.exitMark r value s).current = r := current_of_running hr
  rw [stage_goto, hcur, if_pos rfl]
  simp [Pc.stage]

/-- **The scheduler starts.** -/
theorem Before.starts (h : Before s) (p : Pc) (hp : p.stage = .plain) :
    Inv ((schedulerInit s).goto p) := by
  set u := State.goto p (schedulerInit s) with hu
  have hthread : u.thread = Function.update s.thread 0
      { s.thread 0 with status := .active, priority := 0, intervalsRun := 0, id := 0 } := rfl
  have hself : u.thread 0 =
      { s.thread 0 with status := .active, priority := 0, intervalsRun := 0, id := 0 } := by
    rw [hthread, Function.update_self]
  have hstage : ∀ t, u.stage t = if t = 0 then .plain else .unborn := by
    intro t
    rw [hu, stage_goto]
    have hcur : (schedulerInit s).current = 0 := rfl
    rw [hcur]
    split
    case isTrue heq => exact hp
    case isFalse heq => exact h.others t heq
  have honly : ∀ t, u.stage t ≠ .unborn → t = 0 := by
    intro t ht
    rw [hstage] at ht
    by_contra hne
    exact ht (if_neg hne)
  have hmain : u.stage 0 = .plain := by rw [hstage, if_pos rfl]
  have hempty : ready u = [] := by
    have hlevel : u.level = fun _ => [] := rfl
    unfold ready Levels.flat
    rw [hlevel]
    simp
  have hsleeps : ∀ t j, u.stage t ≠ .sleeping j := by
    intro t j
    rw [hstage]
    split <;> simp
  have hwants : ∀ t, (u.stage t).target = none := by
    intro t
    rw [hstage]
    split <;> rfl
  refine ⟨⟨?_, ?_, ?_⟩, 0, rfl, by simp [hmain], Or.inl (by simp [hself, Runnable])⟩
  · constructor
    case nodup =>
      rw [hempty]
      exact List.nodup_nil
    case ready =>
      intro t ht
      rw [hempty] at ht
      cases ht
    case runnable =>
      intro t ht _
      rw [honly t ht]
      exact Or.inl rfl
    case level =>
      intro t ht
      rw [honly t ht, hself]
      exact isLevel_zero
    case current =>
      have hcur : u.currentPriority = 0 := h.current
      rw [hcur]
      exact isLevel_zero
    case gone =>
      intro t ht
      rw [honly t ht, hself, hmain]
      simp
    case wanting =>
      intro t ht hwait
      rw [honly t ht, hself] at hwait
      cases hwait
    case queue =>
      intro m q hq
      rw [h.queue m q hq]
      exact ⟨List.nodup_nil, fun t ht => absurd ht List.not_mem_nil⟩
  · constructor
    case main => simp [hmain, hself]
    case table =>
      intro i v hv
      cases hv
    case entered =>
      intro v hv hlive
      exact absurd (honly v hlive) hv
    case done =>
      intro i v hv
      cases hv
    case nodup => exact List.nodup_nil
    case free =>
      intro i hi
      cases hi
    case cover =>
      intro i hi _ hcount
      have hone : u.threadCount = 1 := rfl
      omega
    case count => exact le_rfl
  · constructor
    case asleep =>
      intro t ht hwait
      rw [honly t ht, hself] at hwait
      cases hwait
    case waiter =>
      intro i w hw
      have hnone : u.waiting i = none := congrFun h.waiting i
      rw [hnone] at hw
      cases hw
    case found =>
      intro z j hz
      rw [hwants] at hz
      cases hz
    case alone =>
      intro z z' j j' hz
      rw [hwants] at hz
      cases hz
    case woken =>
      intro z j hz
      exact absurd hz (hsleeps z j)

/-- A thread is about to yield. -/
theorem Inv.yields (h : Inv s) (hown : s.pc s.current = .own) (hr : s.running = some r) :
    Inv ((s.setThread r fun x => { x with status := .yield }).goto .yieldRaise) := by
  obtain ⟨r', hr', hcur, hstage, hborn, hrun⟩ := h.runs hown (by simp [Pc.Signals])
  obtain rfl := Option.some.inj (hr'.symm.trans hr)
  set u := State.goto .yieldRaise _ with hu
  have hthread : ∀ t, u.thread t =
      if t = r' then { s.thread r' with status := .yield } else s.thread t :=
    fun t => Function.update_apply ..
  apply h.quiet hown (by simp [Pc.Signals])
  constructor
  case stage => exact stage_update hown rfl
  case status =>
    intro t
    rw [hthread]
    split
    case isTrue heq =>
      rw [heq]
      exact Or.inr ⟨Or.inr rfl, hrun⟩
    case isFalse => exact Or.inl rfl
  case id =>
    intro t
    rw [hthread]
    split
    case isTrue heq => rw [heq]
    case isFalse => rfl
  case waitId =>
    intro t
    rw [hthread]
    split
    case isTrue heq => rw [heq]
    case isFalse => rfl
  case priority =>
    intro t
    rw [hthread]
    split
    case isTrue heq => rw [heq]
    case isFalse => rfl
  case queue => exact fun _ _ _ => Iff.rfl
  all_goals rfl

/-- The other threads do not join the ID that the running thread joins. -/
theorem Inv.alone (h : Inv s) (hpc : s.pc s.current = p) (hp : p.stage.target = some j)
    (z : Nat) (j' : Target) (hz : z ≠ s.current) (hj' : (s.stage z).target = some j') :
    j'.id ≠ j.id := by
  intro hid
  apply hz
  apply h.core.joins.alone z s.current j' j hj' _ hid
  rw [State.stage, hpc]
  exact hp

/-- A join has found its target in the table. -/
theorem Inv.finds {u : Nat} (h : Inv s) (hpc : s.pc s.current = .joinTable j)
    (htable : s.threadTable j.id = some u)
    (hother : ∀ z k, (s.stage z).target = some k → k.id ≠ j.id) :
    Inv (s.goto (.joinTest j)) := by
  apply h.restage hpc (by simp [Pc.Signals]) (by simp [Pc.stage]) (by simp [Pc.stage])
  · intro k hk
    obtain rfl := Option.some.inj hk
    simp [htable]
  · intro k hk
    obtain rfl := Option.some.inj hk
    exact fun z k' _ hz => hother z k' hz
  · simp [Pc.stage]

/-- A join has found its target done. -/
theorem Inv.isDone (h : Inv s) (hpc : s.pc s.current = .joinTest j) (hdone : s.done j.id = true) :
    Inv (s.goto (.joinFinish j)) := by
  obtain ⟨r, hr, hcur, hstage, hborn, hrun⟩ := h.runs hpc (by simp [Pc.Signals])
  apply h.restage hpc (by simp [Pc.Signals]) (by simp [Pc.stage]) (by simp [Pc.stage])
  · intro k hk
    obtain rfl := Option.some.inj hk
    exact h.core.joins.found r j (by simp [hstage, Pc.stage, Stage.target])
  · intro k hk
    obtain rfl := Option.some.inj hk
    exact h.alone hpc rfl
  · intro k hk
    obtain rfl := Stage.sleeping.inj hk
    exact hdone

/-- A thread takes the mutex that it was granted. -/
theorem Inv.claims {m : Nat} (h : Inv s) (hpc : s.pc s.current = .lockClaim m) :
    Inv ((s.setMutex m { s.mutex m with user := s.running }).goto (.lockReturn m)) := by
  have hplain : Inv (s.goto (.lockReturn m)) :=
    h.restage hpc (by simp [Pc.Signals]) (by simp [Pc.stage]) (by simp [Pc.stage])
      (by simp [Pc.stage, Stage.target]) (by simp [Pc.stage, Stage.target]) (by simp [Pc.stage])
  have hpc' : (s.goto (.lockReturn m)).pc (s.goto (.lockReturn m)).current = .lockReturn m :=
    Function.update_self ..
  exact hplain.quiet hpc' (by simp [Pc.Signals]) (Same.of _ _ s.mutexList s.armed s.cont
    (fun _ => rfl) fun m' q _ => queue_user _ m' q)

private theorem not_signals_of_plain (h : p.stage = .plain) : ¬ p.Signals := by
  rintro (⟨m, rfl⟩ | ⟨k, rfl⟩)
  · cases h
  · cases h

private theorem not_signals_of_asking (h : p.stage = .asking j) : ¬ p.Signals := by
  rintro (⟨m, rfl⟩ | ⟨k, rfl⟩)
  · cases h
  · cases h

/-- A step of `main` before the scheduler starts. -/
theorem Before.of (h : Before s) (pc : Nat → Pc) (mutex : Nat → Mutex)
    (list : Nat → Option Nat) (armed cont : Bool) (hmain : (pc 0).stage = .plain)
    (hstart : ∀ t res, pc 0 ≠ .creating t res) (hothers : ∀ t, t ≠ 0 → pc t = s.pc t)
    (hqueue : ∀ m q, (mutex m).waiting = some q → q = []) :
    Before { s with pc := pc, mutex := mutex, mutexList := list, armed := armed,
                    cont := cont } where
  running := h.running
  main := hmain
  starting := hstart
  others t ht := by
    show (pc t).stage = .unborn
    rw [hothers t ht]
    exact h.others t ht
  level := h.level
  current := h.current
  waiting := h.waiting
  queue := hqueue

/-- Before the library runs there is only `main`. -/
theorem Before.current_eq (h : Before s) : s.current = 0 := by
  simp [State.current, h.running]

/-- The same, where `main` goes on to `p`. -/
theorem Before.goto (h : Before s) (p : Pc) (mutex : Nat → Mutex) (list : Nat → Option Nat)
    (armed cont : Bool) (hp : p.stage = .plain) (hstart : ∀ t res, p ≠ .creating t res)
    (hqueue : ∀ m q, (mutex m).waiting = some q → q = []) :
    Before { s with
      pc := Function.update s.pc s.current p, mutex := mutex, mutexList := list
      armed := armed, cont := cont } := by
  rw [h.current_eq]
  apply h.of _ mutex list armed cont
  · rw [Function.update_self]
    exact hp
  · rw [Function.update_self]
    exact hstart
  · intro t ht
    exact Function.update_of_ne ht _ _
  · exact hqueue

/-- A new entry for a mutex, as long as no thread waits. -/
theorem Before.mutex (h : Before s) (m : Nat) {x : Mutex} (hx : ∀ q, x.waiting = some q → q = [])
    (m' : Nat) (q : List Nat) (hq : (Function.update s.mutex m x m').waiting = some q) :
    q = [] := by
  by_cases hm : m' = m
  · subst hm
    rw [Function.update_self] at hq
    exact hx q hq
  · rw [Function.update_of_ne hm] at hq
    exact h.queue m' q hq

/-- **Steps before the scheduler starts.** -/
theorem Before.step {c : Action} {e : Event} (h : Before s) (hinit : s.init = false)
    (hm : Moves s c s' e) : Good s' := by
  have hcur := h.current_eq
  have hstay : ∀ {u : State}, u.init = s.init → Before u → Good u := by
    intro u hu hb
    refine ⟨fun htrue => ?_, fun _ => hb⟩
    rw [hu, hinit] at htrue
    cases htrue
  have hplain : ∀ {p : Pc}, s.pc s.current = p → p.stage = .plain := by
    intro p hp
    rw [hcur] at hp
    rw [← hp]
    exact h.main
  have hrun : ∀ {r : Nat}, s.running ≠ some r := by
    intro r hr
    rw [h.running] at hr
    cases hr
  cases hm with
  | alarm hon => simp [hinit] at hon
  | @starts t res hown =>
      rw [hinit, if_neg Bool.false_ne_true]
      have hinv := h.starts (.creating t res) rfl
      exact ⟨fun _ => hinv, fun hfalse => absurd hfalse (by simp [State.goto, schedulerInit])⟩
  | refuses armed cont hown =>
      refine hstay rfl (h.of s.pc s.mutex s.mutexList armed cont h.main h.starting ?_ h.queue)
      exact fun _ _ => rfl
  | yields hown hr => exact absurd hr hrun
  | exits hown hr => exact absurd hr hrun
  | enters hown hr => exact absurd hr hrun
  | noMemory hown =>
      refine hstay rfl (h.of s.pc _ s.mutexList s.armed s.cont h.main h.starting ?_
        (h.mutex _ fun q hq => ?_))
      · exact fun _ _ => rfl
      · cases hq
  | queues hown =>
      refine hstay rfl (h.goto _ _ s.mutexList s.armed s.cont rfl (by simp)
        (h.mutex _ fun q hq => ?_))
      exact (Option.some.inj hq).symm
  | locks armed cont hown hrunning => exact absurd h.running hrunning
  | waits armed cont hown hr => exact absurd hr hrun
  | unlocks armed cont hown huser hqueue =>
      refine hstay rfl (h.of s.pc _ s.mutexList armed cont h.main h.starting ?_
        (h.mutex _ (h.queue _)))
      exact fun _ _ => rfl
  | hands armed cont hown huser hqueue => exact absurd (h.queue _ _ hqueue) (by simp)
  | destroys armed cont hown hqueue =>
      obtain rfl := h.queue _ _ hqueue
      refine hstay rfl (h.of s.pc _ s.mutexList armed cont h.main h.starting ?_
        (h.mutex _ fun q hq => ?_))
      · exact fun _ _ => rfl
      · cases hq
  | creates armed cont hpc =>
      rw [hcur] at hpc
      exact absurd hpc (h.starting _ _)
  | quiet armed cont hpc hp hp' hnew he =>
      exact hstay rfl (h.goto _ s.mutex s.mutexList armed cont hp' hnew h.queue)
  | asks hpc hp => simp [hplain hpc] at hp
  | denied hpc hp => simp [hplain hpc] at hp
  | finds hpc => cases hplain hpc
  | isDone hpc => cases hplain hpc
  | notDone hpc => cases hplain hpc
  | blocks armed cont hpc hr => exact absurd hr hrun
  | @signals p p' u hpc hp hcall =>
      have hnone : (s.goto p').running = none := h.running
      unfold raise schedulerAlarmHandler at hcall
      rw [hnone] at hcall
      cases hcall
  | finishes armed cont hpc => cases hplain hpc
  | clears hpc =>
      exact hstay rfl (h.goto _ _ s.mutexList s.armed s.cont rfl (by simp)
        (h.mutex _ (h.queue _)))
  | inits list hpc hp =>
      exact hstay rfl (h.goto _ s.mutex list s.armed s.cont rfl (by simp) h.queue)
  | claims hpc => cases hplain hpc
  | returns armed cont hpc =>
      exact hstay rfl (h.goto _ s.mutex s.mutexList armed cont rfl (by simp) h.queue)

/-- Only `my_pthread_create` starts the scheduler, and nothing stops it. -/
theorem Moves.init_or {c : Action} {e : Event} (hm : Moves s c s' e) : s'.init = s.init ∨
    ∃ t res, s' = (if s.init then s else schedulerInit s).goto (.creating t res) := by
  cases hm with
  | @starts t res hown => exact Or.inr ⟨t, res, rfl⟩
  | alarm hon hcall => exact Or.inl (schedulerAlarmHandler_frame hcall).init
  | exits hown hr hcall => exact Or.inl (schedulerAlarmHandler_frame hcall).init
  | signals hpc hp hcall => exact Or.inl (schedulerAlarmHandler_frame hcall).init
  | destroys armed cont hown hqueue => exact Or.inl (activate_timer _ _).1
  | @creates t armed cont hpc => exact Or.inl (createThread_timer t s).1
  | refuses | yields | enters | noMemory | queues | locks | waits | unlocks | hands =>
      exact Or.inl rfl
  | quiet | asks | denied | finds | isDone | notDone | blocks | finishes => exact Or.inl rfl
  | clears | inits | claims | returns => exact Or.inl rfl

/-- The library stays initialised. -/
theorem Moves.init {c : Action} {e : Event} (hm : Moves s c s' e) (hinit : s.init = true) :
    s'.init = true := by
  rcases hm.init_or with heq | ⟨t, res, rfl⟩
  · exact heq.trans hinit
  · rw [if_pos hinit]
    exact hinit

/-- **Each step of a program that follows the rules keeps the invariant.** -/
theorem Inv.step {c : Action} {e : Event} (h : Inv s) (hinit : s.init = true) (hok : Ruled s c)
    (hm : Moves s c s' e) : Inv s' := by
  have hnosignal : ¬ Pc.own.Signals := by simp [Pc.Signals]
  cases hm with
  | alarm hon hcall => exact h.alarm hcall
  | starts hown =>
      rw [if_pos hinit]
      exact h.quiet hown hnosignal (Same.of _ s.mutex s.mutexList s.armed s.cont
        (stage_update hown rfl) fun _ _ _ => Iff.rfl)
  | refuses armed cont hown =>
      exact h.quiet hown hnosignal (Same.of s.pc s.mutex s.mutexList armed cont (fun _ => rfl)
        fun _ _ _ => Iff.rfl)
  | yields hown hr => exact h.yields hown hr
  | exits hown hr hcall => exact h.exits hown hr hcall
  | enters hown hr hne =>
      exact h.restage hown hnosignal (by simp [Pc.stage]) (by simp [Pc.stage])
        (by simp [Pc.stage, Stage.target]) (by simp [Pc.stage, Stage.target]) (by simp [Pc.stage])
  | noMemory hown =>
      exact h.quiet hown hnosignal (Same.of s.pc _ s.mutexList s.armed s.cont (fun _ => rfl)
        (queue_update hok (by simp)))
  | queues hown =>
      exact h.quiet hown hnosignal (Same.of _ _ s.mutexList s.armed s.cont
        (stage_update hown rfl) (queue_update hok (by simp)))
  | locks armed cont hown =>
      exact h.quiet hown hnosignal (Same.of s.pc _ s.mutexList armed cont (fun _ => rfl)
        fun m q _ => queue_user _ m q)
  | waits armed cont hown hr huser hother hqueue => exact h.waits hown hr hqueue
  | unlocks armed cont hown huser hqueue =>
      exact h.quiet hown hnosignal (Same.of s.pc _ s.mutexList armed cont (fun _ => rfl)
        fun m q _ => queue_user _ m q)
  | hands armed cont hown huser hqueue => exact h.hands hown hqueue
  | destroys armed cont hown hqueue =>
      obtain rfl := hok _ hqueue
      exact h.quiet hown hnosignal (Same.of s.pc _ s.mutexList armed cont (fun _ => rfl)
        (queue_update hok (by simp)))
  | creates armed cont hpc => exact h.creates hpc (hok.1 _ hpc).1 (hok.1 _ hpc).2
  | quiet armed cont hpc hp hp' =>
      refine h.quiet hpc ?_ (Same.of _ s.mutex s.mutexList armed cont
        (stage_update hpc (hp'.trans hp.symm)) fun _ _ _ => Iff.rfl)
      exact not_signals_of_plain hp
  | asks hpc hp hp' =>
      refine h.quiet hpc ?_ (Same.of _ s.mutex s.mutexList s.armed s.cont
        (stage_update hpc (hp'.trans hp.symm)) fun _ _ _ => Iff.rfl)
      exact not_signals_of_asking hp
  | denied hpc hp =>
      exact h.restage hpc (not_signals_of_asking hp) (by simp [hp]) (by simp [Pc.stage])
        (by simp [Pc.stage, Stage.target]) (by simp [Pc.stage, Stage.target]) (by simp [Pc.stage])
  | finds hpc htable => exact h.finds hpc htable (hok.2 _ hpc)
  | isDone hpc hdone => exact h.isDone hpc hdone
  | notDone hpc hdone =>
      exact h.quiet hpc (by simp [Pc.Signals]) (Same.of _ s.mutex s.mutexList s.armed s.cont
        (stage_update hpc rfl) fun _ _ _ => Iff.rfl)
  | blocks armed cont hpc hr => exact h.blocks hpc hr
  | signals hpc hp hcall => exact h.signals hpc hp hcall
  | finishes armed cont hpc => exact h.finishes hpc
  | clears hpc =>
      exact h.quiet hpc (by simp [Pc.Signals]) (Same.of _ _ s.mutexList s.armed s.cont
        (stage_update hpc rfl) fun m q _ => queue_user _ m q)
  | inits list hpc hp =>
      rcases hp with ⟨i, rfl⟩ | ⟨i, rfl⟩
      · exact h.quiet hpc (by simp [Pc.Signals]) (Same.of _ s.mutex list s.armed s.cont
          (stage_update hpc rfl) fun _ _ _ => Iff.rfl)
      · exact h.quiet hpc (by simp [Pc.Signals]) (Same.of _ s.mutex list s.armed s.cont
          (stage_update hpc rfl) fun _ _ _ => Iff.rfl)
  | claims hpc => exact h.claims hpc
  | returns armed cont hpc =>
      exact h.quiet hpc (by simp [Pc.Signals]) (Same.of _ s.mutex s.mutexList armed cont
        (stage_update hpc rfl) fun _ _ _ => Iff.rfl)

/-- Each step keeps `Good`. -/
theorem Good.step {c : Action} {e : Event} (h : Good s) (hok : Ruled s c)
    (hm : Moves s c s' e) : Good s' := by
  cases hinit : s.init with
  | false => exact (h.before hinit).step hinit hm
  | true =>
      have hinv := (h.after hinit).step hinit hok hm
      refine ⟨fun _ => hinv, fun hfalse => ?_⟩
      rw [hm.init hinit] at hfalse
      cases hfalse

end Steps

/-- The invariant holds once a thread is known to run. -/
theorem Good.inv_of_running {s : State} {r : Nat} (h : Good s) (hr : s.running = some r) :
    Inv s := by
  cases hinit : s.init with
  | true => exact h.after hinit
  | false =>
      rw [(h.before hinit).running] at hr
      cases hr

/-- The runs of a program that follows the rules. -/
def Rules (a : World) (c : Action) : Prop := Ruled a.state c

/-- The start of a process is good. -/
theorem Good.initial {s : State} (h : Initial s) : Good s := by
  refine ⟨fun htrue => ?_, fun _ => ?_⟩
  · rw [h.init] at htrue
    cases htrue
  · constructor
    case running => exact h.running
    case main => simp [State.stage, h.pc, Pc.stage]
    case starting => simp [h.pc]
    case others =>
      intro t ht
      rw [State.stage, h.pc, Function.update_of_ne ht]
      rfl
    case level => exact h.level
    case current => exact h.currentPriority
    case waiting => exact h.waiting
    case queue =>
      intro m q hq
      rw [h.mutex] at hq
      cases hq

/-- **In every run of a program that follows the rules the invariant holds.** -/
theorem good_of_reached {ok : World → Action → Prop} (hok : ∀ a c, ok a c → Rules a c) {a : World}
    (h : Reached ok a) : Good a.state := by
  apply h.invariant (I := fun a => Good a.state)
  · intro b hb
    exact Good.initial hb.1
  · intro b c d _ hb hstep
    obtain ⟨s, e, hexec, rfl⟩ := hstep.2
    exact hb.step (hok b c hstep.1) (exec_moves hexec)

/-- `main` has called `my_pthread_create` and is about to make the thread. -/
def startedWorld : World :=
  { state := (schedulerInit blankWorld.state).goto (.creating 1 .available)
    history := [(0, .silent)] }

/-- `main` is inside its first creation. -/
theorem reached_startedWorld {ok : World → Action → Prop}
    (hok : ok blankWorld (.call (.create 1 .available))) : Reached ok startedWorld :=
  reached_blankWorld.next ⟨hok, _, _, rfl, rfl⟩

/-- `main` has created thread 1. -/
def createdWorld : World :=
  { state := (createThread 1 startedWorld.state.pauseTimer).resumeTimer.goto .own
    history := [(0, .silent), (0, .creates 1)] }

/-- The first thread is created. -/
theorem reached_createdWorld {ok : World → Action → Prop}
    (hok : ok blankWorld (.call (.create 1 .available))) (hok' : ok startedWorld .advance) :
    Reached ok createdWorld :=
  (reached_startedWorld hok).next ⟨hok', _, _, rfl, rfl⟩

/-- That creation keeps the rules. -/
theorem started_ruled : Ruled startedWorld.state .advance := by
  constructor
  · intro t hpc
    have hpc' : Pc.creating 1 .available = .creating t .available := hpc
    obtain ⟨rfl, _⟩ := Pc.creating.inj hpc'
    exact ⟨⟨by decide, Or.inl rfl⟩, 1, le_rfl, by decide, rfl⟩
  · intro j hpc
    have hpc' : Pc.creating 1 .available = .joinTable j := hpc
    cases hpc'

end Threads
