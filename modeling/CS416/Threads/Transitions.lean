import CS416.Threads.Machine

/-!
# The steps, one by one

`Moves` lists what a step can do, with the state that it leads to; `exec_moves`
reads it off the code once, and every invariant is proved by cases on it.
-/

namespace Threads

/-- How far a thread is, as far as the tables and the queues are concerned: it wants a mutex,
asks for the thread it joins, has found it, or waits for it. -/
inductive Stage
  | unborn
  | plain
  | locking (m : Nat)
  | asking (j : Target)
  | joining (j : Target)
  | sleeping (j : Target)
  | exited
  deriving DecidableEq

def Pc.stage : Pc → Stage
  | .unborn => .unborn
  | .exited => .exited
  | .lockRaise m | .lockClaim m => .locking m
  | .joinScan j _ | .joinTable j => .asking j
  | .joinTest j | .joinBlock j => .joining j
  | .joinRaise j | .joinFinish j => .sleeping j
  | .own | .creating _ _ | .yieldRaise | .initScan _ _ | .initUser _ | .initAdd _ _
  | .initStore _ _ | .lockReturn _ => .plain

/-- Where a thread goes on after its signal. -/
def Pc.afterSignal : Pc → Option Pc
  | .yieldRaise => some .own
  | .joinRaise j => some (.joinFinish j)
  | .lockRaise m => some (.lockClaim m)
  | _ => none

/-- The exiting thread when it signals. -/
def exitMark (r value : Nat) (s : State) : State :=
  let s := s.pauseTimer.setThread r fun x => { x with ret := value, status := .threadExit }
  { s with done := Function.update s.done (s.thread r).id true }

/-- The steps.  What they do to the timer is left open, except where the thread signals. -/
inductive Moves (s : State) : Action → State → Event → Prop
  | alarm {u : State} (hinit : s.init = true) (h : schedulerAlarmHandler s = some u) :
      Moves s .alarm u .silent
  | starts {t : Nat} {res : Resources} (hown : s.pc s.current = .own) :
      Moves s (.call (.create t res))
        ((if s.init then s else schedulerInit s).goto (.creating t res)) .silent
  | refuses {c : Call} {code : Code} (armed cont : Bool) (hown : s.pc s.current = .own) :
      Moves s (.call c) { s with armed := armed, cont := cont } (.fails code)
  | yields {r : Nat} (hown : s.pc s.current = .own) (hr : s.running = some r) :
      Moves s (.call .yield)
        ((s.setThread r fun x => { x with status := .yield }).goto .yieldRaise) .silent
  | exits {r value : Nat} {u : State} (hown : s.pc s.current = .own) (hr : s.running = some r)
      (h : raise .exited (exitMark r value s) = some u) :
      Moves s (.call (.exit value)) u (.exits value)
  | enters {t r : Nat} {valuePtr : Bool} (hown : s.pc s.current = .own)
      (hr : s.running = some r) (hne : (s.thread r).id ≠ (s.thread t).id) :
      Moves s (.call (.join t valuePtr))
        (s.goto (.joinScan ⟨t, (s.thread t).id, valuePtr⟩ 0)) .silent
  | noMemory {m : Nat} (hown : s.pc s.current = .own) :
      Moves s (.call (.mutexInit m false)) (s.setMutex m { s.mutex m with waiting := none })
        (.fails .ENOMEM)
  | queues {m : Nat} (hown : s.pc s.current = .own) :
      Moves s (.call (.mutexInit m true))
        ((s.setMutex m { s.mutex m with waiting := some [] }).goto (.initScan m 0)) .silent
  | locks {m : Nat} (armed cont : Bool) (hown : s.pc s.current = .own) (hrun : s.running ≠ none)
      (huser : (s.mutex m).user = none) :
      Moves s (.call (.lock (some m)))
        { s.setMutex m { s.mutex m with user := s.running } with armed := armed, cont := cont }
        (.locks m)
  | waits {m r : Nat} {queue : List Nat} (armed cont : Bool) (hown : s.pc s.current = .own)
      (hr : s.running = some r) (huser : (s.mutex m).user ≠ none)
      (hother : (s.mutex m).user ≠ some r) (hqueue : (s.mutex m).waiting = some queue) :
      Moves s (.call (.lock (some m)))
        ({ (s.setMutex m { s.mutex m with waiting := some (queue ++ [r]) }).setThread r
            fun x => { x with status := .waitMutex } with
          armed := armed, cont := cont }.goto (.lockRaise m)) (.waits m)
  | unlocks {m : Nat} (armed cont : Bool) (hown : s.pc s.current = .own)
      (huser : (s.mutex m).user = s.running) (hqueue : (s.mutex m).waiting = some []) :
      Moves s (.call (.unlock m))
        { s.setMutex m { s.mutex m with user := none } with armed := armed, cont := cont }
        (.unlocks m none)
  | hands {m w : Nat} {rest : List Nat} (armed cont : Bool) (hown : s.pc s.current = .own)
      (huser : (s.mutex m).user = s.running) (hqueue : (s.mutex m).waiting = some (w :: rest)) :
      Moves s (.call (.unlock m))
        { activate w (s.setMutex m { waiting := some rest, user := some w }) with
          armed := armed, cont := cont } (.unlocks m (some w))
  | destroys {m : Nat} {queue : List Nat} (armed cont : Bool) (hown : s.pc s.current = .own)
      (hqueue : (s.mutex m).waiting = some queue) :
      Moves s (.call (.destroy m))
        { (queue.foldl (fun s w => activate w s) s).setMutex m { waiting := none, user := none }
          with armed := armed, cont := cont } (.destroys m)
  | creates {t : Nat} (armed cont : Bool) (hpc : s.pc s.current = .creating t .available) :
      Moves s .advance ({ createThread t s with armed := armed, cont := cont }.goto .own)
        (.creates t)
  | quiet {p p' : Pc} {e : Event} (armed cont : Bool) (hpc : s.pc s.current = p)
      (hp : p.stage = .plain) (hp' : p'.stage = .plain) (hnew : ∀ t res, p' ≠ .creating t res)
      (he : e = .silent ∨ ∃ code, e = .fails code) :
      Moves s .advance ({ s with armed := armed, cont := cont }.goto p') e
  | asks {j : Target} {p p' : Pc} (hpc : s.pc s.current = p) (hp : p.stage = .asking j)
      (hp' : p'.stage = .asking j) : Moves s .advance (s.goto p') .silent
  | denied {j : Target} {p : Pc} {code : Code} (hpc : s.pc s.current = p)
      (hp : p.stage = .asking j) : Moves s .advance (s.goto .own) (.fails code)
  | finds {j : Target} {u : Nat} (hpc : s.pc s.current = .joinTable j)
      (htable : s.threadTable j.id = some u) : Moves s .advance (s.goto (.joinTest j)) .silent
  | isDone {j : Target} (hpc : s.pc s.current = .joinTest j) (hdone : s.done j.id = true) :
      Moves s .advance (s.goto (.joinFinish j)) .silent
  | notDone {j : Target} (hpc : s.pc s.current = .joinTest j) (hdone : s.done j.id = false) :
      Moves s .advance (s.goto (.joinBlock j)) .silent
  | blocks {j : Target} {r : Nat} (armed cont : Bool) (hpc : s.pc s.current = .joinBlock j)
      (hr : s.running = some r) :
      Moves s .advance
        ({ s.setThread r fun x => { x with status := .waitThread, waitId := j.id } with
          waiting := Function.update s.waiting j.id (some r)
          armed := armed, cont := cont }.goto (.joinRaise j)) .silent
  | signals {p p' : Pc} {u : State} (hpc : s.pc s.current = p) (hp : p.afterSignal = some p')
      (h : raise p' s = some u) : Moves s .advance u .silent
  | finishes {j : Target} {u : Nat} {value : Option Nat} (armed cont : Bool)
      (hpc : s.pc s.current = .joinFinish j) (htable : s.threadTable j.id = some u)
      (hvalue : value = if j.valuePtr then some (s.thread u).ret else none) :
      Moves s .advance
        ({ s with
          waiting := Function.update s.waiting j.id none
          threadTable := Function.update s.threadTable j.id none
          tidList := j.id :: s.tidList
          armed := armed, cont := cont }.goto .own) (.joins j.thread u value)
  | clears {m : Nat} (hpc : s.pc s.current = .initUser m) :
      Moves s .advance ((s.setMutex m { s.mutex m with user := none }).goto (.initAdd m 0)) .silent
  | inits {m : Nat} {p : Pc} (list : Nat → Option Nat) (hpc : s.pc s.current = p)
      (hp : (∃ i, p = .initAdd m i) ∨ ∃ i, p = .initStore m i) :
      Moves s .advance ({ s with mutexList := list }.goto .own) (.inits m)
  | claims {m : Nat} (hpc : s.pc s.current = .lockClaim m) :
      Moves s .advance ((s.setMutex m { s.mutex m with user := s.running }).goto (.lockReturn m))
        .silent
  | returns {m : Nat} (armed cont : Bool) (hpc : s.pc s.current = .lockReturn m) :
      Moves s .advance ({ s with armed := armed, cont := cont }.goto .own) (.locks m)

section Moves

variable {s s' : State} {c : Call} {e : Event}

/-- A creation does not look at the timer. -/
theorem createThread_timer_eq (t : Nat) (s : State) (armed cont : Bool) :
    createThread t { s with armed := armed, cont := cont } =
      { createThread t s with armed := armed, cont := cont } := by
  unfold createThread getId
  dsimp only
  cases s.tidList with
  | nil => rfl
  | cons tid rest => rfl

private theorem join_moves {t : Nat} {valuePtr : Bool} (hown : s.pc s.current = .own)
    (h : myPthreadJoin t valuePtr s = some (s', e)) :
    Moves s (.call (.join t valuePtr)) s' e := by
  obtain ⟨r, hr, hrest⟩ := Option.bind_eq_some_iff.mp h
  dsimp only at hrest
  split at hrest
  · obtain ⟨rfl, rfl⟩ := Prod.mk.inj (Option.some.inj hrest)
    exact .refuses s.armed s.cont hown
  · split at hrest
    · obtain ⟨rfl, rfl⟩ := Prod.mk.inj (Option.some.inj hrest)
      exact .refuses s.armed s.cont hown
    · obtain ⟨rfl, rfl⟩ := Prod.mk.inj (Option.some.inj hrest)
      exact .enters hown hr ‹_›

private theorem lock_moves {m : Option Nat} (hown : s.pc s.current = .own)
    (h : myPthreadMutexLock m s = some (s', e)) : Moves s (.call (.lock m)) s' e := by
  unfold myPthreadMutexLock at h
  cases m with
  | none =>
      obtain ⟨rfl, rfl⟩ := Prod.mk.inj (Option.some.inj h)
      exact .refuses s.armed s.armed hown
  | some m =>
      dsimp only at h
      split at h
      case isTrue hself =>
        obtain ⟨rfl, rfl⟩ := Prod.mk.inj (Option.some.inj h)
        exact .refuses s.armed s.armed hown
      case isFalse hself =>
        split at h
        case isTrue huser =>
          obtain ⟨rfl, rfl⟩ := Prod.mk.inj (Option.some.inj h)
          have hrun : s.running ≠ none := fun hnone => hself (huser.trans hnone.symm)
          exact .locks s.armed s.armed hown hrun huser
        case isFalse huser =>
          obtain ⟨r, hr, hrest⟩ := Option.bind_eq_some_iff.mp h
          obtain ⟨queue, hqueue, hrest⟩ := Option.bind_eq_some_iff.mp hrest
          obtain ⟨rfl, rfl⟩ := Prod.mk.inj (Option.some.inj hrest)
          have hr' : s.running = some r := hr
          exact .waits s.armed s.armed hown hr huser (fun h => hself (h.trans hr'.symm)) hqueue

private theorem unlock_moves {m : Nat} (hown : s.pc s.current = .own)
    (h : myPthreadMutexUnlock m s = some (s', e)) : Moves s (.call (.unlock m)) s' e := by
  unfold myPthreadMutexUnlock at h
  dsimp only at h
  split at h
  case isTrue huser =>
    obtain ⟨rfl, rfl⟩ := Prod.mk.inj (Option.some.inj h)
    exact .refuses s.armed s.armed hown
  case isFalse huser =>
    obtain ⟨queue, hqueue, hrest⟩ := Option.bind_eq_some_iff.mp h
    cases queue with
    | nil =>
        obtain ⟨rfl, rfl⟩ := Prod.mk.inj (Option.some.inj hrest)
        exact .unlocks s.armed s.armed hown (not_not.mp huser) hqueue
    | cons w rest =>
        obtain ⟨rfl, rfl⟩ := Prod.mk.inj (Option.some.inj hrest)
        exact .hands s.armed s.armed hown (not_not.mp huser) hqueue

private theorem activate_timer_eq (queue : List Nat) (s : State) (armed cont : Bool) :
    queue.foldl (fun s w => activate w s) { s with armed := armed, cont := cont } =
      { queue.foldl (fun s w => activate w s) s with armed := armed, cont := cont } := by
  induction queue generalizing s with
  | nil => rfl
  | cons w rest ih => exact ih (activate w s)

private theorem destroy_moves {m : Nat} (hown : s.pc s.current = .own)
    (h : myPthreadMutexDestroy m s = some (s', e)) : Moves s (.call (.destroy m)) s' e := by
  unfold myPthreadMutexDestroy at h
  dsimp only at h
  split at h
  · split at h
    · obtain ⟨queue, hqueue, hrest⟩ := Option.bind_eq_some_iff.mp h
      obtain ⟨rfl, rfl⟩ := Prod.mk.inj (Option.some.inj hrest)
      have hstate : queue.foldl (fun s w => activate w s) s.pauseTimer =
          { queue.foldl (fun s w => activate w s) s with armed := false, cont := s.armed } :=
        activate_timer_eq queue s false s.armed
      rw [hstate]
      exact .destroys s.armed s.armed hown hqueue
    · obtain ⟨rfl, rfl⟩ := Prod.mk.inj (Option.some.inj h)
      exact .refuses false s.armed hown
  · obtain ⟨rfl, rfl⟩ := Prod.mk.inj (Option.some.inj h)
    exact .refuses false s.armed hown

/-- **A call** is one of the moves. -/
theorem call_moves (hown : s.pc s.current = .own) (h : call c s = some (s', e)) :
    Moves s (.call c) s' e := by
  cases c with
  | create t res =>
      obtain ⟨rfl, rfl⟩ := Prod.mk.inj (Option.some.inj h)
      exact .starts hown
  | yield =>
      obtain ⟨r, hr, hrest⟩ := Option.bind_eq_some_iff.mp h
      obtain ⟨rfl, rfl⟩ := Prod.mk.inj (Option.some.inj hrest)
      exact .yields hown hr
  | exit value =>
      obtain ⟨r, hr, hrest⟩ := Option.bind_eq_some_iff.mp h
      obtain ⟨u, hraise, hrest⟩ := Option.bind_eq_some_iff.mp hrest
      obtain ⟨rfl, rfl⟩ := Prod.mk.inj (Option.some.inj hrest)
      exact .exits hown hr hraise
  | join t valuePtr => exact join_moves hown h
  | mutexInit m memory =>
      cases memory with
      | true =>
          obtain ⟨rfl, rfl⟩ := Prod.mk.inj (Option.some.inj h)
          exact .queues hown
      | false =>
          obtain ⟨rfl, rfl⟩ := Prod.mk.inj (Option.some.inj h)
          exact .noMemory hown
  | lock m => exact lock_moves hown h
  | unlock m => exact unlock_moves hown h
  | destroy m => exact destroy_moves hown h

/-- A step inside a call that stays in plain places. -/
theorem Moves.plain {p p' : Pc} (hpc : s.pc s.current = p) (hp : p.stage = .plain)
    (hp' : p'.stage = .plain) (hnew : ∀ t res, p' ≠ .creating t res)
    (he : e = .silent ∨ ∃ code, e = .fails code) : Moves s .advance (s.goto p') e :=
  .quiet s.armed s.cont hpc hp hp' hnew he

private theorem scan_moves {j : Target} {i : Nat} (hpc : s.pc s.current = .joinScan j i)
    (h : joinScan j i s = some (s', e)) : Moves s .advance s' e := by
  unfold joinScan at h
  split at h
  · split at h
    · obtain ⟨rfl, rfl⟩ := Prod.mk.inj (Option.some.inj h)
      exact .asks hpc rfl rfl
    · split at h
      · obtain ⟨rfl, rfl⟩ := Prod.mk.inj (Option.some.inj h)
        exact .denied hpc rfl
      · obtain ⟨rfl, rfl⟩ := Prod.mk.inj (Option.some.inj h)
        exact .asks hpc rfl rfl
  · obtain ⟨rfl, rfl⟩ := Prod.mk.inj (Option.some.inj h)
    exact .asks hpc rfl rfl

private theorem init_moves {m i : Nat} (hpc : s.pc s.current = .initScan m i)
    (h : initScan m i s = some (s', e)) : Moves s .advance s' e := by
  unfold initScan at h
  split at h
  · split at h
    · obtain ⟨rfl, rfl⟩ := Prod.mk.inj (Option.some.inj h)
      exact .plain hpc rfl rfl (by simp) (Or.inr ⟨_, rfl⟩)
    · obtain ⟨rfl, rfl⟩ := Prod.mk.inj (Option.some.inj h)
      exact .plain hpc rfl rfl (by simp) (Or.inl rfl)
  · obtain ⟨rfl, rfl⟩ := Prod.mk.inj (Option.some.inj h)
    exact .plain hpc rfl rfl (by simp) (Or.inl rfl)

private theorem add_moves {m i : Nat} (hpc : s.pc s.current = .initAdd m i)
    (h : initAdd m i s = some (s', e)) : Moves s .advance s' e := by
  unfold initAdd at h
  split at h
  · split at h
    · obtain ⟨rfl, rfl⟩ := Prod.mk.inj (Option.some.inj h)
      exact .plain hpc rfl rfl (by simp) (Or.inl rfl)
    · obtain ⟨rfl, rfl⟩ := Prod.mk.inj (Option.some.inj h)
      exact .plain hpc rfl rfl (by simp) (Or.inl rfl)
  · obtain ⟨rfl, rfl⟩ := Prod.mk.inj (Option.some.inj h)
    exact .inits s.mutexList hpc (Or.inl ⟨i, rfl⟩)

/-- **A step inside a call** is one of the moves. -/
theorem advance_moves (h : advance s = some (s', e)) : Moves s .advance s' e := by
  unfold advance at h
  cases hpc : s.pc s.current with
  | unborn =>
      rw [hpc] at h
      cases h
  | own =>
      rw [hpc] at h
      cases h
  | exited =>
      rw [hpc] at h
      cases h
  | creating t res =>
      rw [hpc] at h
      cases res with
      | noContext =>
          obtain ⟨rfl, rfl⟩ := Prod.mk.inj (Option.some.inj h)
          exact .quiet s.armed s.armed hpc rfl rfl (by simp) (Or.inr ⟨_, rfl⟩)
      | noStack =>
          obtain ⟨rfl, rfl⟩ := Prod.mk.inj (Option.some.inj h)
          exact .quiet s.armed s.armed hpc rfl rfl (by simp) (Or.inr ⟨_, rfl⟩)
      | available =>
          obtain ⟨rfl, rfl⟩ := Prod.mk.inj (Option.some.inj h)
          have hstate : (createThread t s.pauseTimer).resumeTimer =
              { createThread t s with armed := s.armed, cont := s.armed } :=
            congrArg State.resumeTimer (createThread_timer_eq t s false s.armed)
          rw [hstate]
          exact .creates s.armed s.armed hpc
  | yieldRaise =>
      rw [hpc] at h
      obtain ⟨u, hraise, hrest⟩ := Option.map_eq_some_iff.mp h
      obtain ⟨rfl, rfl⟩ := Prod.mk.inj hrest
      exact .signals hpc rfl hraise
  | joinScan j i =>
      rw [hpc] at h
      exact scan_moves hpc h
  | joinTable j =>
      rw [hpc] at h
      dsimp only [joinTable] at h
      split at h
      · obtain ⟨rfl, rfl⟩ := Prod.mk.inj (Option.some.inj h)
        exact .denied hpc rfl
      · obtain ⟨rfl, rfl⟩ := Prod.mk.inj (Option.some.inj h)
        obtain ⟨u, hu⟩ := Option.ne_none_iff_exists'.mp ‹_›
        exact .finds hpc hu
  | joinTest j =>
      rw [hpc] at h
      dsimp only [joinTest] at h
      split at h
      · obtain ⟨rfl, rfl⟩ := Prod.mk.inj (Option.some.inj h)
        exact .isDone hpc ‹_›
      · obtain ⟨rfl, rfl⟩ := Prod.mk.inj (Option.some.inj h)
        exact .notDone hpc (Bool.not_eq_true _ ▸ ‹_›)
  | joinBlock j =>
      rw [hpc] at h
      obtain ⟨r, hr, hrest⟩ := Option.bind_eq_some_iff.mp h
      obtain ⟨rfl, rfl⟩ := Prod.mk.inj (Option.some.inj hrest)
      exact .blocks s.armed s.armed hpc hr
  | joinRaise j =>
      rw [hpc] at h
      obtain ⟨u, hraise, hrest⟩ := Option.map_eq_some_iff.mp h
      obtain ⟨rfl, rfl⟩ := Prod.mk.inj hrest
      exact .signals hpc rfl hraise
  | joinFinish j =>
      rw [hpc] at h
      obtain ⟨u, hu, hrest⟩ := Option.bind_eq_some_iff.mp h
      obtain ⟨rfl, rfl⟩ := Prod.mk.inj (Option.some.inj hrest)
      exact .finishes s.armed s.armed hpc hu rfl
  | initScan m i =>
      rw [hpc] at h
      exact init_moves hpc h
  | initUser m =>
      rw [hpc] at h
      obtain ⟨rfl, rfl⟩ := Prod.mk.inj (Option.some.inj h)
      exact .clears hpc
  | initAdd m i =>
      rw [hpc] at h
      exact add_moves hpc h
  | initStore m i =>
      rw [hpc] at h
      obtain ⟨rfl, rfl⟩ := Prod.mk.inj (Option.some.inj h)
      exact .inits _ hpc (Or.inr ⟨i, rfl⟩)
  | lockRaise m =>
      rw [hpc] at h
      obtain ⟨u, hraise, hrest⟩ := Option.map_eq_some_iff.mp h
      obtain ⟨rfl, rfl⟩ := Prod.mk.inj hrest
      exact .signals hpc rfl hraise
  | lockClaim m =>
      rw [hpc] at h
      obtain ⟨rfl, rfl⟩ := Prod.mk.inj (Option.some.inj h)
      exact .claims hpc
  | lockReturn m =>
      rw [hpc] at h
      obtain ⟨rfl, rfl⟩ := Prod.mk.inj (Option.some.inj h)
      exact .returns s.cont s.cont hpc

/-- **Every step is one of the list.** -/
theorem exec_moves {c : Action} (h : exec s c = some (s', e)) : Moves s c s' e := by
  cases c with
  | alarm =>
      obtain ⟨hon, hrest⟩ := Option.ite_none_right_eq_some.mp h
      obtain ⟨u, hu, heq⟩ := Option.map_eq_some_iff.mp hrest
      obtain ⟨rfl, rfl⟩ := Prod.mk.inj heq
      exact .alarm hon.1 hu
  | call c =>
      obtain ⟨hown, hrest⟩ := Option.ite_none_right_eq_some.mp h
      exact call_moves hown hrest
  | advance => exact advance_moves h

end Moves

end Threads
