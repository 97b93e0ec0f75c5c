import CS416.Threads.Runs

/-!
# The timer

Every call pauses the timer and lets it run again from the saved value.  The
saved value is shared: `pthread_exit` saves a paused timer when it signals, so
a thread that is dispatched there and waited in `my_pthread_mutex_lock` stops
the timer when it restores `cont`.  `my_pthread_mutex_destroy` restores nothing
on its error returns.
-/

namespace Threads

/-- The timer runs once there is a scheduler. -/
def Armed (s : State) : Prop := s.init = true → s.armed = true

/-- A mutex is only destroyed while it is in `mutex_list` and free, and a thread that waited for
a mutex restores a timer value that is not zero. -/
def TimerOk (a : World) : Action → Prop
  | .call (.destroy m) => a.state.init = true →
      (∃ i ∈ List.range mutexLim, a.state.mutexList i = some m) ∧ (a.state.mutex m).user = none
  | .advance => ∀ m, a.state.pc a.state.current = .lockReturn m → a.state.cont = true
  | _ => True

section Timer

variable {s s' : State} {e : Event} {a b : World}

private theorem schedulerAlarmHandler_armed (h : schedulerAlarmHandler s = some s') :
    s'.armed = true := by
  unfold schedulerAlarmHandler at h
  split at h
  · cases h
  · dsimp only at h
    split at h
    · obtain rfl := Option.some.inj h
      rfl
    · obtain ⟨u, _, rfl⟩ := Option.map_eq_some_iff.mp h
      rfl

private theorem raise_armed {pc : Pc} (h : raise pc s = some s') : s'.armed = true :=
  schedulerAlarmHandler_armed h

/-- `get_ID` changes the IDs only. -/
theorem getId_snd (s : State) :
    ∃ n l, (getId s).2 = { s with threadCount := n, tidList := l } := by
  unfold getId
  split
  · exact ⟨_, _, rfl⟩
  · exact ⟨_, _, rfl⟩

/-- A creation leaves the timer alone. -/
theorem createThread_timer (t : Nat) (s : State) :
    (createThread t s).init = s.init ∧ (createThread t s).armed = s.armed ∧
      (createThread t s).cont = s.cont := by
  obtain ⟨n, l, heq⟩ := getId_snd s
  simp [createThread, State.setThread, enqueue, heq]

/-- So do threads that are woken. -/
theorem activate_timer (queue : List Nat) (s : State) :
    (queue.foldl (fun s w => activate w s) s).init = s.init ∧
      (queue.foldl (fun s w => activate w s) s).cont = s.cont := by
  induction queue generalizing s with
  | nil => exact ⟨rfl, rfl⟩
  | cons w rest ih => exact ih (activate w s)

/-- A creation ends with the timer armed. -/
theorem Armed.create {t : Nat} {res : Resources} (h : Armed s)
    (hcall : creating t res s = some (s', e)) : Armed s' := by
  unfold creating at hcall
  obtain ⟨hinit, _, hcont⟩ := createThread_timer t s.pauseTimer
  cases res with
  | available =>
      obtain ⟨rfl, _⟩ := Prod.mk.inj (Option.some.inj hcall)
      intro hs
      show (createThread t s.pauseTimer).cont = true
      rw [hcont]
      exact h (hinit ▸ hs)
  | noContext =>
      obtain ⟨rfl, _⟩ := Prod.mk.inj (Option.some.inj hcall)
      exact h
  | noStack =>
      obtain ⟨rfl, _⟩ := Prod.mk.inj (Option.some.inj hcall)
      exact h

/-- So does `my_pthread_mutex_destroy` on a free mutex that is in the list. -/
theorem Armed.destroy {m : Nat} (h : Armed s)
    (hok : s.init = true →
      (∃ i ∈ List.range mutexLim, s.mutexList i = some m) ∧ (s.mutex m).user = none)
    (hcall : myPthreadMutexDestroy m s = some (s', e)) : Armed s' := by
  unfold myPthreadMutexDestroy at hcall
  dsimp only [State.pauseTimer] at hcall
  split at hcall
  case isTrue hlist =>
    split at hcall
    case isTrue huser =>
      obtain ⟨queue, _, hrest⟩ := Option.bind_eq_some_iff.mp hcall
      obtain ⟨rfl, _⟩ := Prod.mk.inj (Option.some.inj hrest)
      obtain ⟨hinit, hcont⟩ := activate_timer queue s.pauseTimer
      intro hs
      exact hcont.trans (h (hinit.symm.trans hs))
    case isFalse huser =>
      obtain ⟨rfl, _⟩ := Prod.mk.inj (Option.some.inj hcall)
      intro hs
      exact absurd (hok hs).2 huser
  case isFalse hlist =>
    obtain ⟨rfl, _⟩ := Prod.mk.inj (Option.some.inj hcall)
    intro hs
    exact absurd (hok hs).1 hlist

/-- So does each call that meets the condition. -/
theorem Armed.call {c : Call} (h : Armed s) (hok : TimerOk ⟨s, []⟩ (.call c))
    (hcall : Threads.call c s = some (s', e)) : Armed s' := by
  cases c with
  | create t res =>
      obtain ⟨rfl, _⟩ := Prod.mk.inj (Option.some.inj hcall)
      by_cases hinit : s.init = true
      · simpa [Armed, State.goto, hinit] using h
      · simp [Armed, State.goto, hinit, schedulerInit]
  | yield =>
      obtain ⟨r, _, hrest⟩ := Option.bind_eq_some_iff.mp hcall
      obtain ⟨rfl, _⟩ := Prod.mk.inj (Option.some.inj hrest)
      exact h
  | exit value =>
      obtain ⟨r, _, hrest⟩ := Option.bind_eq_some_iff.mp hcall
      obtain ⟨u, hraise, hrest⟩ := Option.bind_eq_some_iff.mp hrest
      obtain ⟨rfl, _⟩ := Prod.mk.inj (Option.some.inj hrest)
      intro _
      exact raise_armed hraise
  | join t valuePtr =>
      obtain ⟨r, _, hrest⟩ := Option.bind_eq_some_iff.mp hcall
      dsimp only at hrest
      split at hrest
      · obtain ⟨rfl, _⟩ := Prod.mk.inj (Option.some.inj hrest)
        exact h
      · split at hrest
        · obtain ⟨rfl, _⟩ := Prod.mk.inj (Option.some.inj hrest)
          exact h
        · obtain ⟨rfl, _⟩ := Prod.mk.inj (Option.some.inj hrest)
          exact h
  | mutexInit m memory =>
      cases memory with
      | true =>
          obtain ⟨rfl, _⟩ := Prod.mk.inj (Option.some.inj hcall)
          exact h
      | false =>
          obtain ⟨rfl, _⟩ := Prod.mk.inj (Option.some.inj hcall)
          exact h
  | lock m =>
      cases m with
      | none =>
          obtain ⟨rfl, _⟩ := Prod.mk.inj (Option.some.inj hcall)
          exact h
      | some m =>
          simp only [Threads.call, myPthreadMutexLock] at hcall
          split at hcall
          · obtain ⟨rfl, _⟩ := Prod.mk.inj (Option.some.inj hcall)
            exact h
          · split at hcall
            · obtain ⟨rfl, _⟩ := Prod.mk.inj (Option.some.inj hcall)
              exact h
            · obtain ⟨r, _, hrest⟩ := Option.bind_eq_some_iff.mp hcall
              obtain ⟨queue, _, hrest⟩ := Option.bind_eq_some_iff.mp hrest
              obtain ⟨rfl, _⟩ := Prod.mk.inj (Option.some.inj hrest)
              exact h
  | unlock m =>
      simp only [Threads.call, myPthreadMutexUnlock] at hcall
      split at hcall
      · obtain ⟨rfl, _⟩ := Prod.mk.inj (Option.some.inj hcall)
        exact h
      · obtain ⟨queue, _, hrest⟩ := Option.bind_eq_some_iff.mp hcall
        cases queue with
        | nil =>
            obtain ⟨rfl, _⟩ := Prod.mk.inj (Option.some.inj hrest)
            exact h
        | cons w rest =>
            obtain ⟨rfl, _⟩ := Prod.mk.inj (Option.some.inj hrest)
            exact h
  | destroy m => exact h.destroy hok hcall

/-- A step inside a call: the timer runs as before, or the thread restores `cont`. -/
theorem Armed.advance (h : Armed s)
    (hok : ∀ m, s.pc s.current = .lockReturn m → s.cont = true)
    (hstep : Threads.advance s = some (s', e)) : Armed s' := by
  unfold Threads.advance at hstep
  cases hpc : s.pc s.current with
  | unborn =>
      rw [hpc] at hstep
      cases hstep
  | own =>
      rw [hpc] at hstep
      cases hstep
  | exited =>
      rw [hpc] at hstep
      cases hstep
  | creating t res =>
      rw [hpc] at hstep
      exact h.create hstep
  | yieldRaise | joinRaise j | lockRaise m =>
      rw [hpc] at hstep
      obtain ⟨u, hraise, hrest⟩ := Option.map_eq_some_iff.mp hstep
      obtain ⟨rfl, _⟩ := Prod.mk.inj hrest
      intro _
      exact raise_armed hraise
  | joinScan j i =>
      rw [hpc] at hstep
      dsimp only [joinScan] at hstep
      split at hstep
      · split at hstep
        · obtain ⟨rfl, _⟩ := Prod.mk.inj (Option.some.inj hstep)
          exact h
        · split at hstep
          · obtain ⟨rfl, _⟩ := Prod.mk.inj (Option.some.inj hstep)
            exact h
          · obtain ⟨rfl, _⟩ := Prod.mk.inj (Option.some.inj hstep)
            exact h
      · obtain ⟨rfl, _⟩ := Prod.mk.inj (Option.some.inj hstep)
        exact h
  | joinTable j =>
      rw [hpc] at hstep
      dsimp only [joinTable] at hstep
      split at hstep
      · obtain ⟨rfl, _⟩ := Prod.mk.inj (Option.some.inj hstep)
        exact h
      · obtain ⟨rfl, _⟩ := Prod.mk.inj (Option.some.inj hstep)
        exact h
  | joinTest j =>
      rw [hpc] at hstep
      dsimp only [joinTest] at hstep
      split at hstep
      · obtain ⟨rfl, _⟩ := Prod.mk.inj (Option.some.inj hstep)
        exact h
      · obtain ⟨rfl, _⟩ := Prod.mk.inj (Option.some.inj hstep)
        exact h
  | joinBlock j | joinFinish j =>
      rw [hpc] at hstep
      obtain ⟨r, _, hrest⟩ := Option.bind_eq_some_iff.mp hstep
      obtain ⟨rfl, _⟩ := Prod.mk.inj (Option.some.inj hrest)
      exact h
  | initScan m i =>
      rw [hpc] at hstep
      dsimp only [initScan] at hstep
      split at hstep
      · split at hstep
        · obtain ⟨rfl, _⟩ := Prod.mk.inj (Option.some.inj hstep)
          exact h
        · obtain ⟨rfl, _⟩ := Prod.mk.inj (Option.some.inj hstep)
          exact h
      · obtain ⟨rfl, _⟩ := Prod.mk.inj (Option.some.inj hstep)
        exact h
  | initUser m | lockClaim m | initStore m i =>
      rw [hpc] at hstep
      obtain ⟨rfl, _⟩ := Prod.mk.inj (Option.some.inj hstep)
      exact h
  | initAdd m i =>
      rw [hpc] at hstep
      dsimp only [initAdd] at hstep
      split at hstep
      · split at hstep
        · obtain ⟨rfl, _⟩ := Prod.mk.inj (Option.some.inj hstep)
          exact h
        · obtain ⟨rfl, _⟩ := Prod.mk.inj (Option.some.inj hstep)
          exact h
      · obtain ⟨rfl, _⟩ := Prod.mk.inj (Option.some.inj hstep)
        exact h
  | lockReturn m =>
      rw [hpc] at hstep
      obtain ⟨rfl, _⟩ := Prod.mk.inj (Option.some.inj hstep)
      intro _
      exact hok m hpc

/-- **One step** keeps the timer armed. -/
theorem Armed.step {c : Action} (h : Armed a.state) (hok : TimerOk a c)
    (hstep : WorldStep a c b) : Armed b.state := by
  obtain ⟨s, e, hexec, rfl⟩ := hstep
  cases c with
  | alarm =>
      obtain ⟨_, hrest⟩ := Option.ite_none_right_eq_some.mp hexec
      obtain ⟨u, hu, heq⟩ := Option.map_eq_some_iff.mp hrest
      obtain ⟨rfl, _⟩ := Prod.mk.inj heq
      intro _
      exact schedulerAlarmHandler_armed hu
  | call c =>
      obtain ⟨_, hcall⟩ := Option.ite_none_right_eq_some.mp hexec
      refine h.call ?_ hcall
      cases c <;> exact hok
  | advance => exact h.advance hok hexec

/-- **Preemption is not lost** in a run that meets the condition: the timer runs whenever a
thread is in its own code, and between the steps of a call too. -/
theorem timer_armed (h : Reached TimerOk a) (hinit : a.state.init = true) :
    a.state.armed = true := by
  have harmed : Armed a.state := by
    apply h.invariant (I := fun a => Armed a.state)
    · intro b hb hs
      rw [hb.1.init] at hs
      cases hs
    · intro b c d _ hb hstep
      exact hb.step hstep.1 hstep.2
  exact harmed hinit

/-- A step that destroys nothing and restores no timer value of zero. -/
def keepsTimer (s : State) : Action → Bool
  | .call (.destroy _) => false
  | .advance =>
    match s.pc s.current with
    | .lockReturn _ => s.cont
    | _ => true
  | _ => true

private theorem timerOk_of_keeps {c : Action} {hist : List (Nat × Event)}
    (h : keepsTimer s c = true) :
    TimerOk ⟨s, hist⟩ c := by
  cases c with
  | alarm => trivial
  | call c =>
      cases c with
      | destroy m => cases h
      | _ => trivial
  | advance =>
      intro m hpc
      dsimp only at hpc
      unfold keepsTimer at h
      rw [hpc] at h
      exact h

/-- `main` unlocks the mutex for thread 1, which comes back from `my_pthread_mutex_lock`. -/
def handing : List Action :=
  [.call (.unlock 0), .call .yield, .advance, .advance, .advance]

/-- Thread 1 has waited for a mutex and got it. -/
theorem timer_armed_waiter : ∃ a : World, a.state.running = some 1 ∧ a.state.pc 1 = .own ∧
    (a.state.mutex 0).user = some 1 ∧ a.state.armed = true := by
  have hsome : ((runs [.call (.create 1 .available), .advance] blankWorld.state).bind fun s =>
      (cleared 0 s).map fun u => (allowed keepsTimer (lining ++ handing) u,
        (runs (lining ++ handing) u).map fun s' => decide (s'.running = some 1 ∧
          s'.pc 1 = .own ∧ (s'.mutex 0).user = some 1 ∧ s'.init = true))) =
      some (true, some true) := by
    decide +kernel
  obtain ⟨s, hruns, hseen⟩ := Option.bind_eq_some_iff.mp hsome
  obtain ⟨u, hcleared, hseen⟩ := Option.map_eq_some_iff.mp hseen
  obtain ⟨hall, hseen⟩ := Prod.mk.inj hseen
  obtain ⟨s', hruns', hseen⟩ := Option.map_eq_some_iff.mp hseen
  obtain ⟨hrun, hown, huser, hinit⟩ := of_decide_eq_true hseen
  have hcheck : ∀ u hist c, Reached TimerOk ⟨u, hist⟩ → keepsTimer u c = true →
      TimerOk ⟨u, hist⟩ c := fun _ _ _ _ => timerOk_of_keeps
  have hscan : ∀ (u : State) m i hist, u.pc u.current = .initScan m i →
      TimerOk ⟨u, hist⟩ .advance := by
    intro u m i hist hpc k hk
    cases hpc.symm.trans hk
  have hcreated := visited_blank.allowed hcheck (by decide +kernel) hruns
  have hvisit := hcreated.cleared (fun _ _ => trivial) hscan hcleared
  obtain ⟨hist, hreach⟩ := hvisit.allowed hcheck hall hruns'
  exact ⟨⟨s', hist⟩, hrun, hown, huser, timer_armed hreach hinit⟩

/-- `main` destroys a mutex that was never initialised, and runs on with the timer paused. -/
theorem destroy_stops_timer : ¬ ∀ a, Reached (fun _ _ => True) a → a.state.init = true →
    a.state.pc a.state.current = .own → a.state.armed = true := by
  intro hclaim
  have hsome : ((runs [.call (.create 1 .available), .advance, .call (.destroy 7)]
      blankWorld.state).map fun s => (s.init, s.pc s.current, s.armed)) =
      some (true, .own, false) := by decide +kernel
  obtain ⟨s, hruns, hsees⟩ := Option.map_eq_some_iff.mp hsome
  simp only [Prod.mk.injEq] at hsees
  obtain ⟨hinit, hown, harmed⟩ := hsees
  obtain ⟨hist, hreach⟩ := visited_blank.runs hruns
  have harmed' := hclaim ⟨s, hist⟩ hreach hinit hown
  rw [harmed] at harmed'
  cases harmed'

end Timer

end Threads
