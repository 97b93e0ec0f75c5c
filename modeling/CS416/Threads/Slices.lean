import CS416.Threads.Effects

/-!
# Time slices

An alarm charges the running thread only while its status is `active`.
`my_pthread_yield` sets the status to `yield`, and nothing sets it back when the
thread is dispatched again: it stays so until the thread is woken from a wait.
-/

namespace Threads

/-- The thread `r` is moved to the next priority and enqueued there. -/
structure Demoted (r : Nat) (s s' : State) : Prop where
  intervals : (s'.thread r).intervalsRun = 0
  priority : (s'.thread r).priority = ((s.thread r).priority + 1).tmod numPriority
  level : s'.level = Function.update s.level (s'.thread r).priority
    (s.level (s'.thread r).priority ++ [r])

/-- An alarm is charged to the running thread `r`: it is resumed within its slice, and demoted
at the end of it, before the handler selects a thread. -/
structure Charged (r : Nat) (s : State) : Prop where
  resumes : (s.thread r).intervalsRun < s.currentPriority → ∃ s',
    schedulerAlarmHandler s = some s' ∧ s'.running = some r ∧ s'.pc = s.pc ∧
      s'.level = s.level ∧ s'.currentPriority = s.currentPriority ∧
      s'.thread = Function.update s.thread r
        { s.thread r with intervalsRun := (s.thread r).intervalsRun + 1 }
  demotes : ¬ (s.thread r).intervalsRun < s.currentPriority → ∃ v,
    switchStatus r s.pauseTimer = (v, false) ∧ Demoted r s v

/-- `n` alarms, one after the other. -/
def alarms : Nat → State → Option State
  | 0, s => some s
  | n + 1, s => (schedulerAlarmHandler s).bind (alarms n)

/-- After finitely many alarms in its own code the thread is demoted. -/
def DemotedSoon (r : Nat) (s : State) : Prop :=
  ∃ n u, alarms n s = some u ∧ u.running = some r ∧ u.pc = s.pc ∧ Charged r u ∧
    ¬ (u.thread r).intervalsRun < u.currentPriority

/-- A program that follows the rules and does not yield. -/
def NoYield (a : World) (c : Action) : Prop := Rules a c ∧ c ≠ .call .yield

section Slices

variable {s s' : State} {r : Nat}

private theorem switch_active (hactive : (s.thread r).status = .active) :
    switchStatus r s =
      if (s.thread r).intervalsRun < s.currentPriority then
        (s.setThread r fun x => { x with intervalsRun := (s.thread r).intervalsRun + 1 }, true)
      else
        let v := (s.setThread r fun x =>
            { x with intervalsRun := (s.thread r).intervalsRun + 1 }).setThread r fun x =>
          { x with intervalsRun := 0, priority := (x.priority + 1).tmod numPriority }
        (enqueue r (v.thread r).priority v, false) := by
  unfold switchStatus
  rw [hactive]
  rfl

/-- An active thread is charged. -/
theorem charged_of_active (hr : s.running = some r) (hactive : (s.thread r).status = .active) :
    Charged r s := by
  have hswitch := switch_active (s := s.pauseTimer) hactive
  constructor
  case resumes =>
    intro hlt
    rw [if_pos (show (s.pauseTimer.thread r).intervalsRun < s.pauseTimer.currentPriority from hlt)]
      at hswitch
    unfold schedulerAlarmHandler
    rw [hr]
    dsimp only
    rw [hswitch]
    exact ⟨_, rfl, hr, rfl, rfl, rfl, rfl⟩
  case demotes =>
    intro hlt
    rw [if_neg (show ¬ (s.pauseTimer.thread r).intervalsRun < s.pauseTimer.currentPriority from
      hlt)] at hswitch
    refine ⟨_, hswitch, ?_, ?_, rfl⟩
    · simp [enqueue, State.setThread]
    · simp [enqueue, State.setThread, State.pauseTimer]

private theorem tmod_next_ne (p : Int) : (p + 1).tmod numPriority ≠ p := by
  intro heq
  have hdiv := Int.tmod_add_mul_tdiv (p + 1) numPriority
  rw [heq] at hdiv
  simp only [numPriority] at hdiv
  omega

/-- Any other status leaves the priority as it is. -/
theorem switch_priority (hactive : (s.thread r).status ≠ .active) :
    ((switchStatus r s).1.thread r).priority = (s.thread r).priority ∧
      ((switchStatus r s).1.thread r).intervalsRun = (s.thread r).intervalsRun ∧
      (switchStatus r s).2 = false := by
  unfold switchStatus
  cases hstatus : (s.thread r).status with
  | active => exact absurd hstatus hactive
  | threadExit =>
      dsimp only
      cases s.waiting (s.thread r).id with
      | none => exact ⟨rfl, rfl, rfl⟩
      | some w =>
          have hthread : (activate w s).thread r =
              if r = w then { s.thread w with status := .active } else s.thread r :=
            Function.update_apply ..
          rw [hthread]
          refine ⟨?_, ?_, rfl⟩
          · split
            case isTrue heq => rw [heq]
            case isFalse heq => rfl
          · split
            case isTrue heq => rw [heq]
            case isFalse heq => rfl
  | yield | waitThread | waitMutex => exact ⟨rfl, rfl, rfl⟩

/-- The selection changes no thread. -/
theorem findThread_thread {n : Nat} (h : findThread n s = some s') : s'.thread = s.thread := by
  induction n generalizing s with
  | zero => cases h
  | succ n ih =>
      unfold findThread getNext at h
      cases hlevel : s.level s.currentPriority with
      | nil =>
          rw [hlevel] at h
          have hnext : findThread n (nextLevel s) = some s' := h
          have hsame := ih hnext
          exact hsame
      | cons t rest =>
          rw [hlevel] at h
          obtain rfl := Option.some.inj h
          rfl

/-- **An alarm is charged exactly where the status is `active`.** -/
theorem charged_iff (hr : s.running = some r) :
    Charged r s ↔ (s.thread r).status = .active := by
  constructor
  · intro h
    by_contra hactive
    obtain ⟨hprio, hruns, hresume⟩ := switch_priority (s := s.pauseTimer) hactive
    by_cases hlt : (s.thread r).intervalsRun < s.currentPriority
    · obtain ⟨s', hcall, _, _, _, _, hthread⟩ := h.resumes hlt
      unfold schedulerAlarmHandler at hcall
      rw [hr] at hcall
      dsimp only at hcall
      rw [hresume, if_neg Bool.false_ne_true] at hcall
      obtain ⟨u, hfind, rfl⟩ := Option.map_eq_some_iff.mp hcall
      have hsame : u.thread = (switchStatus r s.pauseTimer).1.thread := by
        rw [findThread_thread hfind]
        unfold updateCounters
        split <;> rfl
      have hself : (u.thread r).intervalsRun = (s.thread r).intervalsRun + 1 := by
        have hthread' : u.thread = _ := hthread
        rw [hthread', Function.update_self]
      rw [hsame, hruns] at hself
      have hpause : (s.pauseTimer.thread r).intervalsRun = (s.thread r).intervalsRun := rfl
      omega
    · obtain ⟨v, hswitch, hdemoted⟩ := h.demotes hlt
      rw [hswitch] at hprio
      have hnew := hdemoted.priority
      rw [hprio] at hnew
      exact tmod_next_ne _ hnew.symm
  · intro hactive
    exact charged_of_active hr hactive

/-- **A computing thread is demoted** once its slice is used up. -/
theorem demotedSoon_of_active (hr : s.running = some r)
    (hactive : (s.thread r).status = .active) : DemotedSoon r s := by
  induction hn : (s.currentPriority - (s.thread r).intervalsRun).toNat generalizing s with
  | zero =>
      exact ⟨0, s, rfl, hr, rfl, charged_of_active hr hactive, by omega⟩
  | succ n ih =>
      obtain ⟨s', hcall, hr', hpc, _, hcur, hthread⟩ :=
        (charged_of_active hr hactive).resumes (by omega)
      have hself : s'.thread r =
          { s.thread r with intervalsRun := (s.thread r).intervalsRun + 1 } := by
        rw [hthread, Function.update_self]
      have hstatus : (s'.thread r).status = .active := by
        rw [hself]
        exact hactive
      have hless : (s'.currentPriority - (s'.thread r).intervalsRun).toNat = n := by
        rw [hself, hcur]
        dsimp only
        omega
      obtain ⟨k, u, hrun, hru, hpcu, hcharged, hend⟩ := ih hr' hstatus hless
      refine ⟨k + 1, u, ?_, hru, hpcu.trans hpc, hcharged, hend⟩
      unfold alarms
      rw [hcall]
      exact hrun

/-- **The status `yield` comes from `my_pthread_yield` only.** -/
theorem Moves.yield_back {c : Action} {e : Event} {t : Nat} (hm : Moves s c s' e) (hinv : Inv s)
    (hinit : s.init = true) (hok : Ruled s c) (hyield : (s'.thread t).status = .yield) :
    c = .call .yield ∨ (s.thread t).status = .yield ∧ e ≠ .creates t := by
  have hset : ∀ {x : MyPthread} {r : Nat}, s'.thread = Function.update s.thread r x →
      x.status ≠ .yield → (s.thread t).status = .yield := by
    intro x r hthread hx
    rw [hthread, Function.update_apply] at hyield
    split at hyield
    · exact absurd hyield hx
    · exact hyield
  have hcall : ∀ {u : State}, Signalled s c u → schedulerAlarmHandler u = some s' →
      (u.thread t).status = .yield := by
    intro u hs hhandler
    obtain ⟨r, v, _, _, _, _, hd⟩ := hinv.dispatches hs hhandler
    exact hd.status_of (by decide) hyield
  cases hm with
  | alarm hon hhandler => exact Or.inr ⟨hcall .alarm hhandler, by simp⟩
  | starts hown =>
      rw [if_pos hinit] at hyield
      exact Or.inr ⟨hyield, by simp⟩
  | yields => exact Or.inl rfl
  | @exits r value u hown hr hhandler =>
      have hmark := hcall (.exit hown hr) hhandler
      refine Or.inr ⟨?_, by simp⟩
      have hthread : ((exitMark r value s).goto .exited).thread = Function.update s.thread r
          { s.thread r with ret := value, status := .threadExit } := rfl
      rw [hthread, Function.update_apply] at hmark
      split at hmark
      · cases hmark
      · exact hmark
  | waits armed cont hown hr => exact Or.inr ⟨hset rfl (by simp), by simp⟩
  | hands armed cont hown => exact Or.inr ⟨hset rfl (by simp), by simp⟩
  | destroys armed cont hown hqueue =>
      obtain rfl := hok _ hqueue
      exact Or.inr ⟨hyield, by simp⟩
  | @creates v armed cont hpc =>
      obtain ⟨id, n, l, hget, _⟩ := hinv.core.tables.getId (hok.1 v hpc).2
      rw [createThread_eq hget] at hyield hset
      refine Or.inr ⟨hset rfl (by simp), ?_⟩
      intro heq
      obtain rfl := Event.creates.inj heq
      have hself : (Function.update s.thread v
          { id := id, waitId := -1, priority := 0, intervalsRun := 0, ret := 0,
            status := .active } v).status = .yield := hyield
      rw [Function.update_self] at hself
      cases hself
  | blocks armed cont hpc => exact Or.inr ⟨hset rfl (by simp), by simp⟩
  | signals hpc hp hhandler =>
      have hback := hcall (.signal hpc hp) hhandler
      exact Or.inr ⟨hback, by simp⟩
  | quiet armed cont hpc hp hp' hnew he =>
      refine Or.inr ⟨hyield, ?_⟩
      rcases he with rfl | ⟨code, rfl⟩
      · simp
      · simp
  | refuses | enters | noMemory | queues | locks | unlocks => exact Or.inr ⟨hyield, by simp⟩
  | asks | denied | finds | isDone | notDone | finishes => exact Or.inr ⟨hyield, by simp⟩
  | clears | inits | claims | returns => exact Or.inr ⟨hyield, by simp⟩

/-- No thread's status is `yield`. -/
def NoneYielded (s : State) : Prop :=
  s.init = true → ∀ t, s.stage t ≠ .unborn → (s.thread t).status ≠ .yield

private theorem noneYielded_of_reached {a : World} (h : Reached NoYield a) :
    NoneYielded a.state := by
  apply h.invariant (I := fun a => NoneYielded a.state)
  · intro b hb hinit
    rw [hb.1.init] at hinit
    cases hinit
  · intro b c d hb ih hstep hinit t hborn hyield
    have hgood := good_of_reached (fun _ _ h => h.1) hb
    obtain ⟨s, e, hexec, rfl⟩ := hstep.2
    have hm := exec_moves hexec
    cases hon : b.state.init with
    | true =>
        rcases hm.yield_back (hgood.after hon) hon hstep.1.1 hyield with hcall | ⟨hold, hnew⟩
        · exact hstep.1.2 hcall
        · exact ih hon t (hm.born_back (hgood.after hon) hnew hborn) hold
    | false =>
        have hbefore := hgood.before hon
        rcases hm.init_or with hsame | ⟨u, res, rfl⟩
        · have hinit' : s.init = true := hinit
          rw [hsame, hon] at hinit'
          cases hinit'
        · rw [hon, if_neg Bool.false_ne_true] at hborn hyield
          by_cases ht : t = 0
          · subst ht
            have hself : ((schedulerInit b.state).thread 0).status = .active := by
              simp [schedulerInit]
            have hthread : ((schedulerInit b.state).thread 0).status = .yield := hyield
            rw [hself] at hthread
            cases hthread
          · rw [stage_goto] at hborn
            have hcur : (schedulerInit b.state).current = 0 := rfl
            rw [hcur, if_neg ht] at hborn
            exact hborn (hbefore.others t ht)

end Slices

/-- **Time slices**: an alarm in a thread's own code is charged to it exactly where its status is
`active`; it is then demoted after finitely many; and the status is `active` in every run without
`my_pthread_yield`. -/
theorem time_slices {a : World} {r : Nat} (hr : a.state.running = some r)
    (hown : a.state.pc r = .own) :
    (Charged r a.state ↔ (a.state.thread r).status = .active) ∧
      ((a.state.thread r).status = .active → DemotedSoon r a.state) ∧
      (Reached NoYield a → (a.state.thread r).status = .active) := by
  refine ⟨charged_iff hr, demotedSoon_of_active hr, ?_⟩
  intro h
  have hinv := (good_of_reached (fun _ _ h => h.1) h).inv_of_running hr
  obtain ⟨r', hr', hborn, hwhy⟩ := hinv.running
  obtain rfl := Option.some.inj (hr'.symm.trans hr)
  have hinit : a.state.init = true := by
    by_contra hoff
    have hbefore := (good_of_reached (fun _ _ h => h.1) h).before (Bool.not_eq_true _ ▸ hoff)
    rw [hbefore.running] at hr
    cases hr
  rcases hwhy with (hactive | hyield) | ⟨m, hpc⟩ | ⟨j, hpc⟩
  · exact hactive
  · exact absurd hyield (noneYielded_of_reached h hinit r' hborn)
  · rw [hown] at hpc
    cases hpc
  · rw [hown] at hpc
    cases hpc

/-- `main` has created a thread and computes. -/
theorem time_slices_created : DemotedSoon 0 createdWorld.state :=
  (time_slices (a := createdWorld) (r := 0) rfl rfl).2.1 rfl

/-- `main` and thread 1 have yielded, and `main` computes. -/
theorem yielded_not_charged : ¬ ∀ a, Reached (fun _ _ => True) a → ∀ r,
    a.state.running = some r → a.state.pc r = .own → Charged r a.state := by
  intro hclaim
  have hsome : ((runs [.call (.create 1 .available), .advance, .call .yield, .advance,
      .call .yield, .advance] blankWorld.state).map fun s =>
        (s.running, s.pc 0, (s.thread 0).status)) = some (some 0, .own, .yield) := by
    decide +kernel
  obtain ⟨s, hruns, hsees⟩ := Option.map_eq_some_iff.mp hsome
  simp only [Prod.mk.injEq] at hsees
  obtain ⟨hr, hown, hyield⟩ := hsees
  obtain ⟨hist, hreach⟩ := visited_blank.runs hruns
  have hactive := (charged_iff hr).mp (hclaim ⟨s, hist⟩ hreach 0 hr hown)
  rw [hyield] at hactive
  cases hactive

end Threads
