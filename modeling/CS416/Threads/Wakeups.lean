import CS416.Threads.Effects

/-!
# Wake-ups

A thread that exits wakes the one that has entered itself in `waiting`.
`my_pthread_join` tests `done` before it enters itself, so a wake-up is missed if
the thread exits in between.  Where that does not happen, no thread sleeps for
one that has exited.
-/

namespace Threads

/-- A thread goes to sleep only while the one it joins is not done. -/
def NotMissed (s : State) : Action → Prop
  | .advance => ∀ j, s.pc s.current = .joinBlock j → s.done j.id = false
  | _ => True

/-- What the handler finds when it is called in `s`: the running thread may just have exited. -/
structure Handed (r : Nat) (s u : State) : Prop where
  stage : ∀ z, u.stage z ≠ .exited → s.stage z = u.stage z
  status : ∀ z, u.stage z ≠ .exited → (s.thread z).status = (u.thread z).status
  table : u.threadTable = s.threadTable
  done : ∀ i, u.done i = true → s.done i = true ∨
    (u.thread r).status = .threadExit ∧ (u.thread r).id = i

/-- No thread sleeps that should have been woken. -/
def Awake (s : State) : Prop :=
  ∀ z j, s.stage z = .sleeping j → (s.thread z).status = .waitThread → s.done j.id = false

section Wakeups

variable {s s' u : State} {r : Nat} {c : Action} {e : Event}

/-- `pthread_exit` marks the caller. -/
theorem exitMark_self (r value : Nat) (s : State) :
    (exitMark r value s).thread r = { s.thread r with ret := value, status := .threadExit } ∧
      (exitMark r value s).done = Function.update s.done (s.thread r).id true := by
  simp [exitMark, State.setThread, State.pauseTimer]

/-- The caller has exited, and the others stay. -/
theorem exitMark_stage (hr : s.running = some r) (value z : Nat) :
    ((exitMark r value s).goto .exited).stage z = if z = r then .exited else s.stage z := by
  have hcur : (exitMark r value s).current = r := current_of_running hr
  rw [stage_goto, hcur]
  rfl

/-- The signal of an exit hands the processor on. -/
theorem Signalled.handed (hs : Signalled s c u) (hr : s.running = some r) : Handed r s u := by
  cases hs with
  | alarm => exact ⟨fun _ _ => rfl, fun _ _ => rfl, rfl, fun _ h => Or.inl h⟩
  | @signal p p' hpc hp =>
      refine ⟨?_, fun _ _ => rfl, rfl, fun _ h => Or.inl h⟩
      intro z _
      exact (stage_update hpc (afterSignal_stage hp) z).symm
  | @exit x value hown hx =>
      obtain rfl := Option.some.inj (hr.symm.trans hx)
      have hstage := exitMark_stage hr value
      have hother : ∀ z, ((exitMark r value s).goto .exited).stage z ≠ .exited → z ≠ r := by
        intro z hz heq
        rw [hstage, if_pos heq] at hz
        exact hz rfl
      refine ⟨?_, ?_, rfl, ?_⟩
      · intro z hz
        rw [hstage, if_neg (hother z hz)]
      · intro z hz
        show _ = (Function.update s.thread r _ z).status
        rw [Function.update_of_ne (hother z hz)]
      · intro i hi
        obtain ⟨hself, hmark⟩ := exitMark_self r value s
        have hdone : (exitMark r value s).done i = true := hi
        have hthread : ((exitMark r value s).goto .exited).thread r =
            { s.thread r with ret := value, status := .threadExit } := hself
        rw [hmark, Function.update_apply] at hdone
        split at hdone
        case isTrue heq =>
          rw [hthread]
          exact Or.inr ⟨rfl, heq.symm⟩
        case isFalse heq => exact Or.inl hdone

/-- **A thread that sleeps for one that is done** is woken now. -/
theorem Handed.woken {z : Nat} {j : Target} (h : Handed r s u) (ha : Awake s) (hc : Core u)
    (hstage : u.stage z = .sleeping j) (hasleep : (u.thread z).status = .waitThread)
    (hdone : u.done j.id = true) : z ∈ woken r u := by
  have hlive : u.stage z ≠ .exited := by simp [hstage]
  have hnot := ha z j ((h.stage z hlive).trans hstage) ((h.status z hlive).trans hasleep)
  rcases h.done j.id hdone with hold | ⟨hexit, hid⟩
  · rw [hnot] at hold
    cases hold
  · obtain ⟨k, hk, hwaiting⟩ := hc.joins.asleep z (by simp [hstage]) hasleep
    obtain rfl : j = k := Stage.sleeping.inj (hstage.symm.trans hk)
    unfold Threads.woken
    rw [hexit, hid, hwaiting]
    exact Option.mem_toList.mpr rfl

/-- The running thread goes on to `p`. -/
theorem Awake.goto {p : Pc} (h : Awake s) (hpc : s'.pc = Function.update s.pc s.current p)
    (hthread : ∀ z, z ≠ s.current → s'.thread z = s.thread z) (hdone : s'.done = s.done)
    (hsleep : ∀ j, p.stage = .sleeping j → (s'.thread s.current).status = .waitThread →
      s.done j.id = false) : Awake s' := by
  have hstage : ∀ z, s'.stage z = if z = s.current then p.stage else s.stage z := by
    intro z
    rw [State.stage, hpc, Function.update_apply]
    split <;> rfl
  intro z j hz hasleep
  rw [hdone]
  rw [hstage] at hz
  split at hz
  case isTrue heq =>
    rw [heq] at hasleep
    exact hsleep j hz hasleep
  case isFalse hne =>
    rw [hthread z hne] at hasleep
    exact h z j hz hasleep

/-- After the handler no thread is asleep that should have been woken. -/
theorem Awake.handler (h : Awake s) (hinv : Inv s) (hs : Signalled s c u)
    (hcall : schedulerAlarmHandler u = some s') : Awake s' := by
  obtain ⟨r, hr, hru, hborn, hcore, hwake⟩ := hinv.signalled hs
  have hhand := hs.handed hr
  obtain ⟨t, hd⟩ := hcore.dispatched hru hborn hwake hcall
  intro z j hz hasleep
  rw [hd.stage] at hz
  rw [hd.frame.done]
  have hold := hd.status_of (by decide) hasleep
  by_contra hdone
  have hw := hhand.woken h hcore hz hold (Bool.not_eq_false _ ▸ hdone)
  rw [hd.active hw] at hasleep
  cases hasleep

/-- A thread changes that does not sleep. -/
theorem Awake.only {x : Nat} (h : Awake s) (honly : Only x s s') (hdone : s'.done = s.done)
    (hx : (s'.thread x).status ≠ .waitThread) : Awake s' := by
  intro z j hz hasleep
  have hne : z ≠ x := by
    intro heq
    exact hx (heq ▸ hasleep)
  rw [hdone]
  rw [honly.stage z hne] at hz
  rw [honly.thread z hne] at hasleep
  exact h z j hz hasleep

/-- **No wake-up is missed** where the condition is met. -/
theorem Awake.step (h : Awake s) (hinv : Inv s) (hinit : s.init = true) (hok : NotMissed s c)
    (hruled : Ruled s c) (hm : Moves s c s' e) : Awake s' := by
  have hruns : ∀ {p : Pc}, s.pc s.current = p → ¬ p.Signals →
      (s.thread s.current).status ≠ .waitThread := by
    intro p hpc hp
    obtain ⟨r, hr, hcur, _, _, hrun⟩ := hinv.runs hpc hp
    rw [hcur]
    exact hrun.ne (Or.inl rfl)
  cases hm with
  | alarm hon hcall => exact h.handler hinv .alarm hcall
  | exits hown hr hcall => exact h.handler hinv (.exit hown hr) hcall
  | signals hpc hp hcall => exact h.handler hinv (.signal hpc hp) hcall
  | starts hown =>
      rw [if_pos hinit]
      exact h.goto rfl (fun _ _ => rfl) rfl (by simp [Pc.stage])
  | refuses | noMemory | locks | unlocks => exact h
  | yields hown hr =>
      refine h.goto rfl ?_ rfl (by simp [Pc.stage])
      intro z hz
      rw [current_of_running hr] at hz
      exact Function.update_of_ne hz ..
  | @waits m r queue armed cont hown hr =>
      refine h.goto rfl ?_ rfl (by simp [Pc.stage])
      intro z hz
      rw [current_of_running hr] at hz
      exact Function.update_of_ne hz ..
  | @hands m w rest armed cont hown huser hqueue =>
      have honly : Only w s
          { activate w (s.setMutex m { waiting := some rest, user := some w }) with
            armed := armed, cont := cont } :=
        ⟨fun _ _ => rfl, fun z hz => Function.update_of_ne hz ..⟩
      refine h.only honly rfl ?_
      show (Function.update s.thread w _ w).status ≠ .waitThread
      rw [Function.update_self]
      simp
  | destroys armed cont hown hqueue =>
      obtain rfl := hruled _ hqueue
      exact h
  | @creates t armed cont hpc =>
      obtain ⟨id, n, l, hget, _⟩ := hinv.core.tables.getId (hruled.1 t hpc).2
      rw [createThread_eq hget]
      intro z j hz hasleep
      have hz' : (Function.update (Function.update s.pc t .own) s.current .own z).stage =
          .sleeping j := hz
      rw [Function.update_apply] at hz'
      split at hz'
      · cases hz'
      · rw [Function.update_apply] at hz'
        split at hz'
        case isTrue heq => cases hz'
        case isFalse hne =>
          have hthread : (Function.update s.thread t _ z).status = .waitThread := hasleep
          rw [Function.update_of_ne hne] at hthread
          show Function.update s.done id false j.id = false
          rw [Function.update_apply]
          split
          · rfl
          · exact h z j hz' hthread
  | enters | queues => exact h.goto rfl (fun _ _ => rfl) rfl (by simp [Pc.stage])
  | quiet armed cont hpc hp hp' => exact h.goto rfl (fun _ _ => rfl) rfl (by simp [hp'])
  | asks hpc hp hp' => exact h.goto rfl (fun _ _ => rfl) rfl (by simp [hp'])
  | denied | finds | notDone | finishes | clears | inits | returns | claims =>
      exact h.goto rfl (fun _ _ => rfl) rfl (by simp [Pc.stage])
  | isDone hpc hdone =>
      refine h.goto rfl (fun _ _ => rfl) rfl ?_
      intro j _ hasleep
      exact absurd hasleep (hruns hpc (by simp [Pc.Signals]))
  | @blocks j r armed cont hpc hr =>
      refine h.goto rfl ?_ rfl ?_
      · intro z hz
        rw [current_of_running hr] at hz
        exact Function.update_of_ne hz ..
      · intro k hk _
        obtain rfl := Stage.sleeping.inj hk
        exact hok j hpc

/-- When the scheduler starts there is only `main`. -/
theorem Before.awake (h : Before s) (hinit : s.init = false) (hm : Moves s c s' e)
    (hon : s'.init = true) : Awake s' := by
  rcases hm.init_or with hsame | ⟨t, res, rfl⟩
  · rw [hsame, hinit] at hon
    cases hon
  · rw [hinit, if_neg Bool.false_ne_true]
    intro z j hz
    rw [stage_goto] at hz
    split at hz
    case isTrue heq => cases hz
    case isFalse hne => cases (h.others z hne).symm.trans hz

/-- **One step** that misses no wake-up. -/
theorem Good.awake_step (hgood : Good s) (h : s.init = true → Awake s) (hok : NotMissed s c)
    (hruled : Ruled s c) (hm : Moves s c s' e) : s'.init = true → Awake s' := by
  cases hinit : s.init with
  | true => exact fun _ => (h hinit).step (hgood.after hinit) hinit hok hruled hm
  | false => exact (hgood.before hinit).awake hinit hm

end Wakeups

end Threads
