import CS416.Threads.Steps

/-!
# What a step does to the joins and to the IDs

A thread comes to want a join only by calling `my_pthread_join`.  Only
`my_pthread_create` and the end of a join change `thread_table`, and only the
former gives a thread an ID.
-/

namespace Threads

/-- The states in which a step calls the handler. -/
inductive Signalled (s : State) : Action → State → Prop
  | alarm : Signalled s .alarm s
  | exit {r value : Nat} (hown : s.pc s.current = .own) (hr : s.running = some r) :
      Signalled s (.call (.exit value)) ((exitMark r value s).goto .exited)
  | signal {p p' : Pc} (hpc : s.pc s.current = p) (hp : p.afterSignal = some p') :
      Signalled s .advance (s.goto p')

/-- The IDs and the table are as they were. -/
structure SameTable (s s' : State) : Prop where
  table : s'.threadTable = s.threadTable
  id : ∀ t, (s'.thread t).id = (s.thread t).id

/-- What a step has to do with the IDs. -/
inductive IdStep (s s' : State) : Event → Prop
  | other {e : Event} (hsame : SameTable s s') (hcreates : ∀ t, e ≠ .creates t)
      (hjoins : ∀ t u value, e ≠ .joins t u value) : IdStep s s' e
  | creates {t : Nat} {id n : Int} {l : List Int} (hpc : s.pc s.current = .creating t .available)
      (hget : getId s = (id, { s with threadCount := n, tidList := l })) (hid : Issued s id n l)
      (htable : s'.threadTable = Function.update s.threadTable id (some t))
      (hself : (s'.thread t).id = id) (hothers : ∀ u, u ≠ t → (s'.thread u).id = (s.thread u).id) :
      IdStep s s' (.creates t)
  | joins {j : Target} {u : Nat} {value : Option Nat} (hpc : s.pc s.current = .joinFinish j)
      (hu : s.threadTable j.id = some u)
      (htable : s'.threadTable = Function.update s.threadTable j.id none)
      (hplace : s'.stage s.current = .plain)
      (hids : ∀ t, (s'.thread t).id = (s.thread t).id) : IdStep s s' (.joins j.thread u value)

/-- Where a step can bring a thread. -/
inductive StageStep (s : State) (c : Action) (z : Nat) : Stage → Prop
  | stays : StageStep s c z (s.stage z)
  | leaves : StageStep s c z .plain
  | exits {value : Nat} (hc : c = .call (.exit value)) (hz : z = s.current) :
      StageStep s c z .exited
  | asks {t : Nat} {v : Bool} (hc : c = .call (.join t v)) (hz : z = s.current) :
      StageStep s c z (.asking ⟨t, (s.thread t).id, v⟩)
  | finds {j : Target} (hc : c = .advance) (hz : z = s.current)
      (hpc : s.pc s.current = .joinTable j) :
      StageStep s c z (.joining j)
  | sleeps {j : Target} (h : s.stage z = .joining j) : StageStep s c z (.sleeping j)
  | locks {m : Nat} (hc : c = .call (.lock (some m))) : StageStep s c z (.locking m)

section Effects

variable {s s' : State} {c : Action} {e : Event} {p p' : Pc}

/-- A thread goes on in its own code or in a call. -/
theorem StageStep.goto (hpc : s'.pc = Function.update s.pc s.current p')
    (h : StageStep s c s.current p'.stage) (z : Nat) : StageStep s c z (s'.stage z) := by
  rw [State.stage, hpc, Function.update_apply]
  split
  case isTrue heq =>
    rw [heq]
    exact h
  case isFalse heq => exact .stays

/-- What does not change when one thread is activated does not when several are. -/
theorem activate_all {α : Type} {f : State → α} (hf : ∀ w s, f (activate w s) = f s)
    (queue : List Nat) (s : State) : f (queue.foldl (fun s w => activate w s) s) = f s := by
  induction queue generalizing s with
  | nil => rfl
  | cons w rest ih => exact (ih (activate w s)).trans (hf w s)

/-- Threads that are woken stay where they are. -/
theorem activate_pc (queue : List Nat) (s : State) :
    (queue.foldl (fun s w => activate w s) s).pc = s.pc :=
  activate_all (f := State.pc) (fun _ _ => rfl) queue s

/-- The new thread is at its start. -/
theorem createThread_pc (t : Nat) (s : State) :
    (createThread t s).pc = Function.update s.pc t .own := by
  obtain ⟨n, l, heq⟩ := getId_snd s
  simp [createThread, State.setThread, enqueue, heq]

/-- The creator goes on. -/
theorem createThread_running (t : Nat) (s : State) : (createThread t s).running = s.running := by
  obtain ⟨n, l, heq⟩ := getId_snd s
  simp [createThread, State.setThread, enqueue, heq]

/-- The places after a thread has been created. -/
theorem created_pc (t : Nat) (s : State) (armed cont : Bool) :
    ({ createThread t s with armed := armed, cont := cont }.goto .own).pc =
      Function.update (Function.update s.pc t .own) s.current .own := by
  have hcur : (createThread t s).current = s.current := by
    unfold State.current
    rw [createThread_running]
  rw [← createThread_pc, ← hcur]
  rfl

/-- **The places of the threads**, step by step. -/
theorem Moves.stageStep (hm : Moves s c s' e) (z : Nat) : StageStep s c z (s'.stage z) := by
  have hframe : ∀ {u : State}, schedulerAlarmHandler u = some s' → s'.stage z = u.stage z := by
    intro u hcall
    rw [State.stage, (schedulerAlarmHandler_frame hcall).pc]
    rfl
  have hplain : ∀ {u : State} {p : Pc}, u.pc = Function.update s.pc s.current p →
      p.stage = .plain → StageStep s c z (u.stage z) :=
    fun hu hp => StageStep.goto hu (hp ▸ .leaves) z
  have hsame : ∀ {u : State} {p p' : Pc}, u.pc = Function.update s.pc s.current p' →
      s.pc s.current = p → p'.stage = p.stage → StageStep s c z (u.stage z) := by
    intro u p p' hu hpc hp
    have hstays : StageStep s c s.current (s.stage s.current) := .stays
    rw [State.stage, hpc, ← hp] at hstays
    exact StageStep.goto hu hstays z
  cases hm with
  | alarm hon hcall =>
      rw [hframe hcall]
      exact .stays
  | @starts t res hown =>
      by_cases hinit : s.init = true
      · rw [if_pos hinit]
        exact hplain rfl rfl
      · rw [if_neg hinit, stage_goto]
        split
        case isTrue heq => exact .leaves
        case isFalse heq => exact .stays
  | refuses | noMemory | locks | unlocks | hands => exact .stays
  | @destroys m queue armed cont hown hqueue =>
      have hpc : (queue.foldl (fun s w => activate w s) s).pc z = s.pc z :=
        congrFun (activate_pc queue s) z
      have hstage : (queue.foldl (fun s w => activate w s) s).stage z = s.stage z := by
        rw [State.stage, hpc, State.stage]
      have hstays : StageStep s (.call (.destroy m)) z
          ((queue.foldl (fun s w => activate w s) s).stage z) := by
        rw [hstage]
        exact .stays
      exact hstays
  | yields | queues => exact hplain rfl rfl
  | @exits r value u hown hr hcall =>
      rw [hframe hcall]
      exact StageStep.goto rfl (.exits rfl rfl) z
  | enters hown hr hne => exact StageStep.goto rfl (.asks rfl rfl) z
  | waits armed cont hown => exact StageStep.goto rfl (.locks rfl) z
  | @creates t armed cont hpc =>
      rw [State.stage, created_pc, Function.update_apply]
      split
      · exact .leaves
      · rw [Function.update_apply]
        split
        · exact .leaves
        · exact .stays
  | quiet armed cont hpc hp hp' => exact hplain rfl hp'
  | asks hpc hp hp' => exact hsame rfl hpc (hp'.trans hp.symm)
  | denied | finishes | clears | inits | returns => exact hplain rfl rfl
  | finds hpc => exact StageStep.goto rfl (.finds rfl rfl hpc) z
  | isDone hpc => exact StageStep.goto rfl (.sleeps (by rw [State.stage, hpc]; rfl)) z
  | notDone hpc => exact hsame rfl hpc rfl
  | blocks armed cont hpc => exact StageStep.goto rfl (.sleeps (by rw [State.stage, hpc]; rfl)) z
  | signals hpc hp hcall =>
      rw [hframe hcall]
      exact hsame rfl hpc (afterSignal_stage hp)
  | claims => exact hplain rfl rfl

/-- **A thread wants a join from the call on**, until the call returns. -/
theorem Moves.wants (hm : Moves s c s' e) {z : Nat} {j : Target}
    (hz : (s'.stage z).wanted = some j) : (s.stage z).wanted = some j ∨
      ∃ t v, c = .call (.join t v) ∧ z = s.current ∧ j = ⟨t, (s.thread t).id, v⟩ := by
  have hstep := hm.stageStep z
  generalize s'.stage z = x at hstep hz
  cases hstep with
  | stays => exact Or.inl hz
  | asks hc hcur => exact Or.inr ⟨_, _, hc, hcur, (Option.some.inj hz).symm⟩
  | finds hc hcur hpc =>
      left
      rw [hcur, State.stage, hpc]
      exact hz
  | sleeps h =>
      rw [h]
      exact Or.inl hz
  | leaves | exits | locks => cases hz

/-- A step in which `my_pthread_join` returns 0. -/
theorem Moves.joining {named released : Nat} {value : Option Nat}
    (hm : Moves s c s' (.joins named released value)) : ∃ j, s.pc s.current = .joinFinish j ∧
      named = j.thread ∧ s.threadTable j.id = some released ∧
      (value = if j.valuePtr then some (s.thread released).ret else none) ∧
      s'.threadTable = Function.update s.threadTable j.id none ∧
      s'.tidList = j.id :: s.tidList := by
  cases hm with
  | finishes armed cont hpc htable hvalue => exact ⟨_, hpc, rfl, htable, hvalue, rfl, rfl⟩
  | quiet armed cont hpc hp hp' hnew he =>
      rcases he with he | ⟨code, he⟩
      · cases he
      · cases he

/-- A thread has found the thread it joins from the test of `thread_table` on. -/
theorem Moves.targets (hm : Moves s c s' e) {z : Nat} {j : Target}
    (hz : (s'.stage z).target = some j) : (s.stage z).target = some j ∨
      c = .advance ∧ z = s.current ∧ s.pc s.current = .joinTable j := by
  have hstep := hm.stageStep z
  generalize s'.stage z = x at hstep hz
  cases hstep with
  | stays => exact Or.inl hz
  | finds hc hcur hpc =>
      obtain rfl := Option.some.inj hz
      exact Or.inr ⟨hc, hcur, hpc⟩
  | sleeps h =>
      rw [h]
      exact Or.inl hz
  | leaves | exits | asks | locks => cases hz

/-- Only `my_pthread_mutex_lock` lets a thread wait for a mutex. -/
theorem Moves.locking (hm : Moves s c s' e) {z m : Nat} (hz : s'.stage z = .locking m) :
    s.stage z = .locking m ∨ c = .call (.lock (some m)) := by
  have hstep := hm.stageStep z
  generalize s'.stage z = x at hstep hz
  cases hstep with
  | stays => exact Or.inl hz
  | locks hc =>
      obtain rfl := Stage.locking.inj hz
      exact Or.inr hc
  | leaves | exits | asks | finds | sleeps => cases hz

/-- A thread is born when it is created. -/
theorem Moves.born_back {t : Nat} (hm : Moves s c s' e) (hinv : Inv s)
    (hnew : e ≠ .creates t) (hborn : s'.stage t ≠ .unborn) : s.stage t ≠ .unborn := by
  obtain ⟨r, hr, hrborn, _⟩ := hinv.running
  have hcur := current_of_running hr
  have hpc : ∀ {u : State} {p : Pc}, u.pc = Function.update s.pc s.current p →
      u.stage t ≠ .unborn → s.stage t ≠ .unborn := by
    intro u p hu hlive
    by_cases htr : t = r
    · rw [htr]
      exact hrborn
    · rw [State.stage, hu, hcur, Function.update_of_ne htr] at hlive
      exact hlive
  have hframe : ∀ {u : State}, schedulerAlarmHandler u = some s' → u.stage t ≠ .unborn := by
    intro u hcall
    rw [State.stage, (schedulerAlarmHandler_frame hcall).pc] at hborn
    exact hborn
  cases hm with
  | alarm hon hcall => exact hframe hcall
  | @starts v res hown =>
      by_cases hinit : s.init = true
      · rw [if_pos hinit] at hborn
        exact hpc rfl hborn
      · by_cases htr : t = r
        · rw [htr]
          exact hrborn
        · rw [if_neg hinit, stage_goto] at hborn
          split at hborn
          case isTrue heq =>
            have hzero : t = 0 := heq
            rw [hzero]
            exact hinv.core.tables.main.1
          case isFalse heq => exact hborn
  | exits hown hr hcall => exact hpc rfl (hframe hcall)
  | signals hpc' hp hcall => exact hpc rfl (hframe hcall)
  | refuses | noMemory | locks | unlocks | hands => exact hborn
  | @destroys m queue armed cont hown hqueue =>
      have hsame : (queue.foldl (fun s w => activate w s) s).pc t = s.pc t :=
        congrFun (activate_pc queue s) t
      rw [State.stage, ← hsame]
      exact hborn
  | @creates v armed cont hpc' =>
      have htv : t ≠ v := by
        intro heq
        exact hnew (heq ▸ rfl)
      by_cases htr : t = r
      · rw [htr]
        exact hrborn
      · rw [State.stage, created_pc, hcur, Function.update_of_ne htr,
          Function.update_of_ne htv] at hborn
        exact hborn
  | yields | enters | queues | waits | quiet | asks | denied | finds => exact hpc rfl hborn
  | isDone | notDone | blocks | finishes | clears | inits | claims | returns =>
      exact hpc rfl hborn

/-- A thread's fields are set, but not its ID. -/
theorem SameTable.setThread {t : Nat} {x : MyPthread}
    (hthread : s'.thread = Function.update s.thread t x) (hid : x.id = (s.thread t).id)
    (htable : s'.threadTable = s.threadTable) : SameTable s s' := by
  refine ⟨htable, ?_⟩
  intro u
  rw [hthread, Function.update_apply]
  split
  case isTrue heq => rw [heq, hid]
  case isFalse heq => rfl

/-- What holds when a step calls the handler. -/
theorem Inv.signalled {u : State} (h : Inv s) (hs : Signalled s c u) : ∃ r, s.running = some r ∧
    u.running = some r ∧ u.stage r ≠ .unborn ∧ Core u ∧ WakeOk r u := by
  cases hs with
  | alarm =>
      obtain ⟨r, hr, hborn, _⟩ := h.running
      exact ⟨r, hr, hr, hborn, h.core, wakeOk_of_alive (h.alive hr).2.2⟩
  | @exit r value hown hr =>
      obtain ⟨hcore, hwake⟩ := h.exitMark hown hr value
      refine ⟨r, hr, hr, ?_, hcore, hwake⟩
      have hcur : (Threads.exitMark r value s).current = r := current_of_running hr
      rw [stage_goto, hcur, if_pos rfl]
      simp [Pc.stage]
  | @signal p p' hpc hp =>
      obtain ⟨r, hr, hborn, _⟩ := h.running
      have hsame : Same s (s.goto p') :=
        Same.of _ s.mutex s.mutexList s.armed s.cont (stage_update hpc (afterSignal_stage hp))
          fun _ _ _ => Iff.rfl
      refine ⟨r, hr, hr, ?_, h.core.same hsame, wakeOk_of_alive (h.alive hr).2.2⟩
      rw [hsame.stage]
      exact hborn

/-- **The handler dispatches** whenever it is called and returns. -/
theorem Inv.dispatches {u : State} (h : Inv s) (hs : Signalled s c u)
    (hcall : schedulerAlarmHandler u = some s') : ∃ r t, s.running = some r ∧
      u.stage r ≠ .unborn ∧ Core u ∧ WakeOk r u ∧ Dispatched r t u s' := by
  obtain ⟨r, hr, hru, hborn, hcore, hwake⟩ := h.signalled hs
  obtain ⟨t, hd⟩ := hcore.dispatched hru hborn hwake hcall
  exact ⟨r, t, hr, hborn, hcore, hwake, hd⟩

/-- A dispatch leaves the IDs and the table alone. -/
theorem SameTable.dispatch {r t : Nat} {u : State} (h : SameTable s u)
    (hd : Dispatched r t u s') : SameTable s s' := by
  refine ⟨hd.frame.threadTable.trans h.table, ?_⟩
  intro v
  rw [hd.serves.id, h.id]

/-- **The IDs, step by step.** -/
theorem Inv.idStep (h : Inv s) (hinit : s.init = true) (hok : Ruled s c) (hm : Moves s c s' e) :
    IdStep s s' e := by
  have hsilent : ∀ {s' : State}, SameTable s s' → IdStep s s' .silent :=
    fun hsame => .other hsame (by simp) (by simp)
  cases hm with
  | alarm hon hcall =>
      obtain ⟨r, t, _, _, _, _, hd⟩ := h.dispatches .alarm hcall
      have hsame : SameTable s s := ⟨rfl, fun _ => rfl⟩
      exact hsilent (hsame.dispatch hd)
  | starts hown =>
      rw [if_pos hinit]
      exact hsilent ⟨rfl, fun _ => rfl⟩
  | refuses | noMemory | locks | unlocks | denied =>
      exact .other ⟨rfl, fun _ => rfl⟩ (by simp) (by simp)
  | yields hown hr => exact hsilent (SameTable.setThread rfl rfl rfl)
  | @exits r value u hown hr hcall =>
      obtain ⟨_, t, _, _, _, _, hd⟩ := h.dispatches (.exit hown hr) hcall
      have hsame : SameTable s ((Threads.exitMark r value s).goto .exited) :=
        SameTable.setThread rfl rfl rfl
      exact .other (hsame.dispatch hd) (by simp) (by simp)
  | enters | queues | asks | finds | isDone | notDone | clears | claims =>
      exact hsilent ⟨rfl, fun _ => rfl⟩
  | waits armed cont hown hr =>
      exact .other (SameTable.setThread rfl rfl rfl) (by simp) (by simp)
  | hands armed cont hown huser hqueue =>
      exact .other (SameTable.setThread rfl rfl rfl) (by simp) (by simp)
  | destroys armed cont hown hqueue =>
      obtain rfl := hok _ hqueue
      exact .other ⟨rfl, fun _ => rfl⟩ (by simp) (by simp)
  | @creates t armed cont hpc =>
      obtain ⟨id, n, l, hget, hid⟩ := h.core.tables.getId (hok.1 t hpc).2
      rw [createThread_eq hget]
      refine .creates hpc hget hid rfl ?_ ?_
      · show (Function.update s.thread t _ t).id = id
        rw [Function.update_self]
      · intro u hu
        show (Function.update s.thread t _ u).id = _
        rw [Function.update_of_ne hu]
  | quiet armed cont hpc hp hp' hnew he =>
      rcases he with rfl | ⟨code, rfl⟩
      · exact hsilent ⟨rfl, fun _ => rfl⟩
      · exact .other ⟨rfl, fun _ => rfl⟩ (by simp) (by simp)
  | blocks armed cont hpc hr => exact hsilent (SameTable.setThread rfl rfl rfl)
  | @signals p p' u hpc hp hcall =>
      obtain ⟨r, t, _, _, _, _, hd⟩ := h.dispatches (.signal hpc hp) hcall
      have hids : SameTable s (s.goto p') := ⟨rfl, fun _ => rfl⟩
      exact hsilent (hids.dispatch hd)
  | finishes armed cont hpc htable hvalue =>
      refine .joins hpc htable rfl ?_ fun _ => rfl
      rw [stage_goto]
      exact if_pos rfl
  | inits list hpc hp => exact .other ⟨rfl, fun _ => rfl⟩ (by simp) (by simp)
  | returns armed cont hpc => exact .other ⟨rfl, fun _ => rfl⟩ (by simp) (by simp)

end Effects

end Threads
