import CS416.Threads.JoinCodes

/-!
# Priorities and levels

A thread enters the ready queues at the level of its priority, and its priority
changes only when it runs.  The handler dispatches from the queue of
`current_priority`, so the running thread has that priority; it keeps it for as
long as the handler resumes it.
-/

namespace Threads

/-- A ready thread is at the level of its priority. -/
def Queued (s : State) : Prop := ∀ p t, IsLevel p → t ∈ s.level p → (s.thread t).priority = p

/-- The priorities and the levels agree. -/
structure Agrees (s : State) : Prop where
  queued : Queued s
  running : ∀ r, s.running = some r → (s.thread r).priority = s.currentPriority

section Agrees

variable {s s' : State} {r t w : Nat} {p p' : Int}

/-- The agreement depends on the queues and the priorities in them only. -/
theorem Queued.congr (h : Queued s) (hlevel : s'.level = s.level)
    (hprio : ∀ t ∈ ready s, (s'.thread t).priority = (s.thread t).priority) : Queued s' := by
  intro p t hp ht
  rw [hlevel] at ht
  rw [hprio t (mem_ready.mpr ⟨p, hp, ht⟩)]
  exact h p t hp ht

/-- A thread is put into the queue of its priority. -/
theorem Queued.enqueue (h : Queued s) (hp : (s.thread t).priority = p) :
    Queued (enqueue t p s) := by
  intro q u hq hu
  show (s.thread u).priority = q
  have hmem : u ∈ Function.update s.level p (s.level p ++ [t]) q := hu
  rw [Function.update_apply] at hmem
  split at hmem
  case isTrue heq =>
    rcases List.mem_append.mp hmem with hmem | hmem
    · exact h q u hq (heq ▸ hmem)
    · obtain rfl := List.mem_singleton.mp hmem
      exact hp.trans heq.symm
  case isFalse heq => exact h q u hq hmem

/-- A thread that is not ready may change. -/
theorem Queued.setThread (h : Queued s) {f : MyPthread → MyPthread} (hout : t ∉ ready s) :
    Queued (s.setThread t f) := by
  refine h.congr rfl ?_
  intro u hu
  have hne : u ≠ t := by
    intro heq
    subst heq
    exact hout hu
  show (Function.update s.thread t (f (s.thread t)) u).priority = _
  rw [Function.update_of_ne hne]

/-- So is a thread that is woken. -/
theorem Queued.activate (h : Queued s) (hout : w ∉ ready s) : Queued (activate w s) := by
  refine (h.setThread hout).enqueue ?_
  simp [State.setThread]

/-- The `switch` puts each thread where it belongs. -/
theorem Queued.switch (h : Queued s) (hout : r ∉ ready s) (hwoken : ∀ v ∈ woken r s, v ∉ ready s) :
    Queued (switchStatus r s).1 := by
  unfold switchStatus
  cases hstatus : (s.thread r).status with
  | active =>
      have hcharged := h.setThread (f := fun x =>
        { x with intervalsRun := (s.thread r).intervalsRun + 1 }) hout
      dsimp only
      split
      · exact hcharged
      · exact (hcharged.setThread hout).enqueue rfl
  | yield => exact h.enqueue rfl
  | threadExit =>
      dsimp only
      cases hw : s.waiting (s.thread r).id with
      | none => exact h
      | some w => exact h.activate (hwoken w (by simp [woken, hstatus, hw]))
  | waitThread | waitMutex => exact h

/-- The running thread is resumed at the priority that it has. -/
theorem switchStatus_resumes (h : (switchStatus r s).2 = true) :
    (switchStatus r s).1.running = s.running ∧
      (switchStatus r s).1.currentPriority = s.currentPriority ∧
      ∀ t, ((switchStatus r s).1.thread t).priority = (s.thread t).priority := by
  unfold switchStatus at h ⊢
  cases hstatus : (s.thread r).status with
  | active =>
      rw [hstatus] at h
      dsimp only at h ⊢
      split at h
      case isTrue hlt =>
        rw [if_pos hlt]
        refine ⟨rfl, rfl, ?_⟩
        intro t
        show (Function.update s.thread r _ t).priority = _
        rw [Function.update_apply]
        split
        case isTrue heq => rw [heq]
        case isFalse heq => rfl
      case isFalse hlt => cases h
  | threadExit =>
      rw [hstatus] at h
      dsimp only at h
      split at h <;> cases h
  | yield | waitThread | waitMutex =>
      rw [hstatus] at h
      cases h

/-- **The loop dispatches a thread of the current level.** -/
theorem findThread_agrees {n : Nat} (h : Queued s) (hp : IsLevel s.currentPriority)
    (hfind : findThread n s = some s') : Agrees s' := by
  induction n generalizing s with
  | zero => cases hfind
  | succ n ih =>
      unfold findThread getNext at hfind
      cases hlevel : s.level s.currentPriority with
      | nil =>
          rw [hlevel] at hfind
          have hnext : Queued (nextLevel s) := h.congr rfl fun _ _ => rfl
          exact ih hnext (isLevel_next hp) hfind
      | cons t rest =>
          rw [hlevel] at hfind
          obtain rfl := Option.some.inj hfind
          constructor
          · intro q u hq hu
            have hmem : u ∈ Function.update s.level s.currentPriority rest q := hu
            rw [Function.update_apply] at hmem
            split at hmem
            case isTrue heq =>
              apply h q u hq
              rw [heq, hlevel]
              exact List.mem_cons_of_mem t hmem
            case isFalse heq => exact h q u hq hmem
          · intro v hv
            obtain rfl := Option.some.inj hv
            apply h _ t hp
            rw [hlevel]
            exact List.mem_cons_self

/-- **The handler keeps the agreement.** -/
theorem Agrees.handler (h : Agrees s) (hr : s.running = some r) (hout : r ∉ ready s)
    (hwoken : ∀ v ∈ woken r s, v ∉ ready s) (hp : IsLevel s.currentPriority)
    (hcall : schedulerAlarmHandler s = some s') : Agrees s' := by
  have hpaused : Queued s.pauseTimer := h.queued.congr rfl fun _ _ => rfl
  have hqueued : Queued (switchStatus r s.pauseTimer).1 := hpaused.switch hout hwoken
  have hcur : (switchStatus r s.pauseTimer).1.currentPriority = s.currentPriority :=
    switchStatus_current r s.pauseTimer
  have hresumes := switchStatus_resumes (r := r) (s := s.pauseTimer)
  unfold schedulerAlarmHandler at hcall
  rw [hr] at hcall
  dsimp only at hcall
  generalize switchStatus r s.pauseTimer = out at hcall hqueued hcur hresumes
  split at hcall
  case isTrue hresume =>
    obtain rfl := Option.some.inj hcall
    obtain ⟨hrun, hcurrent, hprio⟩ := hresumes hresume
    refine ⟨hqueued.congr rfl fun _ _ => rfl, ?_⟩
    intro v hv
    have hv' : s.running = some v := hrun.symm.trans hv
    exact (hprio v).trans ((h.running v hv').trans hcurrent.symm)
  case isFalse hresume =>
    obtain ⟨u, hfind, rfl⟩ := Option.map_eq_some_iff.mp hcall
    have hrange : IsLevel out.1.currentPriority := by
      rw [hcur]
      exact hp
    obtain ⟨_, hthread, hlevel, _⟩ := updateCounters_spec hrange
    have hnext : Queued (updateCounters out.1) := by
      refine hqueued.congr ?_ fun t _ => by rw [hthread]
      unfold updateCounters
      split <;> rfl
    have hfound := findThread_agrees hnext hlevel hfind
    exact ⟨hfound.queued.congr rfl fun _ _ => rfl, hfound.running⟩

/-- Nothing changes that the agreement is about. -/
theorem Agrees.same (h : Agrees s) (hlevel : s'.level = s.level)
    (hrun : s'.running = s.running) (hcur : s'.currentPriority = s.currentPriority)
    (hprio : ∀ t, (s'.thread t).priority = (s.thread t).priority) : Agrees s' := by
  refine ⟨h.queued.congr hlevel fun t _ => hprio t, ?_⟩
  intro r hr
  rw [hprio, hcur]
  rw [hrun] at hr
  exact h.running r hr

/-- One thread changes, but not its priority. -/
theorem Agrees.thread {x : MyPthread} (h : Agrees s)
    (hthread : s'.thread = Function.update s.thread t x) (hx : x.priority = (s.thread t).priority)
    (hlevel : s'.level = s.level) (hrun : s'.running = s.running)
    (hcur : s'.currentPriority = s.currentPriority) : Agrees s' := by
  apply h.same hlevel hrun hcur
  intro u
  rw [hthread, Function.update_apply]
  split
  case isTrue heq => rw [heq, hx]
  case isFalse heq => rfl

/-- No other thread than the running one is interrupted, and it is not ready. -/
theorem Inv.running_out (h : Inv s) (hr : s.running = some r) :
    r ∉ ready s ∧ (s.thread r).status ≠ .threadExit := by
  constructor
  · intro hmem
    exact (h.core.queues.ready r hmem).1 hr
  · exact (h.alive hr).2.2

private theorem woken_of_alive (h : (s.thread r).status ≠ .threadExit) : woken r s = [] := by
  unfold woken
  cases hstatus : (s.thread r).status <;> simp_all

/-- **Each step keeps the agreement.** -/
theorem Agrees.step {c : Action} {e : Event} (h : Agrees s) (hinv : Inv s)
    (hinit : s.init = true) (hok : Ruled s c) (hm : Moves s c s' e) : Agrees s' := by
  have hcurrent := hinv.core.queues.current
  cases hm with
  | alarm hon hcall =>
      obtain ⟨r, hr, _⟩ := hinv.running
      obtain ⟨hout, halive⟩ := hinv.running_out hr
      refine h.handler hr hout ?_ hcurrent hcall
      rw [woken_of_alive halive]
      exact fun v hv => absurd hv List.not_mem_nil
  | starts hown =>
      rw [if_pos hinit]
      exact h.same rfl rfl rfl fun _ => rfl
  | yields hown hr => exact h.thread rfl rfl rfl rfl rfl
  | @exits r value u hown hr hcall =>
      obtain ⟨hout, halive⟩ := hinv.running_out hr
      have hmark : Agrees ((exitMark r value s).goto .exited) :=
        h.thread rfl rfl rfl rfl rfl
      refine hmark.handler hr hout ?_ hcurrent hcall
      intro v hv hready
      obtain ⟨hcore, hwake⟩ := hinv.exitMark hown hr value
      exact (hcore.queues.ready v hready).2.2.ne (by simp) (hwake v hv).1
  | waits armed cont hown hr => exact h.thread rfl rfl rfl rfl rfl
  | @hands m w rest armed cont hown huser hqueue =>
      have hwait := ((hinv.core.queues.queue m _ hqueue).2 w List.mem_cons_self).2
      have hout : w ∉ ready s :=
        fun hmem => (hinv.core.queues.ready w hmem).2.2.ne (by simp) hwait
      have hmutex : Queued (s.setMutex m { waiting := some rest, user := some w }) :=
        h.queued.congr rfl fun _ _ => rfl
      have hwoken : Agrees (s.setThread w fun x => { x with status := .active }) :=
        h.thread rfl rfl rfl rfl rfl
      exact ⟨(hmutex.activate hout).congr rfl fun _ _ => rfl, hwoken.running⟩
  | destroys armed cont hown hqueue =>
      obtain rfl := hok _ hqueue
      exact h.same rfl rfl rfl fun _ => rfl
  | @creates t armed cont hpc =>
      obtain ⟨hspare, hleft⟩ := hok.1 t hpc
      obtain ⟨id, n, l, hget, _⟩ := hinv.core.tables.getId hleft
      obtain ⟨hnot, hout, _⟩ := hinv.spare hspare
      rw [createThread_eq hget]
      have hnew : Queued (s.setThread t fun _ =>
          { id := id, waitId := -1, priority := 0, intervalsRun := 0, ret := 0
            status := .active }) := h.queued.setThread hout
      constructor
      · have hin := hnew.enqueue (t := t) (p := 0) (by simp [State.setThread])
        exact hin.congr rfl fun _ _ => rfl
      · intro r hr
        have hrt : r ≠ t := by
          intro heq
          exact hnot (heq ▸ hr)
        show (Function.update s.thread t _ r).priority = s.currentPriority
        rw [Function.update_of_ne hrt]
        exact h.running r hr
  | blocks armed cont hpc hr => exact h.thread rfl rfl rfl rfl rfl
  | @signals p p' u hpc hp hcall =>
      obtain ⟨r, hr, _⟩ := hinv.running
      obtain ⟨hout, halive⟩ := hinv.running_out hr
      have hmove : Agrees (s.goto p') := h.same rfl rfl rfl fun _ => rfl
      refine hmove.handler hr hout ?_ hcurrent hcall
      have hnone : woken r (s.goto p') = [] := woken_of_alive halive
      rw [hnone]
      exact fun v hv => absurd hv List.not_mem_nil
  | refuses | enters | noMemory | queues | locks | unlocks =>
      exact h.same rfl rfl rfl fun _ => rfl
  | quiet | asks | denied | finds | isDone | notDone | finishes =>
      exact h.same rfl rfl rfl fun _ => rfl
  | clears | inits | claims | returns => exact h.same rfl rfl rfl fun _ => rfl

/-- The first call of the library starts with the agreement. -/
theorem Before.agrees {c : Action} {e : Event} (h : Before s) (hinit : s.init = false)
    (hm : Moves s c s' e) (hon : s'.init = true) : Agrees s' := by
  rcases hm.init_or with heq | ⟨t, res, rfl⟩
  · rw [heq, hinit] at hon
    cases hon
  · rw [hinit, if_neg Bool.false_ne_true]
    constructor
    · intro p u _ hu
      cases hu
    · intro r hr
      obtain rfl := Option.some.inj hr
      exact h.current.symm

/-- The slice test. -/
theorem switchStatus_slice (hactive : (s.thread r).status = .active) :
    (switchStatus r s).2 = true ↔ (s.thread r).intervalsRun < s.currentPriority := by
  unfold switchStatus
  rw [hactive]
  dsimp only
  split
  case isTrue hlt => exact ⟨fun _ => hlt, fun _ => rfl⟩
  case isFalse hlt => exact ⟨fun h => absurd h Bool.false_ne_true, fun h => absurd h hlt⟩

/-- The agreement holds from `scheduler_init` on. -/
theorem agrees_of_reached {a : World} (h : Reached Rules a) :
    a.state.init = true → Agrees a.state := by
  apply h.invariant (I := fun a => a.state.init = true → Agrees a.state)
  · intro b hb hinit
    rw [hb.1.init] at hinit
    cases hinit
  · intro b c d hb ih hstep hinit
    have hgood := good_of_reached (fun _ _ h => h) hb
    obtain ⟨s, e, hexec, rfl⟩ := hstep.2
    have hm := exec_moves hexec
    cases hon : b.state.init with
    | true => exact (ih hon).step (hgood.after hon) hon hstep.1 hm
    | false => exact (hgood.before hon).agrees hon hm hinit

end Agrees

/-- **Priorities and levels agree** in every state of a program that follows the rules; so the
slice test uses the priority of the running thread. -/
theorem priorities_agree {a : World} (h : Reached Rules a) (hinit : a.state.init = true) :
    ∃ r, a.state.running = some r ∧ r ∉ ready a.state ∧ (ready a.state).Nodup ∧
      (∀ p t, IsLevel p → t ∈ a.state.level p → (a.state.thread t).priority = p) ∧
      (a.state.thread r).priority = a.state.currentPriority ∧
      0 ≤ a.state.currentPriority ∧ a.state.currentPriority < numPriority ∧
      ((a.state.thread r).status = .active →
        ((switchStatus r a.state.pauseTimer).2 = true ↔
          (a.state.thread r).intervalsRun < (a.state.thread r).priority)) := by
  have hinv := (good_of_reached (fun _ _ h => h) h).after hinit
  have hagrees := agrees_of_reached h hinit
  obtain ⟨r, hr, _⟩ := hinv.running
  obtain ⟨hlow, hhigh⟩ := hinv.core.queues.current
  have hown := hagrees.running r hr
  refine ⟨r, hr, (hinv.running_out hr).1, hinv.core.queues.nodup, hagrees.queued, hown, hlow,
    hhigh, ?_⟩
  intro hactive
  rw [hown]
  exact switchStatus_slice (s := a.state.pauseTimer) hactive

section Levels

variable {s s' : State}

/-- A step that joins nothing, touches no mutex, and creates a thread only with an object that was
never used, while entry 999 of `thread_table` is free. -/
def obeys (s : State) : Action → Bool
  | .call (.join _ _) | .call (.mutexInit _ _) | .call (.destroy _) => false
  | .advance =>
    match s.pc s.current with
    | .creating t .available => decide (t ≠ 0 ∧ s.pc t = .unborn ∧ s.threadTable 999 = none)
    | .joinTable _ => false
    | _ => true
  | _ => true

private theorem rules_of_obeys {c : Action} {hist : List (Nat × Event)} (h : obeys s c = true) :
    Rules ⟨s, hist⟩ c := by
  cases c with
  | alarm => trivial
  | call c =>
      cases c with
      | join | mutexInit | destroy => cases h
      | _ => trivial
  | advance =>
      refine ⟨?_, ?_⟩
      · intro t hpc
        unfold obeys at h
        dsimp only at h hpc
        rw [hpc] at h
        obtain ⟨hmain, hunborn, hfree⟩ := of_decide_eq_true h
        exact ⟨⟨hmain, Or.inl (congrArg Pc.stage hunborn)⟩, 999, by decide, by decide, hfree⟩
      · intro j hpc
        unfold obeys at h
        dsimp only at h hpc
        rw [hpc] at h
        cases h

/-- Threads 1, 2 and 3 are created; threads 2 and 3 use up their time at level 0, the others give
way, and thread 3 runs at level 1 until its time is used up again. -/
def climbing : List Action :=
  [.call (.create 1 .available), .advance, .call (.create 2 .available), .advance,
    .call (.create 3 .available), .advance, .call .yield, .advance, .call .yield, .advance, .alarm,
    .call .yield, .advance, .alarm, .call .yield, .advance, .alarm, .alarm, .alarm]

/-- Thread 3 runs at level 2, thread 2 is ready at level 1, and the others are at level 0. -/
theorem priorities_agree_climbed : ∃ s, s.level 0 = [1, 0] ∧ s.level 1 = [2] ∧
    s.running = some 3 ∧ s.currentPriority = 2 ∧ 3 ∉ ready s ∧ (ready s).Nodup ∧
    (s.thread 3).priority = 2 ∧ (s.thread 2).priority = 1 := by
  have hsome : (runs climbing blankWorld.state).map (fun s => decide (s.init = true ∧
      s.level 0 = [1, 0] ∧ s.level 1 = [2] ∧ s.running = some 3 ∧ s.currentPriority = 2)) =
      some true := by
    decide +kernel
  have hall : allowed obeys climbing blankWorld.state = true := by decide +kernel
  obtain ⟨s, hruns, hsees⟩ := Option.map_eq_some_iff.mp hsome
  obtain ⟨hinit, hzero, hone, hrun, hcurrent⟩ := of_decide_eq_true hsees
  obtain ⟨hist, hreach⟩ := visited_blank.allowed (fun _ _ _ _ => rules_of_obeys) hall hruns
  obtain ⟨r, hr, hout, hnodup, hlevel, hown, _⟩ := priorities_agree hreach hinit
  obtain rfl := Option.some.inj (hrun.symm.trans hr)
  refine ⟨s, hzero, hone, hrun, hcurrent, hout, hnodup, hown.trans hcurrent, ?_⟩
  refine hlevel 1 2 ⟨by decide, by decide⟩ ?_
  rw [show (World.state ⟨s, hist⟩).level 1 = s.level 1 from rfl, hone]
  exact List.mem_singleton_self 2

/-- No thread is joined by two threads: `joiner` says by which one each is joined.  There are
fewer than `THREAD_LIM` threads, with objects that were never used. -/
def JoinedByOne (joiner : Nat → Nat) (a : World) : Action → Prop
  | .call (.join t _) => a.state.stage t ≠ .unborn ∧ a.state.current = joiner t
  | .call (.mutexInit m _) | .call (.destroy m) => NoWaiter m a.state
  | .advance => ∀ t, a.state.pc a.state.current = .creating t .available →
      t ≠ 0 ∧ (t : Int) < threadLim - 1 ∧ a.state.stage t = .unborn
  | _ => True

/-- Steps between the joins. -/
def joinsNothing (s : State) : Action → Bool
  | .call (.join _ _) | .call (.mutexInit _ _) | .call (.destroy _) => false
  | .advance =>
    match s.pc s.current with
    | .creating t .available => decide (t ≠ 0 ∧ t < 999 ∧ s.pc t = .unborn)
    | _ => true
  | _ => true

private theorem joinedByOne_of_nothing {joiner : Nat → Nat} {c : Action} {hist : List (Nat × Event)}
    (h : joinsNothing s c = true) : JoinedByOne joiner ⟨s, hist⟩ c := by
  cases c with
  | alarm => trivial
  | call c =>
      cases c with
      | join | mutexInit | destroy => cases h
      | _ => trivial
  | advance =>
      intro t hpc
      unfold joinsNothing at h
      dsimp only at h hpc
      rw [hpc] at h
      obtain ⟨hmain, hlim, hunborn⟩ := of_decide_eq_true h
      exact ⟨hmain, by simp only [threadLim]; omega, congrArg Pc.stage hunborn⟩

/-- A join by the right thread whose scan finds nothing, and steps without another join. -/
def joinsThen (joiner : Nat → Nat) (t : Nat) (calls : List Action) (s : State) : Option State :=
  if s.pc t ≠ .unborn ∧ s.current = joiner t then
    (scanned t false s).bind fun u =>
      if allowed joinsNothing calls u then runs calls u else none
  else none

/-- A join by the right thread, and steps without another one. -/
theorem Visited.joinsThen {joiner : Nat → Nat} {t : Nat} {calls : List Action}
    (h : Visited (JoinedByOne joiner) s)
    (hjoins : Threads.joinsThen joiner t calls s = some s') : Visited (JoinedByOne joiner) s' := by
  unfold Threads.joinsThen at hjoins
  split at hjoins
  case isFalse => cases hjoins
  case isTrue hright =>
    obtain ⟨u, hscanned, hrest⟩ := Option.bind_eq_some_iff.mp hjoins
    split at hrest
    case isFalse => cases hrest
    case isTrue hall =>
      have hborn : s.stage t ≠ .unborn := by
        intro hunborn
        cases hpc : s.pc t with
        | unborn => exact hright.1 hpc
        | _ => simp [State.stage, hpc, Pc.stage] at hunborn
      have hvisit : Visited (JoinedByOne joiner) u := by
        refine h.scanned (fun _ _ => ⟨hborn, hright.2⟩) ?_ hscanned
        intro v j i hist hpc t ht
        cases hpc.symm.trans ht
      exact hvisit.allowed (fun _ _ _ _ => joinedByOne_of_nothing) hall hrest

end Levels

/-- Thread 1 joins what it joins, and `main` the others. -/
def joiner (t : Nat) : Nat := if t = 2 then 1 else 0

/-- Thread 1 is created, and thread 2, which exits. -/
def leaving : List Action :=
  [.call (.create 1 .available), .advance, .call (.create 2 .available), .advance,
    .call .yield, .advance, .call .yield, .advance, .call (.exit 7), .call .yield, .advance]

/-- From the scan of each join on.  Thread 1 joins thread 2 and `main` creates thread 3, which gets
its ID; `main` joins thread 3, which exits; thread 1 joins thread 2 again and creates thread 4,
`main` returns from its join and creates thread 5, both with that ID; `main` joins thread 5, and
both of them exit. -/
def joinedAgain (s : State) : Option State :=
  (((joinsThen joiner 2 [.advance, .advance, .advance, .call .yield, .advance,
      .call (.create 3 .available), .advance] s).bind
    (joinsThen joiner 3 [.advance, .advance, .advance, .advance, .call .yield, .advance,
      .call (.exit 8)])).bind
    (joinsThen joiner 2 [.advance, .advance, .advance, .call (.create 4 .available), .advance,
      .call .yield, .advance, .advance, .call (.create 5 .available), .advance])).bind
    (joinsThen joiner 5 [.advance, .advance, .advance, .advance, .call (.exit 9), .call .yield,
      .advance, .call (.exit 10)])

/-- `main` is woken by thread 4 and by thread 5, and runs while it is ready. -/
theorem running_while_ready : ¬ ∀ joiner a, Reached (JoinedByOne joiner) a →
    a.state.init = true → ∀ r, a.state.running = some r → r ∉ ready a.state := by
  intro hclaim
  have hsome : ((runs leaving blankWorld.state).bind joinedAgain).map (fun s =>
      decide (s.init = true ∧ s.running = some 0 ∧ s.level 0 = [1, 0])) = some true := by
    decide +kernel
  have hleaving : allowed joinsNothing leaving blankWorld.state = true := by decide +kernel
  obtain ⟨s, hruns, hsees⟩ := Option.map_eq_some_iff.mp hsome
  obtain ⟨hinit, hrun, hlevel⟩ := of_decide_eq_true hsees
  obtain ⟨s₁, hfirst, hlast⟩ := Option.bind_eq_some_iff.mp hruns
  obtain ⟨s₄, hrest, hfourth⟩ := Option.bind_eq_some_iff.mp hlast
  obtain ⟨s₃, hrest, hthird⟩ := Option.bind_eq_some_iff.mp hrest
  obtain ⟨s₂, hjoins, hsecond⟩ := Option.bind_eq_some_iff.mp hrest
  have hvisit : Visited (JoinedByOne joiner) s₁ :=
    visited_blank.allowed (fun _ _ _ _ => joinedByOne_of_nothing) hleaving hfirst
  obtain ⟨hist, hreach⟩ :=
    (((hvisit.joinsThen hjoins).joinsThen hsecond).joinsThen hthird).joinsThen hfourth
  have hout := hclaim joiner ⟨s, hist⟩ hreach hinit 0 hrun
  refine hout (mem_ready.mpr ⟨0, ⟨by decide, by decide⟩, ?_⟩)
  rw [show (World.state ⟨s, hist⟩).level 0 = s.level 0 from rfl, hlevel]
  simp

end Threads
