import CS416.Threads.Effects
import CS416.Threads.Timer

/-!
# Refused mutex calls

`my_pthread_mutex_init` puts a new queue into the mutex before its first test, so
a refused call loses the threads that wait.  The other refusals come before
anything is changed.
-/

namespace Threads

/-- The threads that wait for the mutex, first one first. -/
def queueOf (m : Nat) (s : State) : List Nat := (s.mutex m).waiting.getD []

/-- What a refused call on the mutex should leave as it is. -/
structure Untouched (m : Nat) (s s' : State) : Prop where
  owner : (s'.mutex m).user = (s.mutex m).user
  queue : queueOf m s' = queueOf m s
  status : ∀ t, (s'.thread t).status = (s.thread t).status
  level : s'.level = s.level
  mutexList : s'.mutexList = s.mutexList

/-- The calls on the mutex `m`; `my_pthread_mutex_lock` may also get no mutex. -/
def Call.On (m : Nat) : Call → Prop
  | .mutexInit m' _ | .unlock m' | .destroy m' => m' = m
  | .lock o => o = none ∨ o = some m
  | _ => False

/-- The rest of a call of the thread `r` that is refused, with its own steps.  In between there
may be alarms and steps of other threads. -/
inductive Refused (r : Nat) : State → List (State × State) → Prop
  | fails {s s' : State} {code : Code} (hr : s.current = r)
      (h : advance s = some (s', .fails code)) : Refused r s [(s, s')]
  | goesOn {s s' : State} {steps : List (State × State)} (hr : s.current = r)
      (h : advance s = some (s', .silent)) (hrest : Refused r s' steps) :
      Refused r s ((s, s') :: steps)
  | meanwhile {s s' : State} {c : Action} {e : Event} {steps : List (State × State)}
      (hother : s.current ≠ r ∨ c = .alarm) (h : exec s c = some (s', e))
      (hrest : Refused r s' steps) : Refused r s steps

/-- The running thread makes the call, and it is refused. -/
inductive Refuses (c : Call) (s : State) : List (State × State) → Prop
  | atOnce {s' : State} {code : Code} (h : exec s (.call c) = some (s', .fails code)) :
      Refuses c s [(s, s')]
  | later {s' : State} {steps : List (State × State)} (h : exec s (.call c) = some (s', .silent))
      (hrest : Refused s.current s' steps) : Refuses c s ((s, s') :: steps)

/-- The steps follow each other without anything in between. -/
inductive Straight : State → List (State × State) → State → Prop
  | nil (s : State) : Straight s [] s
  | cons {s s' t : State} {steps : List (State × State)} (hrest : Straight s' steps t) :
      Straight s ((s, s') :: steps) t

/-- The condition: a mutex is initialised while no thread waits for it. -/
def NoneLost (m : Nat) (c : Call) (s : State) : Prop :=
  ∀ memory, c = .mutexInit m memory → queueOf m s = []

/-- Where `my_pthread_mutex_init` is not refused any more. -/
inductive Accepted (m : Nat) : Pc → Prop
  | own : Accepted m .own
  | user : Accepted m (.initUser m)
  | add (i : Nat) : Accepted m (.initAdd m i)
  | store (i : Nat) : Accepted m (.initStore m i)

/-- Before the scheduler starts there is no running thread. -/
def Unstarted (s : State) : Prop := s.init = false → s.running = none

section Refusals

variable {s s' u : State} {m r : Nat} {c : Action} {e : Event}

private theorem Moves.unstarted (hm : Moves s c s' e) (h : Unstarted s) : Unstarted s' := by
  intro hoff
  have hinit : s.init = false := by
    by_contra hon
    rw [hm.init (Bool.not_eq_false _ ▸ hon)] at hoff
    cases hoff
  have hnone := h hinit
  have hsilent : ∀ {u : State}, u.running = none → schedulerAlarmHandler u ≠ some s' := by
    intro u hu hcall
    unfold schedulerAlarmHandler at hcall
    rw [hu] at hcall
    cases hcall
  cases hm with
  | alarm hon hcall => exact absurd hcall (hsilent hnone)
  | starts hown =>
      rw [hinit, if_neg Bool.false_ne_true] at hoff
      cases hoff
  | exits hown hr hcall => exact absurd hcall (hsilent hnone)
  | signals hpc hp hcall => exact absurd hcall (hsilent hnone)
  | @destroys m queue armed cont hown hqueue =>
      exact (activate_all (f := State.running) (fun _ _ => rfl) queue s).trans hnone
  | @creates t armed cont hpc => exact (createThread_running t s).trans hnone
  | hands => exact hnone
  | refuses | noMemory | locks | unlocks | yields | enters | queues | waits => exact hnone
  | quiet | asks | denied | finds | isDone | notDone | blocks | finishes => exact hnone
  | clears | inits | claims | returns => exact hnone

/-- Before the library runs there is one thread. -/
theorem unstarted_of_reached {ok : World → Action → Prop} {a : World} (h : Reached ok a) :
    Unstarted a.state := by
  apply h.invariant (I := fun a => Unstarted a.state)
  · intro b hb _
    exact hb.1.running
  · intro b c d _ hb hstep
    obtain ⟨s, e, hexec, rfl⟩ := hstep.2
    exact (exec_moves hexec).unstarted hb

/-- A thread that makes no step of its own stays where it is, or is created anew. -/
theorem Moves.pc_other (hm : Moves s c s' e) (h : Unstarted s)
    (hother : s.current ≠ r ∨ c = .alarm) : s'.pc r = s.pc r ∨ s'.pc r = .own := by
  have hpc : c ≠ .alarm → ∀ {u : State} {p : Pc}, u.pc = Function.update s.pc s.current p →
      u.pc r = s.pc r := by
    intro hc u p hu
    rw [hu, Function.update_of_ne]
    exact fun heq => (hother.resolve_right hc) heq.symm
  have hframe : ∀ {u : State}, schedulerAlarmHandler u = some s' → s'.pc r = u.pc r := by
    intro u hcall
    rw [(schedulerAlarmHandler_frame hcall).pc]
  cases hm with
  | alarm hon hcall => exact Or.inl (hframe hcall)
  | @starts t res hown =>
      left
      by_cases hinit : s.init = true
      · rw [if_pos hinit]
        exact hpc (by simp) rfl
      · have hzero : s.current = 0 := by
          rw [State.current, h (Bool.not_eq_true _ ▸ hinit)]
          rfl
        rw [if_neg hinit]
        have hself : ((schedulerInit s).goto (.creating t res)).pc =
            Function.update s.pc s.current (.creating t res) := by
          rw [hzero]
          rfl
        exact hpc (by simp) hself
  | exits hown hr hcall => exact Or.inl ((hframe hcall).trans (hpc (by simp) rfl))
  | signals hpc' hp hcall => exact Or.inl ((hframe hcall).trans (hpc (by simp) rfl))
  | refuses | noMemory | locks | unlocks | hands => exact Or.inl rfl
  | @destroys m queue armed cont hown hqueue => exact Or.inl (congrFun (activate_pc queue s) r)
  | @creates v armed cont hpc' =>
      rw [created_pc, Function.update_apply]
      split
      · exact Or.inr rfl
      · rw [Function.update_apply]
        split
        · exact Or.inr rfl
        · exact Or.inl rfl
  | yields | enters | queues | waits => exact Or.inl (hpc (by simp) rfl)
  | quiet | asks | denied | finds => exact Or.inl (hpc (by simp) rfl)
  | isDone | notDone | blocks | finishes => exact Or.inl (hpc (by simp) rfl)
  | clears | inits | claims | returns => exact Or.inl (hpc (by simp) rfl)

/-- A step within a call leaves the mutexes alone. -/
theorem Untouched.goto (m : Nat) (s : State) (p : Pc) : Untouched m s (s.goto p) :=
  ⟨rfl, rfl, fun _ => rfl, rfl, rfl⟩

private theorem goto_at (s : State) (p : Pc) :
    (s.goto p).pc s.current = p := Function.update_self ..

/-- After its scan `my_pthread_mutex_init` only ends with success. -/
theorem Accepted.advance (hpc : Accepted m (s.pc s.current)) (h : advance s = some (s', e)) :
    e = .inits m ∨ e = .silent ∧ Accepted m (s'.pc s.current) := by
  unfold Threads.advance at h
  generalize hp : s.pc s.current = p at hpc h
  cases hpc with
  | own => cases h
  | user =>
      obtain ⟨rfl, rfl⟩ := Prod.mk.inj (Option.some.inj h)
      right
      refine ⟨rfl, ?_⟩
      have hat := goto_at (s.setMutex m { s.mutex m with user := none }) (.initAdd m 0)
      rw [show (s.setMutex m { s.mutex m with user := none }).current = s.current from rfl] at hat
      rw [hat]
      exact .add 0
  | add i =>
      dsimp only [initAdd] at h
      split at h
      · split at h
        · obtain ⟨rfl, rfl⟩ := Prod.mk.inj (Option.some.inj h)
          rw [goto_at]
          exact Or.inr ⟨rfl, .store i⟩
        · obtain ⟨rfl, rfl⟩ := Prod.mk.inj (Option.some.inj h)
          rw [goto_at]
          exact Or.inr ⟨rfl, .add (i + 1)⟩
      · obtain ⟨rfl, rfl⟩ := Prod.mk.inj (Option.some.inj h)
        exact Or.inl rfl
  | store i =>
      obtain ⟨rfl, rfl⟩ := Prod.mk.inj (Option.some.inj h)
      exact Or.inl rfl

/-- A round of the scan changes nothing that is looked at. -/
theorem scan_untouched {i : Nat} (hpc : s.pc s.current = .initScan m i)
    (h : advance s = some (s', e)) : Untouched m s s' ∧
      (s'.pc s.current = .initScan m (i + 1) ∨ Accepted m (s'.pc s.current)) := by
  unfold advance at h
  rw [hpc] at h
  dsimp only [initScan] at h
  split at h
  · split at h
    · obtain ⟨rfl, rfl⟩ := Prod.mk.inj (Option.some.inj h)
      refine ⟨Untouched.goto m s _, Or.inr ?_⟩
      rw [goto_at]
      exact .own
    · obtain ⟨rfl, rfl⟩ := Prod.mk.inj (Option.some.inj h)
      exact ⟨Untouched.goto m s _, Or.inl (goto_at s _)⟩
  · obtain ⟨rfl, rfl⟩ := Prod.mk.inj (Option.some.inj h)
    refine ⟨Untouched.goto m s _, Or.inr ?_⟩
    rw [goto_at]
    exact .user

private theorem Refused.not_accepted {steps : List (State × State)} (h : Refused r s steps)
    (hstart : Unstarted s) : ¬ Accepted m (s.pc r) := by
  induction h with
  | @fails s s' code hr h =>
      intro hpc
      rcases Accepted.advance (hr ▸ hpc) h with heq | ⟨heq, _⟩
      · cases heq
      · cases heq
  | @goesOn s s' steps hr h hrest ih =>
      intro hpc
      rcases Accepted.advance (hr ▸ hpc) h with heq | ⟨_, hnext⟩
      · cases heq
      · exact ih ((exec_moves (c := .advance) h).unstarted hstart) (hr ▸ hnext)
  | @meanwhile s s' c e steps hother h hrest ih =>
      intro hpc
      have hm := exec_moves h
      refine ih (hm.unstarted hstart) ?_
      rcases hm.pc_other hstart hother with heq | heq
      · rw [heq]
        exact hpc
      · rw [heq]
        exact .own

/-- **The scan of a refused call** changes nothing. -/
theorem Refused.untouched {steps : List (State × State)} {i : Nat} (h : Refused r s steps)
    (hstart : Unstarted s) (hpc : s.pc r = .initScan m i) :
    ∀ x ∈ steps, Untouched m x.1 x.2 := by
  induction h generalizing i with
  | @fails s s' code hr h =>
      intro x hx
      obtain rfl := List.mem_singleton.mp hx
      exact (scan_untouched (hr ▸ hpc) h).1
  | @goesOn s s' steps hr h hrest ih =>
      obtain ⟨hsame, hnext⟩ := scan_untouched (hr ▸ hpc) h
      have hstart' := (exec_moves (c := .advance) h).unstarted hstart
      intro x hx
      rcases List.mem_cons.mp hx with rfl | hx
      · exact hsame
      · rcases hnext with hscan | hpast
        · exact ih hstart' (hr ▸ hscan) x hx
        · exact absurd (hr ▸ hpast) (hrest.not_accepted hstart')
  | @meanwhile s s' c e steps hother h hrest ih =>
      have hm := exec_moves h
      rcases hm.pc_other hstart hother with heq | heq
      · exact ih (hm.unstarted hstart) (heq.trans hpc)
      · have hown : Accepted m (s'.pc r) := by
          rw [heq]
          exact .own
        exact absurd hown (hrest.not_accepted (hm.unstarted hstart))

/-- One step after another. -/
theorem Untouched.trans (h : Untouched m s u) (h' : Untouched m u s') : Untouched m s s' :=
  ⟨h'.owner.trans h.owner, h'.queue.trans h.queue,
    fun t => (h'.status t).trans (h.status t), h'.level.trans h.level,
    h'.mutexList.trans h.mutexList⟩

private theorem Straight.untouched {steps : List (State × State)} (h : Straight s steps u)
    (hsteps : ∀ x ∈ steps, Untouched m x.1 x.2) : Untouched m s u := by
  induction h with
  | nil s => exact ⟨rfl, rfl, fun _ => rfl, rfl, rfl⟩
  | cons hrest ih =>
      have hfirst := hsteps _ List.mem_cons_self
      exact hfirst.trans (ih fun x hx => hsteps x (List.mem_cons_of_mem _ hx))

/-- The two states are alike. -/
theorem Untouched.symm (h : Untouched m s u) : Untouched m u s :=
  ⟨h.owner.symm, h.queue.symm, fun t => (h.status t).symm, h.level.symm, h.mutexList.symm⟩

/-- The first step decides. -/
theorem untouched_first {rest : List (State × State)} {P : Prop}
    (hfirst : Untouched m s s' ↔ P) (hrest : ∀ x ∈ rest, Untouched m x.1 x.2) :
    ((∀ x ∈ (s, s') :: rest, Untouched m x.1 x.2) ↔ P) ∧
      ∀ u, Straight s ((s, s') :: rest) u → (Untouched m s u ↔ P) := by
  rw [← hfirst]
  refine ⟨⟨fun h => h _ List.mem_cons_self, ?_⟩, ?_⟩
  · intro h x hx
    rcases List.mem_cons.mp hx with rfl | hx
    · exact h
    · exact hrest x hx
  · intro u hstraight
    cases hstraight with
    | cons hgoes =>
        have hlater := hgoes.untouched hrest
        exact ⟨fun h => h.trans hlater.symm, fun h => h.trans hlater⟩

/-- The refusals that come before any change, and the one that comes after. -/
theorem refused_atOnce {c : Call} {code : Code} (hon : c.On m)
    (h : exec s (.call c) = some (s', .fails code)) :
    Untouched m s s' ∧ (∀ memory, c ≠ .mutexInit m memory) ∨ c = .mutexInit m false ∧
      s' = s.setMutex m { s.mutex m with waiting := none } := by
  cases c with
  | mutexInit m' memory =>
      obtain rfl : m' = m := hon
      obtain ⟨_, hcall⟩ := Option.ite_none_right_eq_some.mp h
      cases memory with
      | true => cases (Prod.mk.inj (Option.some.inj hcall)).2
      | false => exact Or.inr ⟨rfl, (Prod.mk.inj (Option.some.inj hcall)).1.symm⟩
  | lock o =>
      cases exec_moves h with
      | refuses => exact Or.inl ⟨⟨rfl, rfl, fun _ => rfl, rfl, rfl⟩, by simp⟩
  | unlock m' =>
      cases exec_moves h with
      | refuses => exact Or.inl ⟨⟨rfl, rfl, fun _ => rfl, rfl, rfl⟩, by simp⟩
  | destroy m' =>
      cases exec_moves h with
      | refuses => exact Or.inl ⟨⟨rfl, rfl, fun _ => rfl, rfl, rfl⟩, by simp⟩
  | create | yield | exit | join => exact hon.elim

/-- Only `my_pthread_mutex_init` goes on after its first step. -/
theorem refused_later {c : Call} (hon : c.On m) (h : exec s (.call c) = some (s', .silent)) :
    c = .mutexInit m true ∧
      s' = (s.setMutex m { s.mutex m with waiting := some [] }).goto (.initScan m 0) := by
  cases exec_moves h with
  | @queues m' hown =>
      obtain rfl : m' = m := hon
      exact ⟨rfl, rfl⟩
  | starts | yields | enters => exact hon.elim

private theorem queueOf_setMutex (x : Mutex) : queueOf m (s.setMutex m x) = x.waiting.getD [] := by
  unfold queueOf State.setMutex
  dsimp only
  rw [Function.update_self]

/-- A new queue is no loss where no thread waits. -/
theorem untouched_setMutex {x : Mutex} (huser : x.user = (s.mutex m).user)
    (hnil : x.waiting.getD [] = []) :
    Untouched m s (s.setMutex m x) ↔ queueOf m s = [] := by
  have hqueue := (queueOf_setMutex (s := s) (m := m) x).trans hnil
  constructor
  · intro h
    rw [← h.queue, hqueue]
  · intro h
    refine ⟨?_, hqueue.trans h.symm, fun _ => rfl, rfl, rfl⟩
    unfold State.setMutex
    dsimp only
    rw [Function.update_self, huser]

private theorem noneLost_init {memory : Bool} :
    NoneLost m (.mutexInit m memory) s ↔ queueOf m s = [] :=
  ⟨fun h => h memory rfl, fun h _ _ => h⟩

end Refusals

/-- **Refused mutex calls** leave the owner, the queue, the statuses, the ready queues and
`mutex_list` as they are exactly where none is lost: in each step of the call, and from before to
after it if nothing comes in between. -/
theorem refused_untouched {a : World} (h : Reached (fun _ _ => True) a) {m : Nat} {c : Call}
    {steps : List (State × State)} (hon : c.On m) (href : Refuses c a.state steps) :
    ((∀ x ∈ steps, Untouched m x.1 x.2) ↔ NoneLost m c a.state) ∧
      ∀ s, Straight a.state steps s → (Untouched m a.state s ↔ NoneLost m c a.state) := by
  cases href with
  | @atOnce s' code hexec =>
      apply untouched_first _ (by simp)
      rcases refused_atOnce hon hexec with ⟨hsame, hother⟩ | ⟨rfl, rfl⟩
      · exact ⟨fun _ memory heq => absurd heq (hother memory), fun _ => hsame⟩
      · rw [noneLost_init]
        exact untouched_setMutex rfl rfl
  | @later s' steps hexec hrest =>
      obtain ⟨rfl, rfl⟩ := refused_later hon hexec
      have hstart := (exec_moves hexec).unstarted (unstarted_of_reached h)
      apply untouched_first _ (hrest.untouched hstart (goto_at _ _))
      rw [noneLost_init]
      refine Iff.trans ?_ (untouched_setMutex (x := { a.state.mutex m with waiting := some [] })
        rfl rfl)
      exact ⟨fun h => h.trans (Untouched.goto m _ _).symm, fun h => h.trans (Untouched.goto m _ _)⟩

private theorem visited_linedUp {s : State} (h : linedUp = some s) :
    Visited (fun _ _ => True) s := by
  obtain ⟨u, hruns, hlast⟩ := Option.bind_eq_some_iff.mp h
  obtain ⟨v, hfirst, hcleared⟩ := Option.bind_eq_some_iff.mp hruns
  exact ((visited_blank.runs hfirst).cleared (fun _ _ => trivial) (fun _ _ _ _ _ => trivial)
    hcleared).runs hlast

/-- Thread 1 waits for the mutex of `main`, and `main` cannot destroy it. -/
theorem refused_untouched_waiter : ∃ b s, queueOf 0 b = [1] ∧
    exec b (.call (.destroy 0)) = some (s, .fails .EBUSY) ∧ Untouched 0 b s := by
  have hsome : linedUp.map (fun b => (queueOf 0 b,
      (exec b (.call (.destroy 0))).map Prod.snd)) = some ([1], some (.fails .EBUSY)) := by
    decide +kernel
  obtain ⟨b, hlined, hseen⟩ := Option.map_eq_some_iff.mp hsome
  obtain ⟨hwaits, hrefused⟩ := Prod.mk.inj hseen
  obtain ⟨⟨s, e⟩, hexec, rfl⟩ := Option.map_eq_some_iff.mp hrefused
  obtain ⟨hist, hreach⟩ := visited_linedUp hlined
  have hon : Call.On 0 (.destroy 0) := rfl
  have hsame := (refused_untouched hreach hon (.atOnce hexec)).1.mpr (fun _ h => by cases h)
  exact ⟨b, s, hwaits, hexec, hsame _ List.mem_cons_self⟩

/-- Thread 1 waits for the mutex of `main`, and `main` initialises it again. -/
theorem init_loses_waiter : ¬ ∀ a, Reached (fun _ _ => True) a → ∀ m c steps, Call.On m c →
    Refuses c a.state steps → ∀ x ∈ steps, Untouched m x.1 x.2 := by
  intro hclaim
  have hsome : linedUp.map (fun b => decide (queueOf 0 b = [1] ∧
      ((exec b (.call (.mutexInit 0 true))).map fun out =>
        (out.2, queueOf 0 out.1, decide (out.1.current = b.current),
          (advance out.1).map Prod.snd)) = some (.silent, [], true, some (.fails .EBUSY)))) =
      some true := by
    decide +kernel
  obtain ⟨b, hlined, hsees⟩ := Option.map_eq_some_iff.mp hsome
  obtain ⟨hist, hreach⟩ := visited_linedUp hlined
  obtain ⟨hwaits, hinit⟩ := of_decide_eq_true hsees
  obtain ⟨⟨s, e⟩, hcall, hout⟩ := Option.map_eq_some_iff.mp hinit
  simp only [Prod.mk.injEq] at hout
  obtain ⟨rfl, hlost, hcur, hbusy⟩ := hout
  obtain ⟨⟨s', e'⟩, hadvance, rfl⟩ := Option.map_eq_some_iff.mp hbusy
  have hrefuses : Refuses (.mutexInit 0 true) b [(b, s), (s, s')] :=
    .later hcall (.fails (of_decide_eq_true hcur) hadvance)
  have hon : Call.On 0 (.mutexInit 0 true) := rfl
  have hsame := hclaim ⟨b, hist⟩ hreach 0 _ _ hon hrefuses _ List.mem_cons_self
  have hqueue := hsame.queue
  rw [hlost, hwaits] at hqueue
  cases hqueue

end Threads
