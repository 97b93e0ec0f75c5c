import CS416.Threads.MutexCalls

/-!
# The life of a mutex

`mutex_list` should hold the mutexes that are initialised and not destroyed
since.  `my_pthread_mutex_destroy` leaves its entry where it is, `scheduler_init`
empties the list, and a mutex that finds it full is not entered.  Apart from
these, and from calls that run into each other, the list is right.
-/

namespace Threads

/-- The mutex was initialised with success and not destroyed since. -/
def live (m : Nat) (history : List (Nat × Event)) : Bool :=
  history.foldl (fun b x => match x.2 with
    | .inits k => if k = m then true else b
    | .destroys k => if k = m then false else b
    | _ => b) false

/-- The mutex has an entry in `mutex_list`. -/
def Registered (m : Nat) (s : State) : Prop := ∃ i ∈ List.range mutexLim, s.mutexList i = some m

instance (m : Nat) (s : State) : Decidable (Registered m s) :=
  inferInstanceAs (Decidable (∃ i ∈ List.range mutexLim, s.mutexList i = some m))

/-- The mutex that a thread is initialising. -/
def Pc.initialises : Pc → Option Nat
  | .initScan m _ | .initUser m | .initAdd m _ | .initStore m _ => some m
  | _ => none

/-- The condition.  The scheduler starts before any mutex is initialised.  A mutex is initialised
again only if it has no entry or was not destroyed, and with memory for its queue if it is in use;
nobody else is initialising it then or when it is destroyed.  A mutex that is entered finds a
place, which stays free until it is taken. -/
def CycleOk (a : World) : Action → Prop
  | .call (.create _ _) => a.state.init = false → ∀ m, live m a.history = false
  | .call (.mutexInit m memory) => (Registered m a.state → live m a.history = true) ∧
      (live m a.history = true → memory = true) ∧ ∀ z, (a.state.pc z).initialises ≠ some m
  | .call (.destroy m) => ∀ z, (a.state.pc z).initialises ≠ some m
  | .advance =>
    (∀ m i, a.state.pc a.state.current = .initAdd m i →
      ∃ k, i ≤ k ∧ k < mutexLim ∧ a.state.mutexList k = none) ∧
    ∀ m i, a.state.pc a.state.current = .initStore m i → a.state.mutexList i = none
  | _ => True

/-- The event with which a call ends that is not interrupted. -/
inductive Returns : State → Event → Prop
  | ends {s s' : State} {e : Event} (h : advance s = some (s', e)) (he : e ≠ .silent) :
      Returns s e
  | goesOn {s s' : State} {e : Event} (h : advance s = some (s', .silent))
      (hrest : Returns s' e) : Returns s e

/-- What `my_pthread_mutex_init(m)` returns when there is memory for the queue. -/
def InitReturns (m : Nat) (s : State) (e : Event) : Prop :=
  ∃ s', exec s (.call (.mutexInit m true)) = some (s', .silent) ∧ Returns s' e

/-- A step that has nothing to do with `mutex_list`. -/
structure Elsewhere (s s' : State) : Prop where
  list : s'.mutexList = s.mutexList
  queue : ∀ m, (s.mutex m).waiting ≠ none → (s'.mutex m).waiting ≠ none
  pc : ∀ z, s'.pc z = s.pc z ∨ (s'.pc z).initialises = none

/-- What a step does to `mutex_list`, and where it is between two changes. -/
inductive ListStep (s : State) : Action → State → Event → Prop
  | elsewhere {c : Action} {s' : State} {e : Event} (h : Elsewhere s s')
      (hinits : ∀ m, e ≠ .inits m) (hdestroys : ∀ m, e ≠ .destroys m)
      (hother : ∀ m, c = .advance → (s.pc s.current).initialises ≠ some m) :
      ListStep s c s' e
  | clears {t : Nat} {res : Resources} {s' : State} (hinit : s.init = false)
      (hlist : s'.mutexList = fun _ => none) (hmutex : s'.mutex = s.mutex)
      (hpc : ∀ z, s'.pc z = s.pc z ∨ (s'.pc z).initialises = none) :
      ListStep s (.call (.create t res)) s' .silent
  | begins {m : Nat} :
      ListStep s (.call (.mutexInit m true))
        ((s.setMutex m { s.mutex m with waiting := some [] }).goto (.initScan m 0)) .silent
  | noMemory {m : Nat} :
      ListStep s (.call (.mutexInit m false)) (s.setMutex m { s.mutex m with waiting := none })
        (.fails .ENOMEM)
  | destroys {m : Nat} {s' : State} (hlist : s'.mutexList = s.mutexList) (hpc : s'.pc = s.pc)
      (hqueue : ∀ k, k ≠ m → (s'.mutex k).waiting = (s.mutex k).waiting) :
      ListStep s (.call (.destroy m)) s' (.destroys m)
  | hits {m i : Nat} (hpc : s.pc s.current = .initScan m i) (hi : i < mutexLim)
      (hentry : s.mutexList i = some m) : ListStep s .advance (s.goto .own) (.fails .EBUSY)
  | misses {m i : Nat} (hpc : s.pc s.current = .initScan m i) (hi : i < mutexLim)
      (hentry : s.mutexList i ≠ some m) : ListStep s .advance (s.goto (.initScan m (i + 1))) .silent
  | scanned {m i : Nat} (hpc : s.pc s.current = .initScan m i) (hi : mutexLim ≤ i) :
      ListStep s .advance (s.goto (.initUser m)) .silent
  | resets {m : Nat} (hpc : s.pc s.current = .initUser m) :
      ListStep s .advance ((s.setMutex m { s.mutex m with user := none }).goto (.initAdd m 0))
        .silent
  | finds {m i : Nat} (hpc : s.pc s.current = .initAdd m i) (hi : i < mutexLim)
      (hentry : s.mutexList i = none) : ListStep s .advance (s.goto (.initStore m i)) .silent
  | taken {m i : Nat} (hpc : s.pc s.current = .initAdd m i) (hi : i < mutexLim)
      (hentry : s.mutexList i ≠ none) : ListStep s .advance (s.goto (.initAdd m (i + 1))) .silent
  | full {m i : Nat} (hpc : s.pc s.current = .initAdd m i) (hi : mutexLim ≤ i) :
      ListStep s .advance (s.goto .own) (.inits m)
  | stores {m i : Nat} (hpc : s.pc s.current = .initStore m i) :
      ListStep s .advance
        ({ s with mutexList := Function.update s.mutexList i (some m) }.goto .own) (.inits m)

/-- What holds of the mutex that a thread at `p` is initialising. -/
def PlaceOk (s : State) (alive : Nat → Bool) : Pc → Prop
  | .initScan m i => (s.mutex m).waiting ≠ none ∧ (∀ k < i, s.mutexList k ≠ some m) ∧
      (Registered m s → alive m = true)
  | .initUser m | .initAdd m _ => (s.mutex m).waiting ≠ none ∧ ¬ Registered m s
  | .initStore m i => (s.mutex m).waiting ≠ none ∧ ¬ Registered m s ∧ i < mutexLim
  | _ => True

/-- The list has an entry for each mutex in use, and each mutex is initialised by one thread. -/
structure Registry (s : State) (alive : Nat → Bool) : Prop where
  entered : ∀ m, alive m = true → Registered m s ∧ (s.mutex m).waiting ≠ none
  alone : ∀ z z' m, (s.pc z).initialises = some m → (s.pc z').initialises = some m → z = z'
  place : ∀ z, PlaceOk s alive (s.pc z)

section Steps

variable {s s' u : State} {m i : Nat} {c : Action} {e : Event} {p : Pc}

/-- The running thread goes on to a place where it initialises nothing. -/
theorem Elsewhere.goto (hlist : s'.mutexList = s.mutexList)
    (hqueue : ∀ m, (s.mutex m).waiting ≠ none → (s'.mutex m).waiting ≠ none) {x : Nat}
    (hpc : s'.pc = Function.update s.pc x p) (hp : p.initialises = none) : Elsewhere s s' := by
  refine ⟨hlist, hqueue, ?_⟩
  intro z
  rw [hpc, Function.update_apply]
  split
  · exact Or.inr hp
  · exact Or.inl rfl

/-- The steps of a thread that is initialising a mutex. -/
theorem init_listStep (h : advance s = some (s', e))
    (hp : (s.pc s.current).initialises = some m) : ListStep s .advance s' e := by
  unfold advance at h
  cases hpc : s.pc s.current with
  | initScan m' i =>
      rw [hpc] at h
      dsimp only [initScan] at h
      split at h
      · split at h
        · obtain ⟨rfl, rfl⟩ := Prod.mk.inj (Option.some.inj h)
          exact .hits hpc ‹_› ‹_›
        · obtain ⟨rfl, rfl⟩ := Prod.mk.inj (Option.some.inj h)
          exact .misses hpc ‹_› ‹_›
      · obtain ⟨rfl, rfl⟩ := Prod.mk.inj (Option.some.inj h)
        exact .scanned hpc (not_lt.mp ‹_›)
  | initUser m' =>
      rw [hpc] at h
      obtain ⟨rfl, rfl⟩ := Prod.mk.inj (Option.some.inj h)
      exact .resets hpc
  | initAdd m' i =>
      rw [hpc] at h
      dsimp only [initAdd] at h
      split at h
      · split at h
        · obtain ⟨rfl, rfl⟩ := Prod.mk.inj (Option.some.inj h)
          exact .finds hpc ‹_› ‹_›
        · obtain ⟨rfl, rfl⟩ := Prod.mk.inj (Option.some.inj h)
          exact .taken hpc ‹_› ‹_›
      · obtain ⟨rfl, rfl⟩ := Prod.mk.inj (Option.some.inj h)
        exact .full hpc (not_lt.mp ‹_›)
  | initStore m' i =>
      rw [hpc] at h
      obtain ⟨rfl, rfl⟩ := Prod.mk.inj (Option.some.inj h)
      exact .stores hpc
  | _ =>
      rw [hpc] at hp
      cases hp

theorem Elsewhere.refl (s : State) : Elsewhere s s := ⟨rfl, fun _ h => h, fun _ => Or.inl rfl⟩

/-- One step after another. -/
theorem Elsewhere.trans (h : Elsewhere s u) (h' : Elsewhere u s') : Elsewhere s s' := by
  refine ⟨h'.list.trans h.list, fun m hm => h'.queue m (h.queue m hm), ?_⟩
  intro z
  rcases h'.pc z with heq | hnone
  · rcases h.pc z with heq' | hnone'
    · exact Or.inl (heq.trans heq')
    · rw [heq]
      exact Or.inr hnone'
  · exact Or.inr hnone

private theorem elsewhere_handler (h : schedulerAlarmHandler s = some s') : Elsewhere s s' := by
  have hframe := schedulerAlarmHandler_frame h
  refine ⟨hframe.mutexList, ?_, ?_⟩
  · intro m hm
    rw [hframe.mutex]
    exact hm
  · intro z
    rw [hframe.pc]
    exact Or.inl rfl

/-- The queue of a mutex is replaced by another one. -/
theorem queue_setMutex {x : Mutex} (hx : x.waiting ≠ none) (k : Nat)
    (hk : (s.mutex k).waiting ≠ none) : ((s.setMutex m x).mutex k).waiting ≠ none := by
  unfold State.setMutex
  dsimp only
  rw [Function.update_apply]
  split
  · exact hx
  · exact hk

private theorem queue_setUser {user : Option Nat} (k : Nat) (hk : (s.mutex k).waiting ≠ none) :
    ((s.setMutex m { s.mutex m with user := user }).mutex k).waiting ≠ none := by
  unfold State.setMutex
  dsimp only
  rw [Function.update_apply]
  split
  case isTrue heq =>
    rw [heq] at hk
    exact hk
  case isFalse heq => exact hk

/-- A creation leaves the mutexes alone. -/
theorem createThread_mutex (t : Nat) (s : State) :
    (createThread t s).mutexList = s.mutexList ∧ (createThread t s).mutex = s.mutex := by
  obtain ⟨n, l, heq⟩ := getId_snd s
  simp [createThread, State.setThread, enqueue, heq]

private theorem elsewhere_raise (h : raise p s = some s') (hp : p.initialises = none) :
    Elsewhere s s' := by
  have hgoto : Elsewhere s (s.goto p) := Elsewhere.goto rfl (fun _ h => h) rfl hp
  exact hgoto.trans (elsewhere_handler h)

private theorem elsewhere_created (t : Nat) (s : State) (armed cont : Bool) :
    Elsewhere s ({ createThread t s with armed := armed, cont := cont }.goto .own) := by
  obtain ⟨hlist, hmutex⟩ := createThread_mutex t s
  refine ⟨hlist, ?_, ?_⟩
  · intro m hm
    show ((createThread t s).mutex m).waiting ≠ none
    rw [hmutex]
    exact hm
  · intro z
    rw [created_pc, Function.update_apply]
    split
    · exact Or.inr rfl
    · rw [Function.update_apply]
      split
      · exact Or.inr rfl
      · exact Or.inl rfl

/-- A step of a thread that neither initialises a mutex nor joins. -/
theorem advance_plain (h : advance s = some (s', e)) (hp : (s.pc s.current).initialises = none)
    (hplain : (s.pc s.current).stage = .plain) :
    Elsewhere s s' ∧ (∀ m, e ≠ .inits m) ∧ ∀ m, e ≠ .destroys m := by
  have hgoto : ∀ {armed cont : Bool} {q : Pc}, q.initialises = none →
      Elsewhere s ({ s with armed := armed, cont := cont }.goto q) :=
    fun hq => Elsewhere.goto rfl (fun _ h => h) rfl hq
  unfold advance at h
  cases hpc : s.pc s.current with
  | own =>
      rw [hpc] at h
      cases h
  | creating t res =>
      rw [hpc] at h
      cases res with
      | noContext =>
          obtain ⟨rfl, rfl⟩ := Prod.mk.inj (Option.some.inj h)
          exact ⟨hgoto rfl, by simp, by simp⟩
      | noStack =>
          obtain ⟨rfl, rfl⟩ := Prod.mk.inj (Option.some.inj h)
          exact ⟨hgoto rfl, by simp, by simp⟩
      | available =>
          obtain ⟨heq, rfl⟩ := Prod.mk.inj (Option.some.inj h)
          refine ⟨?_, by simp, by simp⟩
          rw [← heq, show s.pauseTimer = { s with armed := false, cont := s.armed } from rfl,
            createThread_timer_eq]
          exact elsewhere_created t s _ _
  | yieldRaise =>
      rw [hpc] at h
      obtain ⟨u, hraise, heq⟩ := Option.map_eq_some_iff.mp h
      obtain ⟨rfl, rfl⟩ := Prod.mk.inj heq
      exact ⟨elsewhere_raise hraise rfl, by simp, by simp⟩
  | lockReturn m =>
      rw [hpc] at h
      obtain ⟨rfl, rfl⟩ := Prod.mk.inj (Option.some.inj h)
      exact ⟨hgoto rfl, by simp, by simp⟩
  | initScan | initUser | initAdd | initStore =>
      rw [hpc] at hp
      cases hp
  | _ =>
      rw [hpc] at hplain
      cases hplain

private theorem initialises_of_asking {j : Target} (h : p.stage = .asking j) :
    p.initialises = none := by
  cases p with
  | joinScan | joinTable => rfl
  | _ => cases h

private theorem initialises_of_signal {p' : Pc} (h : p.afterSignal = some p') :
    p'.initialises = none := by
  cases p with
  | yieldRaise | joinRaise | lockRaise =>
      obtain rfl := Option.some.inj h
      rfl
  | _ => cases h

/-- A step inside another call. -/
theorem advance_elsewhere (h : advance s = some (s', e))
    (hp : (s.pc s.current).initialises = none) :
    Elsewhere s s' ∧ (∀ m, e ≠ .inits m) ∧ ∀ m, e ≠ .destroys m := by
  by_cases hplain : (s.pc s.current).stage = .plain
  · exact advance_plain h hp hplain
  have hsame : ∀ m, (s.mutex m).waiting ≠ none → (s.mutex m).waiting ≠ none := fun _ h => h
  cases exec_moves (c := .advance) h with
  | creates armed cont hpc =>
      rw [hpc] at hplain
      exact absurd rfl hplain
  | quiet armed cont hpc hstage =>
      rw [hpc] at hplain
      exact absurd hstage hplain
  | @asks j p p' hpc hasks hasks' =>
      exact ⟨Elsewhere.goto rfl hsame rfl (initialises_of_asking hasks'), by simp, by simp⟩
  | denied hpc => exact ⟨Elsewhere.goto rfl hsame rfl rfl, by simp, by simp⟩
  | finds | isDone | notDone => exact ⟨Elsewhere.goto rfl hsame rfl rfl, by simp, by simp⟩
  | blocks | finishes | returns => exact ⟨Elsewhere.goto rfl hsame rfl rfl, by simp, by simp⟩
  | @signals p p' u hpc hafter hraise =>
      exact ⟨elsewhere_raise hraise (initialises_of_signal hafter), by simp, by simp⟩
  | clears hpc =>
      rw [hpc] at hp
      cases hp
  | @inits m p list hpc hinit =>
      rw [hpc] at hp
      rcases hinit with ⟨i, rfl⟩ | ⟨i, rfl⟩
      · cases hp
      · cases hp
  | claims => exact ⟨Elsewhere.goto rfl (fun _ => queue_setUser _) rfl rfl, by simp, by simp⟩

/-- A call from a thread's own code. -/
theorem call_listStep {c : Call} (h : exec s (.call c) = some (s', e)) :
    ListStep s (.call c) s' e := by
  have hsame : ∀ m, (s.mutex m).waiting ≠ none → (s.mutex m).waiting ≠ none := fun _ h => h
  have hout : ∀ m, Action.call c = .advance → (s.pc s.current).initialises ≠ some m :=
    fun _ heq => by cases heq
  cases exec_moves h with
  | @starts t res hown =>
      cases hinit : s.init with
      | true =>
          rw [if_pos rfl]
          exact .elsewhere (Elsewhere.goto rfl hsame rfl rfl) (by simp) (by simp) hout
      | false =>
          rw [if_neg Bool.false_ne_true]
          refine .clears hinit rfl rfl ?_
          intro z
          have hpc : ((schedulerInit s).goto (.creating t res)).pc =
              Function.update s.pc 0 (.creating t res) := rfl
          rw [hpc, Function.update_apply]
          split
          · exact Or.inr rfl
          · exact Or.inl rfl
  | refuses armed cont =>
      exact .elsewhere ⟨rfl, hsame, fun _ => Or.inl rfl⟩ (by simp) (by simp) hout
  | yields => exact .elsewhere (Elsewhere.goto rfl hsame rfl rfl) (by simp) (by simp) hout
  | @exits r value u hown hr hraise =>
      have hmark : Elsewhere s (exitMark r value s) := ⟨rfl, hsame, fun _ => Or.inl rfl⟩
      exact .elsewhere (hmark.trans (elsewhere_raise hraise rfl)) (by simp) (by simp) hout
  | enters => exact .elsewhere (Elsewhere.goto rfl hsame rfl rfl) (by simp) (by simp) hout
  | noMemory => exact .noMemory
  | queues => exact .begins
  | locks =>
      exact .elsewhere ⟨rfl, fun _ => queue_setUser _, fun _ => Or.inl rfl⟩ (by simp) (by simp) hout
  | unlocks =>
      exact .elsewhere ⟨rfl, fun _ => queue_setUser _, fun _ => Or.inl rfl⟩ (by simp) (by simp) hout
  | waits =>
      refine .elsewhere (Elsewhere.goto rfl ?_ rfl rfl) (by simp) (by simp) hout
      exact queue_setMutex (by simp)
  | hands =>
      refine .elsewhere ⟨rfl, ?_, fun _ => Or.inl rfl⟩ (by simp) (by simp) hout
      exact queue_setMutex (by simp)
  | @destroys m queue armed cont hown hqueue =>
      refine .destroys ?_ (activate_pc queue s) ?_
      · exact activate_all (f := State.mutexList) (fun _ _ => rfl) queue s
      · intro k hk
        have hmutex := activate_all (f := State.mutex) (fun _ _ => rfl) queue s
        show (Function.update (queue.foldl (fun s w => activate w s) s).mutex m _ k).waiting = _
        rw [Function.update_of_ne hk, hmutex]

/-- **What a step does to `mutex_list`.** -/
theorem exec_listStep (h : exec s c = some (s', e)) : ListStep s c s' e := by
  cases c with
  | alarm =>
      obtain ⟨_, hrest⟩ := Option.ite_none_right_eq_some.mp h
      obtain ⟨u, hu, heq⟩ := Option.map_eq_some_iff.mp hrest
      obtain ⟨rfl, rfl⟩ := Prod.mk.inj heq
      exact .elsewhere (elsewhere_handler hu) (by simp) (by simp) fun _ heq => by cases heq
  | call c => exact call_listStep h
  | advance =>
      cases hp : (s.pc s.current).initialises with
      | some m => exact init_listStep h hp
      | none =>
          obtain ⟨helse, hinits, hdestroys⟩ := advance_elsewhere h hp
          refine .elsewhere helse hinits hdestroys ?_
          intro m _ heq
          rw [hp] at heq
          cases heq

private theorem registered_of {s s' : State}
    (hlist : ∀ k, s'.mutexList k = some m → s.mutexList k = some m)
    (h : Registered m s') : Registered m s := by
  obtain ⟨k, hk, hentry⟩ := h
  exact ⟨k, hk, hlist k hentry⟩

private theorem placeOk_of_none {alive : Nat → Bool} (hp : p.initialises = none) :
    PlaceOk s alive p := by
  cases p with
  | initScan | initUser | initAdd | initStore => cases hp
  | _ => trivial

/-- A place stays right while its mutex keeps its queue and gets no entry. -/
theorem PlaceOk.mono {alive alive' : Nat → Bool} (h : PlaceOk s alive p)
    (hkeep : ∀ m, p.initialises = some m →
      ((s.mutex m).waiting ≠ none → (s'.mutex m).waiting ≠ none) ∧
      (∀ k, s'.mutexList k = some m → s.mutexList k = some m) ∧
      (alive m = true → alive' m = true)) : PlaceOk s' alive' p := by
  cases p with
  | initScan m i =>
      obtain ⟨hqueue, hlist, halive⟩ := hkeep m rfl
      obtain ⟨hwait, hscan, hentry⟩ := h
      exact ⟨hqueue hwait, fun k hk hnew => hscan k hk (hlist k hnew),
        fun hreg => halive (hentry (registered_of hlist hreg))⟩
  | initUser m =>
      obtain ⟨hqueue, hlist, _⟩ := hkeep m rfl
      exact ⟨hqueue h.1, fun hreg => h.2 (registered_of hlist hreg)⟩
  | initAdd m i =>
      obtain ⟨hqueue, hlist, _⟩ := hkeep m rfl
      exact ⟨hqueue h.1, fun hreg => h.2 (registered_of hlist hreg)⟩
  | initStore m i =>
      obtain ⟨hqueue, hlist, _⟩ := hkeep m rfl
      exact ⟨hqueue h.1, fun hreg => h.2.1 (registered_of hlist hreg), h.2.2⟩
  | _ => trivial

/-- No thread starts to initialise a mutex. -/
theorem Registry.alone_of {alive : Nat → Bool} (h : Registry s alive)
    (hpc : ∀ z m, (s'.pc z).initialises = some m → (s.pc z).initialises = some m) (z z' m : Nat)
    (hz : (s'.pc z).initialises = some m) (hz' : (s'.pc z').initialises = some m) : z = z' :=
  h.alone z z' m (hpc z m hz) (hpc z' m hz')

/-- Steps of other calls keep the registry. -/
theorem Registry.elsewhere {alive : Nat → Bool} (h : Registry s alive) (he : Elsewhere s s') :
    Registry s' alive := by
  have hback : ∀ z m, (s'.pc z).initialises = some m → (s.pc z).initialises = some m := by
    intro z m hz
    rcases he.pc z with heq | hnone
    · rw [← heq]
      exact hz
    · rw [hnone] at hz
      cases hz
  refine ⟨?_, h.alone_of hback, ?_⟩
  · intro m hm
    obtain ⟨hreg, hqueue⟩ := h.entered m hm
    refine ⟨?_, he.queue m hqueue⟩
    unfold Registered
    rw [he.list]
    exact hreg
  · intro z
    rcases he.pc z with heq | hnone
    · rw [heq]
      refine (h.place z).mono fun m _ => ⟨he.queue m, ?_, id⟩
      intro k hk
      rw [he.list] at hk
      exact hk
    · exact placeOk_of_none hnone

/-- The running thread goes on with the mutex that it is initialising. -/
theorem Registry.goes {alive : Nat → Bool} {p' : Pc} (h : Registry s alive)
    (hpc : s.pc s.current = p) (hlist : s'.mutexList = s.mutexList)
    (hqueue : ∀ m, (s.mutex m).waiting ≠ none → (s'.mutex m).waiting ≠ none)
    (hpc' : s'.pc = Function.update s.pc s.current p') (hp : p'.initialises = p.initialises)
    (hplace : PlaceOk s' alive p') : Registry s' alive := by
  refine ⟨?_, h.alone_of ?_, ?_⟩
  · intro m hm
    obtain ⟨hreg, hwait⟩ := h.entered m hm
    refine ⟨?_, hqueue m hwait⟩
    unfold Registered
    rw [hlist]
    exact hreg
  · intro z m hz
    rw [hpc', Function.update_apply] at hz
    split at hz
    case isTrue heq =>
      rw [heq, hpc, ← hp]
      exact hz
    case isFalse => exact hz
  · intro z
    rw [hpc', Function.update_apply]
    split
    · exact hplace
    · refine (h.place z).mono fun m _ => ⟨hqueue m, ?_, id⟩
      intro k hk
      rw [hlist] at hk
      exact hk

private theorem live_append (m : Nat) (h : List (Nat × Event)) (x : Nat) (e : Event) :
    live m (h ++ [(x, e)]) = match e with
      | .inits k => if k = m then true else live m h
      | .destroys k => if k = m then false else live m h
      | _ => live m h := by
  unfold live
  rw [List.foldl_append]
  rfl

private theorem live_other {h : List (Nat × Event)} {x : Nat} (hinits : ∀ m, e ≠ .inits m)
    (hdestroys : ∀ m, e ≠ .destroys m) : (fun m => live m (h ++ [(x, e)])) = fun m => live m h := by
  funext m
  rw [live_append]
  cases e with
  | inits k => exact absurd rfl (hinits k)
  | destroys k => exact absurd rfl (hdestroys k)
  | _ => rfl

/-- `my_pthread_mutex_init` begins. -/
theorem Registry.begins {alive : Nat → Bool} (h : Registry s alive)
    (hentry : Registered m s → alive m = true) (hfree : ∀ z, (s.pc z).initialises ≠ some m) :
    Registry ((s.setMutex m { s.mutex m with waiting := some [] }).goto (.initScan m 0)) alive := by
  have hqueue : ∀ k, (s.mutex k).waiting ≠ none →
      ((s.setMutex m { s.mutex m with waiting := some [] }).mutex k).waiting ≠ none :=
    queue_setMutex (by simp)
  have hpc : ∀ z, (Function.update s.pc s.current (.initScan m 0) z).initialises = some m ∧
      z = s.current ∨ Function.update s.pc s.current (.initScan m 0) z = s.pc z := by
    intro z
    rw [Function.update_apply]
    split
    case isTrue heq => exact Or.inl ⟨rfl, heq⟩
    case isFalse => exact Or.inr rfl
  refine ⟨fun k hk => ⟨(h.entered k hk).1, hqueue k (h.entered k hk).2⟩, ?_, ?_⟩
  · intro z z' k hz hz'
    rcases hpc z with ⟨hm, hcur⟩ | heq
    · obtain rfl : m = k := Option.some.inj (hm.symm.trans hz)
      rcases hpc z' with ⟨_, hcur'⟩ | heq'
      · exact hcur.trans hcur'.symm
      · exact absurd (heq' ▸ hz') (hfree z')
    · rcases hpc z' with ⟨hm', hcur'⟩ | heq'
      · obtain rfl : m = k := Option.some.inj (hm'.symm.trans hz')
        exact absurd (heq ▸ hz) (hfree z)
      · exact h.alone z z' k (heq ▸ hz) (heq' ▸ hz')
  · intro z
    show PlaceOk _ alive (Function.update s.pc s.current (.initScan m 0) z)
    rw [Function.update_apply]
    split
    · refine ⟨?_, fun k hk => absurd hk (Nat.not_lt_zero k), hentry⟩
      show (Function.update s.mutex m _ m).waiting ≠ none
      rw [Function.update_self]
      simp
    · exact (h.place z).mono fun k _ => ⟨hqueue k, fun _ hk => hk, id⟩

/-- The mutex loses its queue, while it is not in use. -/
theorem Registry.loses {alive alive' : Nat → Bool} (h : Registry s alive)
    (hlist : s'.mutexList = s.mutexList) (hpc : s'.pc = s.pc)
    (hqueue : ∀ k, k ≠ m → (s'.mutex k).waiting = (s.mutex k).waiting)
    (halive : alive' m = false) (hother : ∀ k, k ≠ m → alive' k = alive k)
    (hfree : ∀ z, (s.pc z).initialises ≠ some m) : Registry s' alive' := by
  refine ⟨?_, h.alone_of (by rw [hpc]; exact fun _ _ hz => hz), ?_⟩
  · intro k hk
    have hne : k ≠ m := by
      intro heq
      rw [heq, halive] at hk
      cases hk
    rw [hother k hne] at hk
    obtain ⟨hreg, hwait⟩ := h.entered k hk
    unfold Registered
    rw [hlist, hqueue k hne]
    exact ⟨hreg, hwait⟩
  · intro z
    rw [hpc]
    refine (h.place z).mono ?_
    intro k hk
    have hne : k ≠ m := by
      intro heq
      exact hfree z (heq ▸ hk)
    rw [hqueue k hne, hlist, hother k hne]
    exact ⟨id, fun _ hentry => hentry, id⟩

/-- The mutex is entered in a free place. -/
theorem Registry.stores {alive alive' : Nat → Bool} (h : Registry s alive)
    (hpc : s.pc s.current = .initStore m i) (hnone : s.mutexList i = none)
    (halive : alive' m = true) (hother : ∀ k, k ≠ m → alive' k = alive k) :
    Registry ({ s with mutexList := Function.update s.mutexList i (some m) }.goto .own) alive' := by
  have hplace := h.place s.current
  rw [hpc] at hplace
  obtain ⟨hwait, _, hi⟩ := hplace
  refine ⟨?_, h.alone_of ?_, ?_⟩
  · intro k hk
    by_cases hkm : k = m
    · subst hkm
      refine ⟨⟨i, List.mem_range.mpr hi, ?_⟩, hwait⟩
      exact Function.update_self ..
    · rw [hother k hkm] at hk
      obtain ⟨⟨n, hn, hentry⟩, hqueue⟩ := h.entered k hk
      refine ⟨⟨n, hn, ?_⟩, hqueue⟩
      have hne : n ≠ i := by
        intro heq
        rw [heq, hnone] at hentry
        cases hentry
      show Function.update s.mutexList i (some m) n = some k
      rw [Function.update_of_ne hne]
      exact hentry
  · intro z k hz
    have hz' : (Function.update s.pc s.current .own z).initialises = some k := hz
    rw [Function.update_apply] at hz'
    split at hz'
    · cases hz'
    · exact hz'
  · intro z
    show PlaceOk _ alive' (Function.update s.pc s.current .own z)
    rw [Function.update_apply]
    split
    · trivial
    case isFalse hne =>
      refine (h.place z).mono ?_
      intro k hk
      have hkm : k ≠ m := by
        intro heq
        exact hne (h.alone z s.current m (heq ▸ hk) (by rw [hpc]; rfl))
      rw [hother k hkm]
      refine ⟨id, ?_, id⟩
      intro n hn
      have hn' : Function.update s.mutexList i (some m) n = some k := hn
      rw [Function.update_apply] at hn'
      split at hn'
      · exact absurd (Option.some.inj hn').symm hkm
      · exact hn'

/-- **The list is kept** by every step that meets the condition. -/
theorem Registry.step {history : List (Nat × Event)} (h : Registry s fun m => live m history)
    (hok : CycleOk ⟨s, history⟩ c) (hstep : ListStep s c s' e) (x : Nat) :
    Registry s' fun m => live m (history ++ [(x, e)]) := by
  have hsilent : (fun m => live m (history ++ [(x, .silent)])) = fun m => live m history :=
    live_other (by simp) (by simp)
  have hplace : ∀ {p : Pc}, s.pc s.current = p → PlaceOk s (fun m => live m history) p :=
    fun hpc => hpc ▸ h.place s.current
  cases hstep with
  | elsewhere helse hinits hdestroys hother =>
      rw [live_other hinits hdestroys]
      exact h.elsewhere helse
  | @clears t res s' hinit hlist hmutex hpc =>
      rw [hsilent]
      refine ⟨?_, h.alone_of ?_, ?_⟩
      · intro m hm
        rw [hok hinit m] at hm
        cases hm
      · intro z m hz
        rcases hpc z with heq | hother
        · rw [← heq]
          exact hz
        · rw [hother] at hz
          cases hz
      · intro z
        rcases hpc z with heq | hother
        · rw [heq]
          refine (h.place z).mono fun m _ => ⟨?_, ?_, id⟩
          · rw [hmutex]
            exact id
          · intro k hk
            rw [hlist] at hk
            cases hk
        · exact placeOk_of_none hother
  | @begins m =>
      rw [hsilent]
      exact h.begins hok.1 hok.2.2
  | @noMemory m =>
      rw [live_other (by simp) (by simp)]
      refine h.loses rfl rfl ?_ ?_ (fun _ _ => rfl) hok.2.2
      · intro k hk
        show (Function.update s.mutex m _ k).waiting = _
        rw [Function.update_of_ne hk]
      · by_contra hlive
        cases hok.2.1 (Bool.not_eq_false _ ▸ hlive)
  | @destroys m s' hlist hpc hqueue =>
      refine h.loses hlist hpc hqueue ?_ ?_ hok
      · rw [live_append]
        exact if_pos rfl
      · intro k hk
        rw [live_append]
        exact if_neg (Ne.symm hk)
  | hits hpc =>
      rw [live_other (by simp) (by simp)]
      exact h.elsewhere (Elsewhere.goto rfl (fun _ h => h) rfl rfl)
  | @misses m i hpc hi hentry =>
      rw [hsilent]
      obtain ⟨hwait, hscan, halive⟩ := hplace hpc
      refine h.goes hpc rfl (fun _ h => h) rfl rfl ⟨hwait, ?_, halive⟩
      intro k hk
      rcases Nat.lt_succ_iff_lt_or_eq.mp hk with hk | rfl
      · exact hscan k hk
      · exact hentry
  | @scanned m i hpc hi =>
      rw [hsilent]
      obtain ⟨hwait, hscan, _⟩ := hplace hpc
      refine h.goes hpc rfl (fun _ h => h) rfl rfl ⟨hwait, ?_⟩
      intro hreg
      obtain ⟨k, hk, hentry⟩ := hreg
      exact hscan k (lt_of_lt_of_le (List.mem_range.mp hk) hi) hentry
  | @resets m hpc =>
      rw [hsilent]
      obtain ⟨hwait, hout⟩ := hplace hpc
      exact h.goes hpc rfl (fun _ => queue_setUser _) rfl rfl ⟨queue_setUser m hwait, hout⟩
  | @finds m i hpc hi hentry =>
      rw [hsilent]
      obtain ⟨hwait, hout⟩ := hplace hpc
      exact h.goes hpc rfl (fun _ h => h) rfl rfl ⟨hwait, hout, hi⟩
  | @taken m i hpc hi hentry =>
      rw [hsilent]
      exact h.goes hpc rfl (fun _ h => h) rfl rfl (hplace hpc)
  | @full m i hpc hi =>
      obtain ⟨k, hik, hk, _⟩ := hok.1 m i hpc
      omega
  | @stores m i hpc =>
      refine h.stores hpc (hok.2 m i hpc) ?_ ?_
      · rw [live_append]
        exact if_pos rfl
      · intro k hk
        rw [live_append]
        exact if_neg (Ne.symm hk)

/-- The call returns one result. -/
theorem Returns.unique {e' : Event} (h : Returns s e) (h' : Returns s e') : e = e' := by
  induction h with
  | ends hstep he =>
      cases h' with
      | ends hstep' _ => exact (Prod.mk.inj (Option.some.inj (hstep.symm.trans hstep'))).2
      | goesOn hstep' _ =>
          exact absurd (Prod.mk.inj (Option.some.inj (hstep.symm.trans hstep'))).2 he
  | goesOn hstep hrest ih =>
      cases h' with
      | ends hstep' he' =>
          exact absurd (Prod.mk.inj (Option.some.inj (hstep'.symm.trans hstep))).2 he'
      | goesOn hstep' hrest' =>
          obtain ⟨rfl, _⟩ := Prod.mk.inj (Option.some.inj (hstep.symm.trans hstep'))
          exact ih hrest'

/-- The search for a free place ends with success, whether there is one or not. -/
theorem returns_add {n : Nat} (hn : mutexLim ≤ i + n) :
    Returns (s.goto (.initAdd m i)) (.inits m) := by
  induction n generalizing i with
  | zero =>
      have hstep : advance (s.goto (.initAdd m i)) = some (s.goto .own, .inits m) := by
        unfold advance
        rw [pc_goto]
        dsimp only [initAdd]
        rw [if_neg (by omega), goto_goto]
      exact .ends hstep (by simp)
  | succ n ih =>
      have hstep : advance (s.goto (.initAdd m i)) =
          if i < mutexLim then
            if s.mutexList i = none then some (s.goto (.initStore m i), .silent)
            else some (s.goto (.initAdd m (i + 1)), .silent)
          else some (s.goto .own, .inits m) := by
        unfold advance
        rw [pc_goto]
        dsimp only [initAdd]
        simp only [goto_goto]
        rfl
      split at hstep
      · split at hstep
        · have hstore : advance (s.goto (.initStore m i)) =
              some ({ s.goto (.initStore m i) with
                mutexList := Function.update s.mutexList i (some m) }.goto .own, .inits m) := by
            unfold advance
            rw [pc_goto]
            rfl
          exact .goesOn hstep (.ends hstore (by simp))
        · exact .goesOn hstep (ih (by omega))
      · exact .ends hstep (by simp)

private theorem returns_user : Returns (s.goto (.initUser m)) (.inits m) := by
  have hcomm : ((s.goto (.initUser m)).setMutex m { s.mutex m with user := none }).goto
      (.initAdd m 0) = (s.setMutex m { s.mutex m with user := none }).goto (.initAdd m 0) :=
    goto_goto (.initUser m) (.initAdd m 0) (s.setMutex m { s.mutex m with user := none })
  have hstep : advance (s.goto (.initUser m)) =
      some ((s.setMutex m { s.mutex m with user := none }).goto (.initAdd m 0), .silent) := by
    unfold advance
    rw [pc_goto]
    exact congrArg (fun u => some (u, Event.silent)) hcomm
  exact .goesOn hstep (returns_add (n := mutexLim) (by omega))

/-- **The scan** ends with `EBUSY` at an entry for the mutex, and goes on to success without. -/
theorem returns_scan {n : Nat} (hn : i + n = mutexLim) (hbefore : ∀ k < i, s.mutexList k ≠ some m) :
    Returns (s.goto (.initScan m i)) (if Registered m s then .fails .EBUSY else .inits m) := by
  induction n generalizing i with
  | zero =>
      have hout : ¬ Registered m s := by
        intro hreg
        obtain ⟨k, hk, hentry⟩ := hreg
        exact hbefore k (by rw [List.mem_range] at hk; omega) hentry
      have hstep := advance_initScan (s := s) (m := m) i
      rw [if_neg (by omega)] at hstep
      rw [if_neg hout]
      exact .goesOn hstep returns_user
  | succ n ih =>
      have hstep := advance_initScan (s := s) (m := m) i
      rw [if_pos (by omega)] at hstep
      by_cases hentry : s.mutexList i = some m
      · have hreg : Registered m s := ⟨i, List.mem_range.mpr (by omega), hentry⟩
        rw [if_pos hentry] at hstep
        rw [if_pos hreg]
        exact .ends hstep (by simp)
      · rw [if_neg hentry] at hstep
        refine .goesOn hstep (ih (by omega) ?_)
        intro k hk
        rcases Nat.lt_succ_iff_lt_or_eq.mp hk with hk | rfl
        · exact hbefore k hk
        · exact hentry

/-- **What `my_pthread_mutex_init` returns** when it is not interrupted. -/
theorem initReturns_iff (hown : s.pc s.current = .own) :
    InitReturns m s e ↔ e = if Registered m s then .fails .EBUSY else .inits m := by
  have hcall : exec s (.call (.mutexInit m true)) =
      some ((s.setMutex m { s.mutex m with waiting := some [] }).goto (.initScan m 0), .silent) :=
    if_pos hown
  have hreturns := returns_scan (s := s.setMutex m { s.mutex m with waiting := some [] }) (m := m)
    (Nat.zero_add mutexLim) (fun k hk => absurd hk (Nat.not_lt_zero k))
  have hsame : Registered m (s.setMutex m { s.mutex m with waiting := some [] }) ↔
      Registered m s := Iff.rfl
  simp only [hsame] at hreturns
  constructor
  · intro h
    obtain ⟨s', hcall', hrest⟩ := h
    obtain ⟨rfl, _⟩ := Prod.mk.inj (Option.some.inj (hcall.symm.trans hcall'))
    exact hrest.unique hreturns
  · intro h
    rw [h]
    exact ⟨_, hcall, hreturns⟩

private theorem fails_scan {code : Code} (hpc : s.pc s.current = .initScan m i)
    (h : exec s .advance = some (s', .fails code)) : i < mutexLim ∧ s.mutexList i = some m := by
  have hat := advance_initScan (s := s) (m := m) i
  rw [goto_self hpc] at hat
  have hstep : advance s = some (s', .fails code) := h
  rw [hat] at hstep
  split at hstep
  · split at hstep
    · exact ⟨‹_›, ‹_›⟩
    · cases hstep
  · cases hstep

private theorem registry_of_reached {a : World} (h : Reached CycleOk a) :
    Registry a.state fun m => live m a.history := by
  apply h.invariant (I := fun a => Registry a.state fun m => live m a.history)
  · intro b hb
    obtain ⟨hinit, hhist⟩ := hb
    have hplace : ∀ z, (b.state.pc z).initialises = none := by
      intro z
      rw [hinit.pc, Function.update_apply]
      split <;> rfl
    refine ⟨?_, ?_, fun z => placeOk_of_none (hplace z)⟩
    · intro m hm
      rw [hhist] at hm
      cases hm
    · intro z z' m hz
      rw [hplace z] at hz
      cases hz
  · intro b c d _ hb hstep
    obtain ⟨s, e, hexec, rfl⟩ := hstep.2
    exact hb.step hstep.1 (exec_listStep hexec) b.state.current

end Steps

/-- The life of a mutex: it is destroyed if it is in use and free, and initialised if it is not in
use, in one go and when other threads come in between. -/
structure Cycles (a : World) : Prop where
  destroys : a.state.pc a.state.current = .own → ∀ m, live m a.history = true →
    (a.state.mutex m).user = none → ∃ s, exec a.state (.call (.destroy m)) = some (s, .destroys m)
  inits : a.state.pc a.state.current = .own → ∀ m, CycleOk a (.call (.mutexInit m true)) →
    ∀ e, InitReturns m a.state e ↔ e = if live m a.history = true then .fails .EBUSY else .inits m
  busy : ∀ m i s code, a.state.pc a.state.current = .initScan m i →
    exec a.state .advance = some (s, .fails code) → live m a.history = true
  new : ∀ m c s, exec a.state c = some (s, .inits m) → live m a.history = false

/-- **The life of a mutex** in a run that meets the condition. -/
theorem mutex_cycles {a : World} (h : Reached CycleOk a) : Cycles a := by
  have hreg := registry_of_reached h
  constructor
  case destroys =>
    intro hown m hlive huser
    obtain ⟨hentry, hwait⟩ := hreg.entered m hlive
    obtain ⟨queue, hqueue⟩ := Option.ne_none_iff_exists'.mp hwait
    have hcall : exec a.state (.call (.destroy m)) = myPthreadMutexDestroy m a.state := if_pos hown
    have hentry' : ∃ i ∈ List.range mutexLim, a.state.pauseTimer.mutexList i = some m := hentry
    have huser' : (a.state.pauseTimer.mutex m).user = none := huser
    have hqueue' : (a.state.pauseTimer.mutex m).waiting = some queue := hqueue
    rw [hcall]
    unfold myPthreadMutexDestroy
    dsimp only
    rw [if_pos hentry', if_pos huser', hqueue']
    exact ⟨_, rfl⟩
  case inits =>
    intro hown m hok e
    have hiff : Registered m a.state ↔ live m a.history = true :=
      ⟨hok.1, fun hlive => (hreg.entered m hlive).1⟩
    rw [initReturns_iff hown]
    simp only [hiff]
  case busy =>
    intro m i s code hpc hexec
    have hplace := hreg.place a.state.current
    rw [hpc] at hplace
    rcases fails_scan hpc hexec with ⟨hi, hentry⟩
    exact hplace.2.2 ⟨i, List.mem_range.mpr hi, hentry⟩
  case new =>
    intro m c s hexec
    by_contra hlive
    have hentry := (hreg.entered m (Bool.not_eq_false _ ▸ hlive)).1
    have hplace := hreg.place a.state.current
    cases exec_listStep hexec with
    | elsewhere _ hinits => exact hinits m rfl
    | full hpc =>
        rw [hpc] at hplace
        exact hplace.2 hentry
    | stores hpc =>
        rw [hpc] at hplace
        exact hplace.2.1 hentry

/-- `main` has created thread 1, and mutex 0 has a queue. -/
def initState : State := createdWorld.state.setMutex 0 ⟨some [], none⟩

/-- Mutex 0 is entered in the list. -/
def enteredState : State :=
  { initState with mutexList := Function.update (fun _ => none) 0 (some 0) }

/-- Nobody is inside an initialisation. -/
theorem initState_idle (z : Nat) : (initState.pc z).initialises = none := by
  have hpc : initState.pc = Function.update (Function.update (Function.update
      (Function.update (fun _ => .unborn) 0 .own) 0 (.creating 1 .available)) 1 .own) 0 .own := rfl
  simp only [hpc, Function.update_apply]
  split
  · rfl
  · split
    · rfl
    · rfl

/-- The initialisation of mutex 0 runs to its end. -/
theorem Reached.entered {ok : World → Action → Prop} (h : Reached ok createdWorld)
    (hcall : ok createdWorld (.call (.mutexInit 0 true)))
    (hscan : ∀ u m i hist, u.pc u.current = .initScan m i → ok ⟨u, hist⟩ .advance)
    (hrest : ∀ p ∈ [Pc.initUser 0, .initAdd 0 0, .initStore 0 0], ∀ hist,
      ok ⟨initState.goto p, hist⟩ .advance) :
    ∃ hist, Reached ok ⟨enteredState, hist ++ [(0, .inits 0)]⟩ := by
  have hclear : Threads.cleared 0 createdWorld.state = some (initState.goto (.initUser 0)) := by
    have hexec : exec createdWorld.state (.call (.mutexInit 0 true)) =
        some (initState.goto (.initScan 0 0), .silent) := rfl
    unfold Threads.cleared
    rw [hexec, Option.bind_some, if_pos ⟨rfl, by decide +kernel⟩, goto_goto]
  obtain ⟨evs, hscanned⟩ := Reached.cleared h hcall hscan hclear
  have huser : exec (initState.goto (.initUser 0)) .advance =
      some (initState.goto (.initAdd 0 0), .silent) := by
    have hsame : (initState.goto (.initUser 0)).setMutex 0 ⟨some [], none⟩ =
        initState.goto (.initUser 0) := by
      unfold State.setMutex
      rw [show (⟨some [], none⟩ : Mutex) = (initState.goto (.initUser 0)).mutex 0 from rfl,
        Function.update_eq_self]
    show some (State.goto _ ((initState.goto (.initUser 0)).setMutex 0 ⟨some [], none⟩), _) = _
    rw [hsame, goto_goto]
  have hadd : exec (initState.goto (.initAdd 0 0)) .advance =
      some (initState.goto (.initStore 0 0), .silent) := by
    show some (State.goto _ (State.goto _ initState), _) = _
    rw [goto_goto]
  have hstore : exec (initState.goto (.initStore 0 0)) .advance =
      some (enteredState, .inits 0) := by
    have hown : initState.pc 0 = .own := rfl
    have hstep : exec (initState.goto (.initStore 0 0)) .advance =
        some ({ (initState.goto (.initStore 0 0)).goto .own with
          mutexList := Function.update (fun _ => none) 0 (some 0) }, .inits 0) := rfl
    rw [hstep, goto_goto, goto_self hown]
    rfl
  have hlast := ((hscanned.next ⟨hrest _ (by simp) _, _, _, huser, rfl⟩).next
    ⟨hrest _ (by simp) _, _, _, hadd, rfl⟩).next ⟨hrest _ (by simp) _, _, _, hstore, rfl⟩
  exact ⟨_, hlast⟩

/-- While no thread initialises a mutex, one that is in use is initialised again in vain, and one
that has no entry is initialised. -/
theorem cycleOk_init {a : World} {m : Nat} (hidle : ∀ z, (a.state.pc z).initialises = none)
    (hlive : Registered m a.state → live m a.history = true) :
    CycleOk a (.call (.mutexInit m true)) := by
  refine ⟨hlive, fun _ => rfl, ?_⟩
  intro z hz
  rw [hidle z] at hz
  cases hz

private theorem cycleOk_quiet {u : State} {hist : List (Nat × Event)} {p : Pc}
    (hpc : u.pc u.current = p) (hp : p.initialises = none ∨ ∃ m i, p = .initScan m i) :
    CycleOk ⟨u, hist⟩ .advance := by
  refine ⟨fun m i hat => ?_, fun m i hat => ?_⟩
  · obtain rfl := hpc.symm.trans hat
    simp [Pc.initialises] at hp
  · obtain rfl := hpc.symm.trans hat
    simp [Pc.initialises] at hp

private theorem reached_entered :
    ∃ hist, Reached CycleOk ⟨enteredState, hist ++ [(0, .inits 0)]⟩ := by
  have hcreated : Reached CycleOk createdWorld :=
    reached_createdWorld (fun _ _ => rfl) (cycleOk_quiet rfl (Or.inl rfl))
  refine hcreated.entered (cycleOk_init initState_idle ?_) ?_ ?_
  · intro hreg
    obtain ⟨i, _, hentry⟩ := hreg
    cases hentry
  · intro u m i hist hpc
    exact cycleOk_quiet hpc (Or.inr ⟨m, i, rfl⟩)
  · intro p hp hist
    refine ⟨fun m i hat => ?_, fun m i hat => rfl⟩
    have hat' : p = .initAdd m i := (pc_goto ..).symm.trans hat
    subst hat'
    simp only [List.mem_cons, Pc.initAdd.injEq, reduceCtorEq, false_or, List.not_mem_nil,
      or_false] at hp
    exact ⟨0, by omega, by simp, rfl⟩

/-- Mutex 0 is in use, so it is initialised again in vain; it is destroyed, and another one is
initialised. -/
theorem mutex_cycles_destroyed : ∃ a b : World, (0, .fails .EBUSY) ∈ a.history ∧
    InitReturns 0 a.state (.fails .EBUSY) ∧
    exec a.state (.call (.destroy 0)) = some (b.state, .destroys 0) ∧
    InitReturns 1 b.state (.inits 1) := by
  obtain ⟨hist, hentered⟩ := reached_entered
  have hown : enteredState.pc 0 = .own := rfl
  have hentry : enteredState.mutexList 0 = some 0 := rfl
  have hqueue : enteredState.setMutex 0 { enteredState.mutex 0 with waiting := some [] } =
      enteredState := by
    unfold State.setMutex
    rw [show { enteredState.mutex 0 with waiting := some [] } = enteredState.mutex 0 from rfl,
      Function.update_eq_self]
  have hcall : exec enteredState (.call (.mutexInit 0 true)) =
      some (enteredState.goto (.initScan 0 0), .silent) := by
    show some (State.goto _ (enteredState.setMutex 0 _), _) = _
    rw [hqueue]
  have hhit : exec (enteredState.goto (.initScan 0 0)) .advance =
      some (enteredState, .fails .EBUSY) := by
    show advance (enteredState.goto (.initScan 0 0)) = _
    rw [advance_initScan, if_pos (by simp), if_pos hentry, goto_self hown]
  have hlive : live 0 (hist ++ [(0, .inits 0)]) = true := by
    rw [live_append]
    exact if_pos rfl
  have hscan : Reached CycleOk ⟨enteredState.goto (.initScan 0 0),
      hist ++ [(0, .inits 0)] ++ [(0, .silent)]⟩ :=
    hentered.next ⟨cycleOk_init initState_idle fun _ => hlive, _, _, hcall, rfl⟩
  have hbusy : Reached CycleOk ⟨enteredState,
      hist ++ [(0, .inits 0)] ++ [(0, .silent)] ++ [(0, .fails .EBUSY)]⟩ :=
    hscan.next ⟨cycleOk_quiet rfl (Or.inr ⟨0, 0, rfl⟩), _, _, hhit, rfl⟩
  generalize hhist : hist ++ [(0, .inits 0)] ++ [(0, .silent)] ++ [(0, .fails .EBUSY)] = hist'
    at hbusy
  have hlive' : live 0 hist' = true := by
    rw [← hhist, live_append, live_append]
    exact hlive
  obtain ⟨s, hdestroy⟩ := (mutex_cycles hbusy).destroys hown 0 hlive' rfl
  have hunused : CycleOk ⟨enteredState, hist'⟩ (.call (.destroy 0)) := by
    intro z hz
    rw [show (enteredState.pc z).initialises = none from initState_idle z] at hz
    cases hz
  have hdestroyed : Reached CycleOk ⟨s, hist' ++ [(0, .destroys 0)]⟩ :=
    hbusy.next ⟨hunused, _, _, hdestroy, rfl⟩
  have hsees : (exec enteredState (.call (.destroy 0))).map (fun out =>
      decide (out.1.pc out.1.current = .own)) = some true := by
    decide +kernel
  have hown' : s.pc s.current = .own := by
    rw [show exec enteredState (.call (.destroy 0)) = _ from hdestroy] at hsees
    exact of_decide_eq_true (Option.some.inj hsees)
  have hsame : s.mutexList = enteredState.mutexList ∧ s.pc = enteredState.pc := by
    rcases exec_listStep hdestroy with ⟨_, _, hdestroys, _⟩
    · exact absurd rfl (hdestroys 0)
    · exact ⟨‹_›, ‹_›⟩
  have hout : ¬ Registered 1 s := by
    intro hreg
    obtain ⟨i, _, hentry⟩ := hreg
    rw [hsame.1, show enteredState.mutexList = Function.update (fun _ => none) 0 (some 0) from rfl,
      Function.update_apply] at hentry
    split at hentry <;> cases hentry
  have hnew : CycleOk ⟨s, hist' ++ [(0, .destroys 0)]⟩ (.call (.mutexInit 1 true)) := by
    refine cycleOk_init ?_ fun hreg => absurd hreg hout
    intro z
    rw [show (World.state ⟨s, hist' ++ [(0, .destroys 0)]⟩).pc = _ from hsame.2]
    exact initState_idle z
  have hfresh : ¬ live 1 (hist' ++ [(0, .destroys 0)]) = true :=
    fun h => hout ((registry_of_reached hdestroyed).entered 1 h).1
  refine ⟨⟨enteredState, hist'⟩, ⟨s, hist' ++ [(0, .destroys 0)]⟩, ?_, ?_, hdestroy, ?_⟩
  · rw [← hhist]
    exact List.mem_append_right _ (List.mem_singleton_self _)
  · have hagain : CycleOk ⟨enteredState, hist'⟩ (.call (.mutexInit 0 true)) :=
      cycleOk_init initState_idle fun _ => hlive'
    refine ((mutex_cycles hbusy).inits hown 0 hagain _).mpr ?_
    exact (if_pos hlive').symm
  · refine ((mutex_cycles hdestroyed).inits hown' 1 hnew _).mpr ?_
    exact (if_neg hfresh).symm

/-- A mutex is initialised, destroyed and initialised again. -/
theorem destroyed_stays_busy : ¬ ∀ a, Reached (fun _ _ => True) a →
    a.state.pc a.state.current = .own → ∀ m,
    (live m a.history = true → (a.state.mutex m).user = none →
      ∃ s, exec a.state (.call (.destroy m)) = some (s, .destroys m)) ∧
    (InitReturns m a.state (.fails .EBUSY) ↔ live m a.history = true) := by
  intro hclaim
  have hsome : (((cleared 0 blankWorld.state).bind (runs [.advance, .advance, .advance])).map
      fun b => decide (((exec b (.call (.destroy 0))).map fun out =>
        (out.2, out.1.pc out.1.current, (exec out.1 (.call (.mutexInit 0 true))).map fun out' =>
          (out'.2, (advance out'.1).map Prod.snd))) =
        some (.destroys 0, .own, some (.silent, some (.fails .EBUSY))))) = some true := by
    decide +kernel
  obtain ⟨b, hruns, hsees⟩ := Option.map_eq_some_iff.mp hsome
  obtain ⟨s₁, hcleared, hlast⟩ := Option.bind_eq_some_iff.mp hruns
  obtain ⟨hist, hreach⟩ := (visited_blank.cleared (fun _ _ => trivial)
    (fun _ _ _ _ _ => trivial) hcleared).runs hlast
  obtain ⟨⟨s, e⟩, hdestroy, hout⟩ := Option.map_eq_some_iff.mp (of_decide_eq_true hsees)
  simp only [Prod.mk.injEq] at hout
  obtain ⟨rfl, hown, hagain⟩ := hout
  obtain ⟨⟨s', e'⟩, hinit, hout'⟩ := Option.map_eq_some_iff.mp hagain
  simp only [Prod.mk.injEq] at hout'
  obtain ⟨rfl, hbusy⟩ := hout'
  obtain ⟨⟨s'', e''⟩, hadvance, rfl⟩ := Option.map_eq_some_iff.mp hbusy
  have hreach' := hreach.next (c := .call (.destroy 0))
    ⟨trivial, s, _, hdestroy, rfl⟩
  have hreturns : InitReturns 0 s (.fails .EBUSY) := ⟨s', hinit, .ends hadvance (by simp)⟩
  have hlive := (hclaim _ hreach' hown 0).2.mp hreturns
  rw [live_append] at hlive
  cases hlive

end Threads
