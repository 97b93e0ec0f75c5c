import CS416.Threads.JoinResults
import CS416.Threads.LockSteps

/-!
# Mutexes are handed over

`my_pthread_mutex_unlock` gives a mutex to the first thread of its queue before
that thread runs again; the thread assigns `user` a second time when it comes
back from its signal.  The history of a mutex is one of a lock that is handed
over: `Follows` links the owner, the queue and the places of the threads to it.
-/

namespace Threads

/-- The history of a mutex. -/
def lockEvents (m : Nat) (history : List (Nat × Event)) : List (Locks.Event Nat) :=
  history.filterMap fun x => lockEvent m x.1 x.2

/-- `my_pthread_mutex_init` of the mutex returned 0. -/
def inited (m : Nat) (history : List (Nat × Event)) : Bool :=
  history.any fun x => x.2 = .inits m

/-- The contract of the library: a thread is joined once, each thread has an object of its own,
and a mutex is initialised once, then used, and not destroyed. -/
def Contract (a : World) : Action → Prop
  | .call (.join t _) => t ∈ unjoined a.history ∧
      ∀ z j, (a.state.stage z).wanted = some j → j.thread ≠ t
  | .call (.mutexInit m _) => inited m a.history = false ∧
      ∀ z, (a.state.pc z).initialises ≠ some m
  | .call (.destroy _) => False
  | .call (.lock (some m)) | .call (.unlock m) => inited m a.history = true
  | .advance => ∀ t, a.state.pc a.state.current = .creating t .available →
      t ≠ 0 ∧ a.state.stage t = .unborn
  | _ => True

/-- The condition: there is an ID left for each new thread. -/
def HandOk (a : World) (c : Action) : Prop :=
  Contract a c ∧ (c = .advance →
    ∀ t, a.state.pc a.state.current = .creating t .available → IdLeft a)

/-- What a mutex is, as a lock that is handed over. -/
structure Follows (m : Nat) (a : World) (x : Locks.Lock Nat) : Prop where
  run : Locks.Run (lockEvents m a.history) x
  user : (a.state.mutex m).user = x.owner.user
  queue : queueOf m a.state = x.queue
  place : ∀ z, (a.state.pc z).locks = some m → z ∉ x.queue → x.owner = .promised z
  there : ∀ z, x.owner = .promised z → (a.state.pc z).locks = some m
  unused : inited m a.history = false → x = ⟨.free, []⟩

/-- A mutex is initialised by one thread, and not used then. -/
structure Initialising (a : World) : Prop where
  unused : ∀ z m, (a.state.pc z).initialises = some m → inited m a.history = false
  alone : ∀ z z' m, (a.state.pc z).initialises = some m →
    (a.state.pc z').initialises = some m → z = z'

section Runs

variable {s s' : State} {m k r : Nat} {c : Action} {e : Event} {x : Locks.Lock Nat}
  {hist : List (Nat × Event)} {a b : World}

/-- What a further event is for the mutex. -/
theorem lockEvents_append (m : Nat) (hist : List (Nat × Event)) (t : Nat) (e : Event) :
    lockEvents m (hist ++ [(t, e)]) = lockEvents m hist ++ (lockEvent m t e).toList := by
  unfold lockEvents
  rw [List.filterMap_append]
  cases he : lockEvent m t e with
  | none => simp [he]
  | some e' => simp [he]

private theorem inited_append (m : Nat) (hist : List (Nat × Event)) (t : Nat) (e : Event) :
    inited m (hist ++ [(t, e)]) = (inited m hist || decide (e = .inits m)) := by
  simp [inited]

/-- A mutex that is not initialised after a step was not before. -/
theorem inited_back {t : Nat} (h : inited m (hist ++ [(t, e)]) = false) :
    inited m hist = false := by
  rw [inited_append, Bool.or_eq_false_iff] at h
  exact h.1

/-- The threads of a queue are inside `my_pthread_mutex_lock`. -/
theorem Good.queued (h : Good s) {z : Nat} (hz : z ∈ queueOf m s) :
    s.stage z = .locking m ∧ (s.thread z).status = .waitMutex := by
  unfold queueOf at hz
  cases hqueue : (s.mutex m).waiting with
  | none =>
      rw [hqueue] at hz
      cases hz
  | some q =>
      rw [hqueue, Option.getD_some] at hz
      cases hinit : s.init with
      | false =>
          rw [(h.before hinit).queue m q hqueue] at hz
          cases hz
      | true => exact ((h.after hinit).core.queues.queue m q hqueue).2 z hz

/-- A thread that comes back from its signal runs. -/
theorem Good.claimant (h : Good s) (hpc : s.pc s.current = .lockClaim m) :
    s.running = some s.current ∧ Runnable (s.thread s.current).status := by
  cases hinit : s.init with
  | false =>
      have hbefore := h.before hinit
      have hcur : s.current = 0 := by
        unfold State.current
        rw [hbefore.running]
        rfl
      have hmain := hbefore.main
      unfold State.stage at hmain
      rw [← hcur, hpc] at hmain
      cases hmain
  | true =>
      have hout : ¬ (Pc.lockClaim m).Signals := by simp [Pc.Signals]
      obtain ⟨r, hr, hcur, _, _, hrun⟩ := (h.after hinit).runs hpc hout
      rw [hcur]
      exact ⟨hr, hrun⟩

/-- A thread that goes on inside the call, past its signal, is not in the queue. -/
theorem Good.not_queued (h : Good s) (hpc : s.pc s.current = .lockClaim m ∨
    s.pc s.current = .lockReturn m) : s.current ∉ queueOf m s := by
  intro hmem
  obtain ⟨hstage, hwait⟩ := h.queued hmem
  rcases hpc with hpc | hpc
  · exact (h.claimant hpc).2.ne (Or.inr (Or.inl rfl)) hwait
  · unfold State.stage at hstage
    rw [hpc] at hstage
    cases hstage

/-- A step that is none of the lock. -/
theorem Follows.quiet (h : Follows m ⟨s, hist⟩ x) (hquiet : ∀ t, lockEvent m t e = none)
    (huser : (s'.mutex m).user = (s.mutex m).user) (hqueue : queueOf m s' = queueOf m s)
    (hplace : SamePlaces m s s') (t : Nat) : Follows m ⟨s', hist ++ [(t, e)]⟩ x := by
  constructor
  case run =>
    rw [lockEvents_append, hquiet t, Option.toList_none, List.append_nil]
    exact h.run
  case user => exact huser.trans h.user
  case queue => exact hqueue.trans h.queue
  case place =>
    intro z hz
    exact h.place z ((hplace z).mp hz)
  case there =>
    intro z hz
    exact (hplace z).mpr (h.there z hz)
  case unused => exact fun hnew => h.unused (inited_back hnew)

/-- A lock that has no user is as it was at the start. -/
theorem Follows.idle (h : Follows m ⟨s, hist⟩ x) (hfree : (s.mutex m).user = none) :
    x = ⟨.free, []⟩ := by
  have huser := h.user.symm.trans hfree
  have hrun := h.run
  obtain ⟨owner, queue⟩ := x
  cases owner with
  | free =>
      obtain rfl : queue = [] := hrun.free rfl
      rfl
  | held | promised => cases huser

/-- A thread in its own code is promised nothing. -/
theorem Follows.holder (h : Follows m ⟨s, hist⟩ x) (hown : s.pc s.current = .own)
    (hr : s.running = some r) (hmine : (s.mutex m).user = some r) : x.owner = .held r := by
  have huser := h.user.symm.trans hmine
  have hthere := h.there r
  cases howner : x.owner with
  | free =>
      rw [howner] at huser
      cases huser
  | held t =>
      rw [howner] at huser
      obtain rfl := Option.some.inj huser
      rfl
  | promised t =>
      rw [howner] at huser
      obtain rfl := Option.some.inj huser
      have hlocks := hthere howner
      rw [← current_of_running hr, hown] at hlocks
      cases hlocks

/-- A step that is one of the lock. -/
theorem Follows.moves {y : Locks.Lock Nat} {ev : Locks.Event Nat} {t : Nat}
    (h : Follows m ⟨s, hist⟩ x) (hused : inited m hist = true)
    (hev : lockEvent m t e = some ev) (hlock : Locks.Step x ev y)
    (huser : (s'.mutex m).user = y.owner.user) (hqueue : queueOf m s' = y.queue)
    (hplace : ∀ z, (s'.pc z).locks = some m → z ∉ y.queue → y.owner = .promised z)
    (hthere : ∀ z, y.owner = .promised z → (s'.pc z).locks = some m) :
    Follows m ⟨s', hist ++ [(t, e)]⟩ y := by
  refine ⟨?_, huser, hqueue, hplace, hthere, ?_⟩
  · rw [lockEvents_append, hev]
    exact h.run.snoc hlock
  · intro hnew
    rw [inited_back hnew] at hused
    cases hused

/-- A thread that was promised a mutex takes it. -/
theorem Follows.returns (h : Follows m ⟨s, hist⟩ x) (hgood : Good s)
    (hpc : s.pc s.current = .lockReturn m) (huser : (s'.mutex m).user = (s.mutex m).user)
    (hqueue : queueOf m s' = queueOf m s)
    (hplace : ∀ z, (s'.pc z).locks = some m ↔ z ≠ s.current ∧ (s.pc z).locks = some m) :
    ∃ y, Follows m ⟨s', hist ++ [(s.current, .locks m)]⟩ y := by
  have hout := hgood.not_queued (Or.inr hpc)
  rw [h.queue] at hout
  have howner := h.place s.current (by rw [hpc]; rfl) hout
  obtain ⟨owner, queue⟩ := x
  obtain rfl : owner = .promised s.current := howner
  refine ⟨⟨.held s.current, queue⟩, h.moves ?_ (if_pos rfl) (.returns s.current queue)
    (huser.trans h.user) (hqueue.trans h.queue) ?_ ?_⟩
  · by_contra hnew
    have hidle := h.unused (Bool.eq_false_iff.mpr hnew)
    cases congrArg Locks.Lock.owner hidle
  · intro z hz hzq
    obtain ⟨hne, hlocks⟩ := (hplace z).mp hz
    exact absurd (Locks.Owner.promised.inj (h.place z hlocks hzq)).symm hne
  · intro z hz
    cases hz

/-- A mutex is given up. -/
theorem Follows.frees (h : Follows m ⟨s, hist⟩ x) (hused : inited m hist = true)
    (hown : s.pc s.current = .own) (hmine : (s.mutex m).user = s.running)
    (hnil : queueOf m s = []) (huser : (s'.mutex m).user = none) (hqueue : queueOf m s' = [])
    (hplace : SamePlaces m s s') :
    ∃ y, Follows m ⟨s', hist ++ [(s.current, .unlocks m none)]⟩ y := by
  have hev : lockEvent m s.current (.unlocks m none) = some (.unlocks s.current none) :=
    if_pos rfl
  have hout : ∀ z, (s'.pc z).locks = some m → x.owner = .promised z := by
    intro z hz
    refine h.place z ((hplace z).mp hz) ?_
    rw [← h.queue, hnil]
    exact List.not_mem_nil
  cases hr : s.running with
  | none =>
      -- before the scheduler starts, `main` gives up what nobody has
      obtain rfl := h.idle (hmine.trans hr)
      refine ⟨_, h.moves hused hev (.idles s.current) huser hqueue ?_ ?_⟩
      · intro z hz _
        exact hout z hz
      · intro z hz
        cases hz
  | some r =>
      have howner := h.holder hown hr (hmine.trans hr)
      rw [howner] at hout
      obtain ⟨owner, queue⟩ := x
      obtain rfl : owner = .held r := howner
      obtain rfl : queue = [] := h.queue.symm.trans hnil
      rw [← current_of_running hr] at hout h
      refine ⟨_, h.moves hused hev (.frees s.current) huser hqueue ?_ ?_⟩
      · intro z hz _
        cases hout z hz
      · intro z hz
        cases hz

/-- A mutex is handed to the first thread of its queue. -/
theorem Follows.hands {w : Nat} {rest : List Nat} (h : Follows m ⟨s, hist⟩ x) (hgood : Good s)
    (hused : inited m hist = true) (hown : s.pc s.current = .own)
    (hmine : (s.mutex m).user = s.running) (hcons : queueOf m s = w :: rest)
    (huser : (s'.mutex m).user = some w) (hqueue : queueOf m s' = rest)
    (hplace : SamePlaces m s s') :
    ∃ y, Follows m ⟨s', hist ++ [(s.current, .unlocks m (some w))]⟩ y := by
  have hw : (s.pc w).locks = some m := by
    have hstage := (hgood.queued (z := w) (by rw [hcons]; exact List.mem_cons_self)).1
    unfold State.stage at hstage
    exact locks_of_locking hstage
  cases hr : s.running with
  | none =>
      obtain rfl := h.idle (hmine.trans hr)
      have hnil : queueOf m s = [] := h.queue
      rw [hcons] at hnil
      cases hnil
  | some r =>
      have howner := h.holder hown hr (hmine.trans hr)
      obtain ⟨owner, queue⟩ := x
      obtain rfl : owner = .held r := howner
      obtain rfl : queue = w :: rest := h.queue.symm.trans hcons
      rw [← current_of_running hr] at h
      refine ⟨_, h.moves hused (if_pos rfl) (.hands s.current w rest) huser hqueue ?_ ?_⟩
      · intro z hz hzq
        by_cases hzw : z = w
        · rw [hzw]
        · have hzq' : z ∉ w :: rest := fun hmem => hzq ((List.mem_cons.mp hmem).resolve_left hzw)
          cases h.place z ((hplace z).mp hz) hzq'
      · intro z hz
        obtain rfl := Locks.Owner.promised.inj hz
        exact (hplace w).mpr hw

/-- **The lock makes the step of the mutex.** -/
theorem Follows.step (h : Follows m ⟨s, hist⟩ x) (hgood : Good s)
    (hnew : Initialising ⟨s, hist⟩) (hok : Contract ⟨s, hist⟩ c) (hstep : LockStep m s c s' e) :
    ∃ y, Follows m ⟨s', hist ++ [(s.current, e)]⟩ y := by
  cases hstep with
  | elsewhere huser hqueue hplace hquiet => exact ⟨x, h.quiet hquiet huser hqueue hplace _⟩
  | claims hpc huser hqueue hplace =>
      have hout := hgood.not_queued (Or.inl hpc)
      rw [h.queue] at hout
      have howner := h.place s.current (by rw [hpc]; rfl) hout
      have hmine : (s.mutex m).user = some s.current := h.user.trans (by rw [howner]; rfl)
      have hsame : (s'.mutex m).user = (s.mutex m).user := by
        rw [huser, hmine]
        exact (hgood.claimant hpc).1
      exact ⟨x, h.quiet (fun _ => rfl) hsame hqueue hplace _⟩
  | renews hc huser hqueue hplace hquiet =>
      have hunused : inited m hist = false := by
        rcases hc with ⟨memory, rfl⟩ | hp
        · exact hok.1
        · exact hnew.unused _ m hp
      obtain rfl := h.unused hunused
      have hnone : (s.mutex m).user = none := h.user
      have hnil : queueOf m s = [] := h.queue
      rw [hnone, or_self] at huser
      rw [hnil, or_self] at hqueue
      exact ⟨_, h.quiet hquiet (huser.trans hnone.symm) (hqueue.trans hnil.symm) hplace _⟩
  | takes hr hfree huser hqueue hplace =>
      obtain rfl := h.idle hfree
      rw [← current_of_running hr] at huser
      refine ⟨_, h.moves hok (if_pos rfl) (.takes s.current) huser (hqueue.trans h.queue) ?_ ?_⟩
      · intro z hz _
        cases h.place z ((hplace z).mp hz) List.not_mem_nil
      · intro z hz
        cases hz
  | waits hr hused huser hqueue hplace =>
      obtain ⟨owner, queue⟩ := x
      rw [← current_of_running hr] at hqueue hplace
      have howner : owner.user ≠ none := fun hnone => hused (h.user.trans hnone)
      have hqueue' : queueOf m s' = queue ++ [s.current] := by
        rw [hqueue, h.queue]
      refine ⟨_, h.moves hok (if_pos rfl) (.waits s.current howner) (huser.trans h.user)
        hqueue' ?_ ?_⟩
      · intro z hz hzq
        rw [List.mem_append, List.mem_singleton, not_or] at hzq
        exact h.place z (((hplace z).mp hz).resolve_left hzq.2) hzq.1
      · intro z hz
        exact (hplace z).mpr (Or.inr (h.there z hz))
  | returns hpc huser hqueue hplace => exact h.returns hgood hpc huser hqueue hplace
  | frees hown hmine hnil huser hqueue hplace =>
      exact h.frees hok hown hmine hnil huser hqueue hplace
  | hands hown hmine hcons huser hqueue hplace =>
      exact h.hands hgood hok hown hmine hcons huser hqueue hplace

/-- Nobody starts to initialise a mutex, and the event ends nothing that goes on. -/
theorem Initialising.keep {t : Nat} (h : Initialising ⟨s, hist⟩)
    (hpc : ∀ z k, (s'.pc z).initialises = some k → (s.pc z).initialises = some k)
    (hevent : ∀ z k, (s'.pc z).initialises = some k → e ≠ .inits k) :
    Initialising ⟨s', hist ++ [(t, e)]⟩ := by
  constructor
  case unused =>
    intro z k hz
    rw [inited_append, h.unused z k (hpc z k hz), Bool.false_or, decide_eq_false_iff_not]
    exact hevent z k hz
  case alone =>
    intro z z' k hz hz'
    exact h.alone z z' k (hpc z k hz) (hpc z' k hz')

private theorem initialises_goto {p : Pc} (hpc : s'.pc = Function.update s.pc s.current p)
    (hp : p.initialises = none ∨ p.initialises = (s.pc s.current).initialises) (z k : Nat)
    (hz : (s'.pc z).initialises = some k) : (s.pc z).initialises = some k := by
  rw [hpc, Function.update_apply] at hz
  split at hz
  case isTrue heq =>
    rw [heq]
    rcases hp with hp | hp
    · rw [hp] at hz
      cases hz
    · rw [← hp]
      exact hz
  case isFalse heq => exact hz

/-- A thread that has initialised a mutex was the only one. -/
theorem Initialising.ends {t : Nat} (h : Initialising ⟨s, hist⟩)
    (hold : (s.pc s.current).initialises = some m)
    (hpc : s'.pc = Function.update s.pc s.current .own) :
    Initialising ⟨s', hist ++ [(t, .inits m)]⟩ := by
  refine h.keep (initialises_goto hpc (Or.inl rfl)) ?_
  intro z k hz heq
  obtain rfl := Event.inits.inj heq
  obtain rfl := h.alone z s.current m (initialises_goto hpc (Or.inl rfl) z m hz) hold
  rw [hpc, Function.update_self] at hz
  cases hz

/-- **One step** of a program that keeps the contract. -/
theorem Initialising.step (h : Initialising ⟨s, hist⟩) (hok : Contract ⟨s, hist⟩ c)
    (hstep : ListStep s c s' e) : Initialising ⟨s', hist ++ [(s.current, e)]⟩ := by
  cases hstep with
  | elsewhere helse hinits _ _ =>
      refine h.keep ?_ fun _ k _ => hinits k
      intro z k hz
      rcases helse.pc z with heq | hnone
      · rw [← heq]
        exact hz
      · rw [hnone] at hz
        cases hz
  | clears _ _ _ hpc =>
      refine h.keep ?_ fun _ _ _ heq => by cases heq
      intro z k hz
      rcases hpc z with heq | hnone
      · rw [← heq]
        exact hz
      · rw [hnone] at hz
        cases hz
  | @begins m =>
      obtain ⟨hunused, hfree⟩ := hok
      have hcases : ∀ z k,
          (((s.setMutex m { s.mutex m with waiting := some [] }).goto (.initScan m 0)).pc
            z).initialises = some k →
          z = s.current ∧ k = m ∨ z ≠ s.current ∧ (s.pc z).initialises = some k := by
        intro z k hz
        by_cases hcur : z = s.current
        · subst hcur
          have hpc := pc_goto (.initScan m 0) (s.setMutex m { s.mutex m with waiting := some [] })
          have hkm : some m = some k := (congrArg Pc.initialises hpc).symm.trans hz
          exact Or.inl ⟨rfl, (Option.some.inj hkm).symm⟩
        · right
          refine ⟨hcur, ?_⟩
          have hpc : ((s.setMutex m { s.mutex m with waiting := some [] }).goto
              (.initScan m 0)).pc z = s.pc z := Function.update_of_ne hcur ..
          rw [← hpc]
          exact hz
      constructor
      case unused =>
        intro z k hz
        rw [inited_append]
        rcases hcases z k hz with ⟨_, rfl⟩ | ⟨_, hold⟩
        · simpa using hunused
        · simpa using h.unused z k hold
      case alone =>
        intro z z' k hz hz'
        rcases hcases z k hz with ⟨hcur, hkm⟩ | ⟨_, hold⟩
        · rcases hcases z' k hz' with ⟨hcur', _⟩ | ⟨_, hold'⟩
          · rw [hcur, hcur']
          · rw [hkm] at hold'
            exact absurd hold' (hfree z')
        · rcases hcases z' k hz' with ⟨_, hkm⟩ | ⟨_, hold'⟩
          · rw [hkm] at hold
            exact absurd hold (hfree z)
          · exact h.alone z z' k hold hold'
  | noMemory => exact h.keep (fun _ _ hz => hz) fun _ _ _ heq => by cases heq
  | destroys => exact hok.elim
  | hits hpc => exact h.keep (initialises_goto rfl (Or.inl rfl)) fun _ _ _ heq => by cases heq
  | misses hpc | scanned hpc | resets hpc | finds hpc | taken hpc =>
      refine h.keep (initialises_goto rfl (Or.inr ?_)) fun _ _ _ heq => by cases heq
      rw [hpc]
      rfl
  | full hpc | stores hpc => exact h.ends (by rw [hpc]; rfl) rfl

/-- The rules on joins and IDs follow from the contract. -/
theorem HandOk.idsOk (hok : HandOk a c) (hgood : Good a.state) (hlink : Linked a)
    (hfollows : ∀ m, ∃ x, Follows m a x) : IdsOk a c := by
  obtain ⟨hcontract, hleft⟩ := hok
  refine ⟨?_, hleft⟩
  cases c with
  | alarm => trivial
  | advance =>
      intro t hpc
      obtain ⟨hzero, hnew⟩ := hcontract t hpc
      refine ⟨hzero, ?_, Or.inl hnew⟩
      intro hmem
      obtain ⟨hinit, htable⟩ := hlink.member t hmem
      exact ((hgood.after hinit).core.tables.table _ t htable).1 hnew
  | call d =>
      cases d with
      | join t v => exact hcontract
      | mutexInit m memory =>
          intro q hq
          obtain ⟨x, hx⟩ := hfollows m
          have hnil := hx.queue
          rw [hx.unused hcontract.1, queueOf, hq] at hnil
          exact hnil
      | destroy m => exact hcontract.elim
      | _ => trivial

private theorem follows_initial (hinit : Initial a.state) (hhist : a.history = []) (m : Nat) :
    Follows m a ⟨.free, []⟩ := by
  constructor
  case run =>
    rw [hhist]
    exact .nil
  case user =>
    rw [hinit.mutex]
    rfl
  case queue =>
    rw [queueOf, hinit.mutex]
    rfl
  case place =>
    intro z hz
    rw [hinit.pc, Function.update_apply] at hz
    split at hz
    · cases hz
    · cases hz
  case there =>
    intro z hz
    cases hz
  case unused => exact fun _ => rfl

private theorem initialising_initial (hinit : Initial a.state) : Initialising a := by
  have hnone : ∀ z k, (a.state.pc z).initialises ≠ some k := by
    intro z k hz
    rw [hinit.pc, Function.update_apply] at hz
    split at hz
    · cases hz
    · cases hz
  exact ⟨fun z m hz => absurd hz (hnone z m), fun z _ m hz => absurd hz (hnone z m)⟩

/-- **Every mutex is a lock** in every run that meets the condition. -/
theorem follows_of_reached (h : Reached HandOk a) :
    Reached IdsOk a ∧ Initialising a ∧ ∀ m, ∃ x, Follows m a x := by
  apply h.invariant (I := fun a => Reached IdsOk a ∧ Initialising a ∧ ∀ m, ∃ x, Follows m a x)
  · intro b hb
    exact ⟨.start hb, initialising_initial hb.1, fun m => ⟨_, follows_initial hb.1 hb.2 m⟩⟩
  · intro b c d _ hb hstep
    obtain ⟨hreach, hnew, hfollows⟩ := hb
    obtain ⟨hgood, hlink⟩ := linked_of_reached hreach
    obtain ⟨hok, s, e, hexec, rfl⟩ := hstep
    have hids := hok.idsOk hgood hlink hfollows
    refine ⟨hreach.next ⟨hids, s, e, hexec, rfl⟩, hnew.step hok.1 (exec_listStep hexec), ?_⟩
    intro m
    obtain ⟨x, hx⟩ := hfollows m
    have hlock : LockStep m b.state c s e := by
      refine exec_lockStep hexec (unstarted_of_reached hreach) ?_ ?_
      · intro hc t hpc
        subst hc
        exact (hok.1 t hpc).2
      · intro k hk
        subst hk
        exact hok.1
    exact hx.step hgood hnew hok.1 hlock

end Runs

/-- **Mutual exclusion and hand-over.**  In a run that meets the condition one thread at a time is
between a successful lock and its next unlock of a mutex, those who wait get it in their order,
and between an unlock and the return of the chosen one nobody else does. -/
theorem mutex_handed_over {a : World} (h : Reached HandOk a) (m : Nat) :
    Locks.HandsOver (lockEvents m a.history) := by
  obtain ⟨x, hx⟩ := (follows_of_reached h).2.2 m
  exact hx.run.handsOver

section Play

variable {s s' u : State} {c : Action} {calls : List Action} {r t n : Nat} {rest : List Nat}
  {hist evs : List (Nat × Event)}

/-- A step that keeps the contract, joins nothing and uses no mutex but mutex 0. -/
def plays (s : State) : Action → Bool
  | .call (.join _ _) | .call (.mutexInit _ _) | .call (.destroy _) => false
  | .call (.lock (some m)) | .call (.unlock m) => decide (m = 0)
  | .advance =>
    match s.pc s.current with
    | .creating t .available => decide (t ≠ 0 ∧ s.pc t = .unborn)
    | _ => true
  | _ => true

/-- Where a list of such steps leads, and what happens on the way. -/
def played : List Action → State → Option (State × List (Nat × Event))
  | [], s => some (s, [])
  | c :: rest, s =>
    if plays s c then
      (exec s c).bind fun out =>
        (played rest out.1).map fun last => (last.1, (s.current, out.2) :: last.2)
    else none

private theorem played_nil (s : State) : played [] s = some (s, []) := rfl

private theorem played_cons {out : State × Event} {last : State × List (Nat × Event)}
    (hplays : plays s c = true) (hexec : exec s c = some out)
    (hrest : played calls out.1 = some last) :
    played (c :: calls) s = some (last.1, (s.current, out.2) :: last.2) := by
  rw [played, if_pos hplays, hexec, Option.bind_some, hrest]
  rfl

private theorem played_inv {last : State × List (Nat × Event)}
    (h : played (c :: calls) s = some last) : plays s c = true ∧ ∃ out, exec s c = some out ∧
      ∃ evs, played calls out.1 = some (last.1, evs) ∧ last.2 = (s.current, out.2) :: evs := by
  rw [played] at h
  split at h
  case isFalse => cases h
  case isTrue hplays =>
    obtain ⟨out, hexec, h⟩ := Option.bind_eq_some_iff.mp h
    obtain ⟨x, hx, rfl⟩ := Option.map_eq_some_iff.mp h
    exact ⟨hplays, out, hexec, x.2, hx, rfl⟩

private theorem contract_of_plays (hinit : inited 0 hist = true) (h : plays s c = true) :
    Contract ⟨s, hist⟩ c := by
  cases c with
  | alarm => trivial
  | advance =>
      intro t hpc
      dsimp only at hpc
      unfold plays at h
      rw [hpc] at h
      obtain ⟨hzero, hnew⟩ := of_decide_eq_true h
      exact ⟨hzero, congrArg Pc.stage hnew⟩
  | call d =>
      cases d with
      | join | mutexInit | destroy => cases h
      | unlock m =>
          obtain rfl : m = 0 := of_decide_eq_true h
          exact hinit
      | lock m =>
          cases m with
          | none => trivial
          | some m =>
              obtain rfl : m = 0 := of_decide_eq_true h
              exact hinit
      | create | yield | exit => trivial

/-- A mutex stays initialised. -/
theorem inited_more (hinit : inited m hist = true) : inited m (hist ++ evs) = true := by
  unfold inited at hinit ⊢
  rw [List.any_append, hinit, Bool.true_or]

/-- Such a list of steps keeps the contract. -/
theorem Reached.played (h : Reached Contract ⟨s, hist⟩) (hinit : inited 0 hist = true)
    (hplayed : Threads.played calls s = some (s', evs)) : Reached Contract ⟨s', hist ++ evs⟩ := by
  induction calls generalizing s hist evs with
  | nil =>
      obtain ⟨rfl, rfl⟩ := Prod.mk.inj (Option.some.inj hplayed)
      rw [List.append_nil]
      exact h
  | cons c rest ih =>
      obtain ⟨hplays, ⟨u, e⟩, hexec, evs', hrest, heq⟩ := played_inv hplayed
      dsimp only at hrest heq
      have hok := contract_of_plays hinit hplays
      have hlast := ih (h.next ⟨hok, u, e, hexec, rfl⟩) (inited_more hinit) hrest
      rw [List.append_assoc] at hlast
      rw [heq]
      exact hlast

/-- Such a step leaves an ID for each new thread while the counter is below its limit. -/
theorem handOk_of_plays (h : Reached HandOk ⟨s, hist⟩) (hinit : inited 0 hist = true)
    (hplays : plays s c = true) (hcount : s.threadCount < threadLim) : HandOk ⟨s, hist⟩ c := by
  obtain ⟨hgood, hlink⟩ := linked_of_reached (follows_of_reached h).1
  refine ⟨contract_of_plays hinit hplays, ?_⟩
  intro _ t hpc
  exact idLeft_of_count hgood hlink (hgood.creating_init hpc) hcount

/-- Steps of few threads keep the condition. -/
theorem Reached.played_few (h : Reached HandOk ⟨s, hist⟩) (hinit : inited 0 hist = true)
    (hfew : allowed (fun u _ => decide (u.threadCount < threadLim)) calls s = true)
    (hplayed : Threads.played calls s = some (s', evs)) : Reached HandOk ⟨s', hist ++ evs⟩ := by
  induction calls generalizing s hist evs with
  | nil =>
      obtain ⟨rfl, rfl⟩ := Prod.mk.inj (Option.some.inj hplayed)
      rw [List.append_nil]
      exact h
  | cons c rest ih =>
      obtain ⟨hplays, ⟨u, e⟩, hexec, evs', hrest, heq⟩ := played_inv hplayed
      dsimp only at hrest heq
      unfold allowed at hfew
      rw [hexec, Option.any_some, Bool.and_eq_true] at hfew
      have hok := handOk_of_plays h hinit hplays (of_decide_eq_true hfew.1)
      have hlast := ih (h.next ⟨hok, u, e, hexec, rfl⟩) (inited_more hinit) hfew.2 hrest
      rw [heq]
      rwa [List.append_assoc] at hlast

/-- No thread joins another one. -/
theorem played_alone (h : ∀ z, (s.stage z).wanted = none)
    (hplayed : played calls s = some (s', evs)) (z : Nat) : (s'.stage z).wanted = none := by
  induction calls generalizing s evs with
  | nil =>
      obtain ⟨rfl, rfl⟩ := Prod.mk.inj (Option.some.inj hplayed)
      exact h z
  | cons c rest ih =>
      obtain ⟨hplays, ⟨u, e⟩, hexec, evs', hrest, heq⟩ := played_inv hplayed
      refine ih ?_ hrest
      intro y
      by_contra hsome
      obtain ⟨j, hj⟩ := Option.ne_none_iff_exists'.mp hsome
      rcases (exec_moves hexec).wants hj with hold | ⟨t, v, rfl, _⟩
      · rw [h y] at hold
        cases hold
      · cases hplays

/-- The first thread of the only queue is dispatched. -/
theorem handler_front (hr : s.running = some r)
    (hswitch : switchStatus r s.pauseTimer = (u, false)) (hcurrent : u.currentPriority = 0)
    (hrounds : u.runAtPriority = 0)
    (hlevel : u.level = Function.update (fun _ => []) 0 (t :: rest)) :
    schedulerAlarmHandler s = some { u with
      level := Function.update (fun _ => []) 0 rest, running := some t, armed := true } := by
  have hfind : findThread 6 (updateCounters u) = some { u with
      level := Function.update (fun _ => []) 0 rest, running := some t } := by
    simp [updateCounters, hcurrent, hrounds, nextLevel, findThread, getNext, hlevel, Int.tmod]
  unfold schedulerAlarmHandler
  rw [hr]
  dsimp only
  rw [hswitch]
  dsimp only
  rw [if_neg Bool.false_ne_true, hfind]
  rfl

/-- `main` has initialised mutex 0 and made `n` threads, and each of them has exited. -/
def idleState (n : Nat) (status : Status) (cont : Bool) : State where
  init := true
  thread t := if t = 0 then ⟨0, 0, 0, 0, status, 0⟩
    else if t ≤ n then ⟨t, 0, 0, -1, .threadExit, 0⟩ else ⟨0, 0, 0, 0, .active, 0⟩
  pc t := if t = 0 then .own else if t ≤ n then .exited else .unborn
  running := some 0
  level := Function.update (fun _ => []) 0 []
  currentPriority := 0
  runAtPriority := 0
  threadCount := n + 1
  tidList := []
  threadTable i := if 1 ≤ i ∧ i ≤ n then some i.toNat else none
  waiting _ := none
  done i := decide (1 ≤ i ∧ i ≤ n)
  mutex := Function.update (fun _ => ⟨none, none⟩) 0 ⟨some [], none⟩
  mutexList := Function.update (fun _ => none) 0 (some 0)
  armed := true
  cont := cont

/-- `main` has made one thread more. -/
def bornState (n : Nat) (status : Status) : State :=
  { idleState n status true with
    thread := Function.update (idleState n status true).thread (n + 1) ⟨n + 1, 0, 0, -1, .active, 0⟩
    pc := Function.update (idleState n status true).pc (n + 1) .own
    level := Function.update (fun _ => []) 0 [n + 1]
    threadCount := n + 2
    threadTable := Function.update (idleState n status true).threadTable (n + 1) (some (n + 1)) }

/-- The new thread runs. -/
def turnState (n : Nat) : State :=
  { bornState n .yield with
    level := Function.update (fun _ => []) 0 [0]
    running := some (n + 1) }

/-- The new thread has exited, and the next one is not dispatched yet. -/
def leftState (n : Nat) : State :=
  { turnState n with
    thread := Function.update (turnState n).thread (n + 1) ⟨n + 1, 0, 0, -1, .threadExit, 0⟩
    pc := Function.update (turnState n).pc (n + 1) .exited
    done := Function.update (turnState n).done (n + 1) true
    armed := false }

/-- Nobody is inside a join. -/
theorem bornState_alone (n : Nat) (status : Status) (z : Nat) :
    ((bornState n status).stage z).wanted = none := by
  simp only [State.stage, bornState, idleState, Function.update_apply]
  split
  · rfl
  · split
    · rfl
    · split <;> rfl

/-- The first `n` numbers are used up. -/
theorem idle_creates (hn : n < 999) (status : Status) (cont : Bool) :
    played [.call (.create (n + 1) .available), .advance] (idleState n status cont) =
      some (bornState n status, [(0, .silent), (0, .creates (n + 1))]) := by
  have hid : ¬ threadLim ≤ (n : Int) + 1 := by
    simp only [threadLim]
    omega
  have hcall : exec (idleState n status cont) (.call (.create (n + 1) .available)) =
      some ((idleState n status cont).goto (.creating (n + 1) .available), .silent) := rfl
  have hadvance : exec ((idleState n status cont).goto (.creating (n + 1) .available)) .advance =
      some (bornState n status, .creates (n + 1)) := by
    have hstep : exec ((idleState n status cont).goto (.creating (n + 1) .available)) .advance =
        creating (n + 1) .available
          ((idleState n status cont).goto (.creating (n + 1) .available)) := rfl
    rw [hstep]
    unfold creating createThread getId
    simp [State.goto, State.pauseTimer, State.resumeTimer, State.setThread, enqueue, bornState,
      State.current, idleState, hid]
    refine ⟨?_, by omega⟩
    funext z
    by_cases hz : z = 0
    · simp [hz]
    · simp [Function.update_apply, hz]
  have hplays : plays ((idleState n status cont).goto (.creating (n + 1) .available)) .advance =
      true := by
    simp [plays, State.goto, State.current, idleState]
  exact played_cons rfl hcall (played_cons hplays hadvance (played_nil _))

/-- `main` gives way to the new thread. -/
theorem born_yields (n : Nat) (status : Status) :
    played [.call .yield, .advance] (bornState n status) =
      some (turnState n, [(0, .silent), (0, .silent)]) := by
  have hpc : (bornState n .yield).pc 0 = .own := by simp [bornState, idleState]
  have hcall : exec (bornState n status) (.call .yield) =
      some ((bornState n .yield).goto .yieldRaise, .silent) := by
    have hown : (bornState n status).pc 0 = .own := hpc
    have hthread : (bornState n status).setThread 0 (fun x => { x with status := .yield }) =
        bornState n .yield := by
      unfold State.setThread
      have hthread : Function.update (bornState n status).thread 0
          { (bornState n status).thread 0 with status := .yield } =
            (bornState n .yield).thread := by
        funext z
        by_cases hz : z = 0
        · subst hz
          simp [bornState, idleState]
        · simp [bornState, idleState, Function.update_apply, hz]
      rw [hthread]
      rfl
    show (if (bornState n status).pc 0 = .own then
      some (((bornState n status).setThread 0 fun x => { x with status := .yield }).goto
        .yieldRaise, Event.silent) else none) = _
    rw [if_pos hown, hthread]
  have hswitch : switchStatus 0 (bornState n .yield).pauseTimer =
      ({ (bornState n .yield).pauseTimer with
        level := Function.update (fun _ => []) 0 [n + 1, 0] }, false) := by
    simp [switchStatus, State.pauseTimer, enqueue, bornState, idleState]
  have hadvance : exec ((bornState n .yield).goto .yieldRaise) .advance =
      some (turnState n, .silent) := by
    have hstep : exec ((bornState n .yield).goto .yieldRaise) .advance =
        (raise .own ((bornState n .yield).goto .yieldRaise)).map fun s => (s, .silent) := by
      show advance ((bornState n .yield).goto .yieldRaise) = _
      unfold advance
      rw [pc_goto]
    rw [hstep, raise, goto_goto, goto_self (by exact hpc), handler_front rfl hswitch rfl rfl rfl]
    rfl
  exact played_cons rfl hcall (played_cons rfl hadvance (played_nil _))

private theorem leftState_idle (n : Nat) : { leftState n with
    cont := false, level := Function.update (fun _ => []) 0 [], running := some 0
    armed := true } = idleState (n + 1) .yield false := by
  have hthread : (leftState n).thread = (idleState (n + 1) .yield false).thread := by
    funext z
    by_cases hlast : z = n + 1
    · subst hlast
      simp [leftState, idleState]
    · have hle : z ≤ n + 1 ↔ z ≤ n := by omega
      simp [leftState, turnState, bornState, idleState, hlast, hle]
  have hpc : (leftState n).pc = (idleState (n + 1) .yield false).pc := by
    funext z
    by_cases hlast : z = n + 1
    · subst hlast
      simp [leftState, idleState]
    · have hle : z ≤ n + 1 ↔ z ≤ n := by omega
      simp [leftState, turnState, bornState, idleState, hlast, hle]
  have htable : (leftState n).threadTable = (idleState (n + 1) .yield false).threadTable := by
    funext i
    by_cases hlast : i = n + 1
    · subst hlast
      simp [leftState, turnState, bornState, idleState]
    · have hle : i ≤ n + 1 ↔ i ≤ n := by omega
      simp [leftState, turnState, bornState, idleState, hlast, hle]
  have hdone : (leftState n).done = (idleState (n + 1) .yield false).done := by
    funext i
    by_cases hlast : i = n + 1
    · subst hlast
      simp [leftState, turnState, bornState, idleState]
    · have hle : i ≤ n + 1 ↔ i ≤ n := by omega
      simp [leftState, turnState, bornState, idleState, hlast, hle]
  have hcount : (leftState n).threadCount = (idleState (n + 1) .yield false).threadCount := by
    show (n : Int) + 2 = ((n + 1 : Nat) : Int) + 1
    omega
  calc _ = { idleState (n + 1) .yield false with
        thread := (leftState n).thread, pc := (leftState n).pc
        threadTable := (leftState n).threadTable, done := (leftState n).done
        threadCount := (leftState n).threadCount } := rfl
    _ = idleState (n + 1) .yield false := by rw [hthread, hpc, htable, hdone, hcount]

/-- The new thread exits. -/
theorem turn_exits (n : Nat) : played [.call (.exit 0)] (turnState n) =
    some (idleState (n + 1) .yield false, [(n + 1, .exits 0)]) := by
  have hexec : exec (turnState n) (.call (.exit 0)) =
      (schedulerAlarmHandler (leftState n)).map fun s => (s, .exits 0) := by
    have hown : (turnState n).pc (n + 1) = .own := by simp [turnState, bornState]
    have hthread : (turnState n).thread (n + 1) = ⟨n + 1, 0, 0, -1, .active, 0⟩ := by
      simp [turnState, bornState]
    have hleft : State.goto .exited { (turnState n).pauseTimer.setThread (n + 1) (fun x =>
          { x with ret := 0, status := .threadExit }) with
        done := Function.update (turnState n).done (n + 1) true } = leftState n := by
      unfold State.setThread
      rw [show (turnState n).pauseTimer.thread = (turnState n).thread from rfl, hthread]
      rfl
    have hid : (Function.update (turnState n).thread (n + 1)
        { (turnState n).thread (n + 1) with ret := 0, status := .threadExit } (n + 1)).id =
        (n : Int) + 1 := by
      rw [Function.update_self, hthread]
    have hcall : exec (turnState n) (.call (.exit 0)) =
        if (turnState n).pc (n + 1) = .own then pthreadExit 0 (turnState n) else none := rfl
    have hexit : pthreadExit 0 (turnState n) = (schedulerAlarmHandler (State.goto .exited
        { (turnState n).pauseTimer.setThread (n + 1) (fun x =>
            { x with ret := 0, status := .threadExit }) with
          done := Function.update (turnState n).done (Function.update (turnState n).thread (n + 1)
            { (turnState n).thread (n + 1) with ret := 0, status := .threadExit }
            (n + 1)).id true })).bind fun s => some (s, .exits 0) := rfl
    rw [hcall, if_pos hown, hexit, hid, hleft]
    cases schedulerAlarmHandler (leftState n) <;> rfl
  have hswitch : switchStatus (n + 1) (leftState n).pauseTimer =
      ({ leftState n with cont := false }, false) := by
    simp [switchStatus, State.pauseTimer, leftState, turnState, bornState, idleState]
  have hcall : exec (turnState n) (.call (.exit 0)) =
      some (idleState (n + 1) .yield false, .exits 0) := by
    rw [hexec, handler_front rfl hswitch rfl rfl rfl, ← leftState_idle]
    rfl
  exact played_cons rfl hcall (played_nil _)

private theorem enteredState_born : enteredState = bornState 0 .active := by
  have hthread : initState.thread = (bornState 0 .active).thread := by
    funext t
    by_cases h0 : t = 0
    · subst h0
      rfl
    · by_cases h1 : t = 1
      · subst h1
        rfl
      · have hleft : initState.thread t = ⟨0, 0, 0, 0, .active, 0⟩ :=
          (Function.update_of_ne h1 ..).trans (Function.update_of_ne h0 ..)
        simp [hleft, bornState, idleState, h0, h1]
  have hpc : initState.pc = (bornState 0 .active).pc := by
    funext t
    by_cases h0 : t = 0
    · subst h0
      rfl
    · by_cases h1 : t = 1
      · subst h1
        rfl
      · have hblank : blankWorld.state.pc t = .unborn := by simp [blankWorld, h0]
        have hleft : initState.pc t = blankWorld.state.pc t :=
          (Function.update_of_ne h0 ..).trans
            ((Function.update_of_ne h1 ..).trans (Function.update_of_ne h0 ..))
        simp [hleft, hblank, bornState, idleState, h0, h1]
  have htable : initState.threadTable = (bornState 0 .active).threadTable := by
    funext i
    by_cases h1 : i = 1
    · subst h1
      rfl
    · have hnone : ¬ (1 ≤ i ∧ i ≤ 0) := by omega
      have hleft : initState.threadTable i = none := Function.update_of_ne h1 ..
      simp [hleft, bornState, idleState, h1, hnone]
  have hdone : initState.done = (bornState 0 .active).done := by
    have hleft : initState.done = fun _ => false := Function.update_eq_self ..
    funext i
    have hnone : ¬ (1 ≤ i ∧ i ≤ ((0 : Nat) : Int)) := by omega
    rw [hleft]
    exact (decide_eq_false hnone).symm
  have hwaiting : initState.waiting = (bornState 0 .active).waiting := Function.update_eq_self ..
  calc _ = { bornState 0 .active with
        thread := initState.thread, pc := initState.pc, threadTable := initState.threadTable
        waiting := initState.waiting, done := initState.done } := rfl
    _ = bornState 0 .active := by rw [hthread, hpc, htable, hwaiting, hdone]

/-- Steps other than a creation meet the condition. -/
theorem handOk_advance {p : Pc} (hpc : s.pc s.current = p)
    (hp : ∀ t, p ≠ .creating t .available) : HandOk ⟨s, hist⟩ .advance :=
  ⟨fun t ht => absurd (hpc.symm.trans ht) (hp t), fun _ t ht => absurd (hpc.symm.trans ht) (hp t)⟩

/-- `main` creates a thread and initialises mutex 0. -/
theorem reached_initialised :
    ∃ hist, inited 0 hist = true ∧ Reached HandOk ⟨bornState 0 .active, hist⟩ := by
  have hcreated : Reached HandOk createdWorld := by
    refine reached_createdWorld ⟨trivial, fun h => by cases h⟩ ⟨?_, ?_⟩
    · intro t ht
      obtain ⟨rfl, _⟩ := Pc.creating.inj ht
      exact ⟨by decide, rfl⟩
    · intro _ t _
      exact created_ids.2 rfl _ rfl
  have hcall : HandOk createdWorld (.call (.mutexInit 0 true)) := by
    refine ⟨⟨rfl, ?_⟩, fun h => by cases h⟩
    intro z hz
    rw [show createdWorld.state.pc z = initState.pc z from rfl, initState_idle] at hz
    cases hz
  obtain ⟨hist, h⟩ := hcreated.entered hcall
    (fun u m i hist hpc => handOk_advance hpc fun t heq => by cases heq)
    fun p hp hist => handOk_advance (pc_goto ..) fun t heq => by simp [heq] at hp
  rw [enteredState_born] at h
  refine ⟨_, ?_, h⟩
  rw [inited_append]
  simp

/-- One round. -/
theorem born_again (hn : n + 1 < 999) {status : Status} (hinit : inited 0 hist = true)
    (h : Reached Contract ⟨bornState n status, hist⟩) :
    ∃ hist, inited 0 hist = true ∧ Reached Contract ⟨bornState (n + 1) .yield, hist⟩ := by
  have hturn := h.played hinit (born_yields n status)
  have hidle := hturn.played (inited_more hinit) (turn_exits n)
  have hborn := hidle.played (inited_more (inited_more hinit)) (idle_creates hn .yield false)
  exact ⟨_, inited_more (inited_more (inited_more hinit)), hborn⟩

/-- **A run with `n` threads that are not joined.** -/
theorem reached_crowd (hn : n < 998) :
    ∃ hist, inited 0 hist = true ∧ Reached Contract ⟨bornState (n + 1) .yield, hist⟩ := by
  induction n with
  | zero =>
      obtain ⟨hist, hinit, h⟩ := reached_initialised
      exact born_again (by omega) hinit (h.mono fun _ _ _ hstep => ⟨hstep.1.1, hstep.2⟩)
  | succ n ih =>
      obtain ⟨hist, hinit, h⟩ := ih (by omega)
      exact born_again (by omega) hinit h

end Play

/-- `main` locks mutex 0 and gives way, thread 1 waits for it, `main` unlocks it, and thread 1
comes back with it. -/
def contended : List Action :=
  [.call (.lock (some 0)), .call .yield, .advance, .call (.lock (some 0)), .advance,
    .call (.unlock 0), .call .yield, .advance, .advance, .advance]

/-- `main` locks a mutex that it has initialised, and thread 1, which waits for it, gets it. -/
theorem mutex_handed_over_waiter :
    ∃ hist, Locks.HandsOver (lockEvents 0 (hist ++
      [(0, .locks 0), (0, .silent), (0, .silent), (1, .waits 0), (1, .silent),
        (0, .unlocks 0 (some 1)), (0, .silent), (0, .silent), (1, .silent), (1, .locks 0)])) := by
  obtain ⟨hist, hinit, h⟩ := reached_initialised
  have hplayed : (played contended (bornState 0 .active)).map Prod.snd =
      some [(0, .locks 0), (0, .silent), (0, .silent), (1, .waits 0), (1, .silent),
        (0, .unlocks 0 (some 1)), (0, .silent), (0, .silent), (1, .silent), (1, .locks 0)] := by
    decide +kernel
  obtain ⟨⟨s, evs⟩, hplayed, rfl⟩ := Option.map_eq_some_iff.mp hplayed
  have hlast := h.played_few hinit (by decide +kernel) hplayed
  exact ⟨hist, mutex_handed_over hlast 0⟩

/-- `main` creates two more threads when the IDs are used up. -/
def hiring : List Action :=
  [.call (.create 1000 .available), .advance, .call (.create 1001 .available), .advance]

/-- `main` waits for thread 1000 and is woken by it and by thread 1001, while thread 999 has the
mutex. -/
def wokenTwice : List Action :=
  [.advance, .advance, .advance, .advance, .call (.lock (some 0)), .call .yield, .advance,
    .call (.exit 0), .call (.exit 0), .call .yield, .advance, .advance, .call (.lock (some 0)),
    .advance, .advance, .advance]

/-- Threads 1000 and 1001 both have the ID -1.  `main`, which joins the first of them, is in the
ready queue twice then, and comes back from its signal in `my_pthread_mutex_lock` at once. -/
theorem mutex_taken_twice : ¬ ∀ a, Reached Contract a → ∀ m,
    Locks.HandsOver (lockEvents m a.history) := by
  intro hclaim
  have hsome : ((played hiring (bornState 998 .yield)).bind fun x =>
      (scanned 1000 false x.1).bind fun u =>
        (played wokenTwice u).map fun y => (x.2, y.2)) =
      some ([(0, .silent), (0, .creates 1000), (0, .silent), (0, .creates 1001)],
        [(0, .silent), (0, .silent), (0, .silent), (0, .silent), (999, .locks 0), (999, .silent),
          (999, .silent), (1000, .exits 0), (1001, .exits 0), (999, .silent), (999, .silent),
          (0, .joins 1000 1001 none), (0, .waits 0), (0, .silent), (0, .silent),
          (0, .locks 0)]) := by
    decide +kernel
  obtain ⟨⟨s, evs⟩, hhire, hsome⟩ := Option.bind_eq_some_iff.mp hsome
  obtain ⟨u, hscanned, hsome⟩ := Option.bind_eq_some_iff.mp hsome
  obtain ⟨⟨s', evs'⟩, hwoken, hsome⟩ := Option.map_eq_some_iff.mp hsome
  obtain ⟨hevs, hevs'⟩ := Prod.mk.inj hsome
  dsimp only at hscanned hevs hevs'
  obtain ⟨hist, hinit, hreach⟩ := reached_crowd (n := 997) (by decide)
  have hhired := hreach.played hinit hhire
  have hjoin : Contract ⟨s, hist ++ evs⟩ (.call (.join 1000 false)) := by
    refine ⟨?_, ?_⟩
    · have hmem : 1000 ∈ unjoined (hist ++ [(0, .silent)] ++ [(0, .creates 1000)] ++
          [(0, .silent)] ++ [(0, .creates 1001)]) := by
        simp only [unjoined_append]
        simp
      rw [hevs]
      simpa only [List.append_assoc, List.cons_append, List.nil_append] using hmem
    · intro z j hz
      rw [played_alone (bornState_alone 998 .yield) hhire z] at hz
      cases hz
  have hscan : ∀ u j i hist, u.pc u.current = .joinScan j i → Contract ⟨u, hist⟩ .advance := by
    intro u j i hist hpc t ht
    cases hpc.symm.trans ht
  obtain ⟨more, hjoined⟩ := hhired.scanned hjoin hscan hscanned
  have hlast := hjoined.played (inited_more (inited_more hinit)) hwoken
  have hover := (hclaim _ hlast 0).exclusive 0 999
  have hevents : lockEvents 0 (hist ++ evs ++ more ++ evs') =
      lockEvents 0 (hist ++ evs ++ more) ++ [.locks 999, .waits 0, .locks 0] := by
    unfold lockEvents
    rw [List.filterMap_append, hevs']
    rfl
  rw [hevents] at hover
  have hequal := hover (by simp [Locks.holds]) (by simp [Locks.holds])
  cases hequal

end Threads
