import CS416.Lib.Lock
import CS416.Threads.MutexCycle

/-!
# The steps of a mutex

What a step does to the owner and the queue of a mutex, and which threads are
inside `my_pthread_mutex_lock` of it.  The events of the mutex are those of a
lock that is handed over.
-/

namespace Threads

/-- What an event of the thread `t` is for the mutex. -/
def lockEvent (m t : Nat) : Event → Option (Locks.Event Nat)
  | .locks k => if k = m then some (.locks t) else none
  | .waits k => if k = m then some (.waits t) else none
  | .unlocks k next => if k = m then some (.unlocks t next) else none
  | _ => none

/-- The mutex that a thread is about to get, or waits for. -/
def Pc.locks : Pc → Option Nat
  | .lockRaise m | .lockClaim m | .lockReturn m => some m
  | _ => none

/-- Nobody is at a place of the mutex that was not there. -/
def SamePlaces (m : Nat) (s s' : State) : Prop :=
  ∀ z, (s'.pc z).locks = some m ↔ (s.pc z).locks = some m

/-- What a step does to a mutex, and where the thread is that does it. -/
inductive LockStep (m : Nat) (s : State) : Action → State → Event → Prop
  | elsewhere {c : Action} {s' : State} {e : Event}
      (huser : (s'.mutex m).user = (s.mutex m).user) (hqueue : queueOf m s' = queueOf m s)
      (hplace : SamePlaces m s s') (hquiet : ∀ t, lockEvent m t e = none) : LockStep m s c s' e
  | takes {r : Nat} {s' : State} (hr : s.running = some r) (hfree : (s.mutex m).user = none)
      (huser : (s'.mutex m).user = some r) (hqueue : queueOf m s' = queueOf m s)
      (hplace : SamePlaces m s s') : LockStep m s (.call (.lock (some m))) s' (.locks m)
  | waits {r : Nat} {s' : State} (hr : s.running = some r) (hused : (s.mutex m).user ≠ none)
      (huser : (s'.mutex m).user = (s.mutex m).user)
      (hqueue : queueOf m s' = queueOf m s ++ [r])
      (hplace : ∀ z, (s'.pc z).locks = some m ↔ z = r ∨ (s.pc z).locks = some m) :
      LockStep m s (.call (.lock (some m))) s' (.waits m)
  | claims {s' : State} (hpc : s.pc s.current = .lockClaim m)
      (huser : (s'.mutex m).user = s.running) (hqueue : queueOf m s' = queueOf m s)
      (hplace : SamePlaces m s s') : LockStep m s .advance s' .silent
  | returns {s' : State} (hpc : s.pc s.current = .lockReturn m)
      (huser : (s'.mutex m).user = (s.mutex m).user) (hqueue : queueOf m s' = queueOf m s)
      (hplace : ∀ z, (s'.pc z).locks = some m ↔ z ≠ s.current ∧ (s.pc z).locks = some m) :
      LockStep m s .advance s' (.locks m)
  | frees {s' : State} (hown : s.pc s.current = .own) (hmine : (s.mutex m).user = s.running)
      (hnil : queueOf m s = []) (huser : (s'.mutex m).user = none) (hqueue : queueOf m s' = [])
      (hplace : SamePlaces m s s') : LockStep m s (.call (.unlock m)) s' (.unlocks m none)
  | hands {w : Nat} {rest : List Nat} {s' : State} (hown : s.pc s.current = .own)
      (hmine : (s.mutex m).user = s.running) (hcons : queueOf m s = w :: rest)
      (huser : (s'.mutex m).user = some w) (hqueue : queueOf m s' = rest)
      (hplace : SamePlaces m s s') : LockStep m s (.call (.unlock m)) s' (.unlocks m (some w))
  | renews {c : Action} {s' : State} {e : Event}
      (hc : (∃ memory, c = .call (.mutexInit m memory)) ∨
        (s.pc s.current).initialises = some m)
      (huser : (s'.mutex m).user = (s.mutex m).user ∨ (s'.mutex m).user = none)
      (hqueue : queueOf m s' = queueOf m s ∨ queueOf m s' = []) (hplace : SamePlaces m s s')
      (hquiet : ∀ t, lockEvent m t e = none) : LockStep m s c s' e

section Steps

variable {s s' u : State} {m k r : Nat} {c : Action} {e : Event} {p p' : Pc}

theorem SamePlaces.refl (m : Nat) (s : State) : SamePlaces m s s := fun _ => Iff.rfl

/-- The running thread goes on to another place. -/
theorem SamePlaces.goto (hpc : s'.pc = Function.update s.pc s.current p)
    (hp : p.locks = some m ↔ (s.pc s.current).locks = some m) : SamePlaces m s s' := by
  intro z
  rw [hpc, Function.update_apply]
  split
  case isTrue heq =>
    rw [heq]
    exact hp
  case isFalse heq => rfl

/-- A place outside the calls on mutexes is left for another one. -/
theorem SamePlaces.plain (hpc : s'.pc = Function.update s.pc s.current p)
    (hp : p.locks = none) (hold : (s.pc s.current).locks = none) : SamePlaces m s s' := by
  apply SamePlaces.goto hpc
  rw [hp, hold]

/-- The mutex is as it was. -/
theorem LockStep.same (hmutex : s'.mutex m = s.mutex m) (hplace : SamePlaces m s s')
    (hquiet : ∀ t, lockEvent m t e = none) : LockStep m s c s' e := by
  refine .elsewhere (by rw [hmutex]) ?_ hplace hquiet
  unfold queueOf
  rw [hmutex]

/-- What is new in the entry of the mutex. -/
theorem updated {x : Mutex} (hmutex : s'.mutex = Function.update s.mutex m x) :
    (s'.mutex m).user = x.user ∧ queueOf m s' = x.waiting.getD [] := by
  unfold queueOf
  rw [hmutex, Function.update_self]
  exact ⟨rfl, rfl⟩

private theorem updated_ne {x : Mutex} (hmutex : s'.mutex = Function.update s.mutex k x)
    (hk : m ≠ k) :
    s'.mutex m = s.mutex m := by
  rw [hmutex, Function.update_of_ne hk]

/-- The running thread goes to a place of the mutex. -/
theorem places_waits (hpc : s'.pc = Function.update s.pc s.current p) (hp : p.locks = some m)
    (z : Nat) : (s'.pc z).locks = some m ↔ z = s.current ∨ (s.pc z).locks = some m := by
  rw [hpc, Function.update_apply]
  split
  case isTrue heq => exact iff_of_true hp (Or.inl heq)
  case isFalse heq => simp [heq]

/-- The running thread comes back from the call. -/
theorem places_returns (hpc : s'.pc = Function.update s.pc s.current p) (hp : p.locks = none)
    (z : Nat) : (s'.pc z).locks = some m ↔ z ≠ s.current ∧ (s.pc z).locks = some m := by
  rw [hpc, Function.update_apply]
  split
  case isTrue heq => simp [heq, hp]
  case isFalse heq => simp [heq]

/-- What concerns another mutex does not concern this one. -/
theorem lockEvent_ne (hk : k ≠ m) (t : Nat) (next : Option Nat) :
    lockEvent m t (.locks k) = none ∧ lockEvent m t (.waits k) = none ∧
      lockEvent m t (.unlocks k next) = none := by
  simp [lockEvent, hk]

/-- Raising the signal moves the caller only. -/
theorem raise_pc (h : raise p s = some s') : s'.pc = Function.update s.pc s.current p :=
  (schedulerAlarmHandler_frame h).pc

private theorem raise_mutex (h : raise p s = some s') : s'.mutex = s.mutex :=
  (schedulerAlarmHandler_frame h).mutex

/-- A call from a thread's own code. -/
theorem call_lockStep {c : Call} (h : exec s (.call c) = some (s', e)) (hstart : Unstarted s)
    (hkeep : ∀ k, c ≠ .destroy k) : LockStep m s (.call c) s' e := by
  have hsilent : ∀ t, lockEvent m t .silent = none := fun _ => rfl
  have hplain : s.pc s.current = .own → (s.pc s.current).locks = none := fun hown => by
    rw [hown]
    rfl
  cases exec_moves h with
  | @starts t res hown =>
      cases hinit : s.init with
      | true =>
          rw [if_pos rfl]
          exact .same rfl (.plain rfl rfl (hplain hown)) hsilent
      | false =>
          rw [if_neg Bool.false_ne_true]
          have hcur : s.current = 0 := by
            unfold State.current
            rw [hstart hinit]
            rfl
          have hpc : ((schedulerInit s).goto (.creating t res)).pc =
              Function.update s.pc s.current (.creating t res) := by
            rw [hcur]
            rfl
          exact .same rfl (.plain hpc rfl (hplain hown)) hsilent
  | refuses armed cont hown => exact .same rfl (.refl m s) fun _ => rfl
  | yields hown hr => exact .same rfl (.plain rfl rfl (hplain hown)) hsilent
  | @exits r value u hown hr hraise =>
      have hmutex : s'.mutex = s.mutex := (raise_mutex hraise).trans rfl
      have hpc : s'.pc = Function.update s.pc s.current .exited := (raise_pc hraise).trans rfl
      exact .same (congrFun hmutex m) (.plain hpc rfl (hplain hown)) fun _ => rfl
  | enters hown => exact .same rfl (.plain rfl rfl (hplain hown)) hsilent
  | @noMemory k hown =>
      by_cases hk : m = k
      · subst hk
        have hmutex : (s.setMutex m { s.mutex m with waiting := none }).mutex =
            Function.update s.mutex m { s.mutex m with waiting := none } := rfl
        obtain ⟨huser, hqueue⟩ := updated hmutex
        exact .renews (Or.inl ⟨false, rfl⟩) (Or.inl huser) (Or.inr hqueue) (.refl m s)
          fun _ => rfl
      · exact .same (updated_ne rfl hk) (.refl m s) fun _ => rfl
  | @queues k hown =>
      have hplace : SamePlaces m s ((s.setMutex k { s.mutex k with waiting := some [] }).goto
          (.initScan k 0)) := .plain rfl rfl (hplain hown)
      by_cases hk : m = k
      · subst hk
        have hmutex : ((s.setMutex m { s.mutex m with waiting := some [] }).goto
            (.initScan m 0)).mutex =
              Function.update s.mutex m { s.mutex m with waiting := some [] } := rfl
        obtain ⟨huser, hqueue⟩ := updated hmutex
        exact .renews (Or.inl ⟨true, rfl⟩) (Or.inl huser) (Or.inr hqueue) hplace hsilent
      · exact .same (updated_ne rfl hk) hplace hsilent
  | @locks k armed cont hown hrun hfree =>
      obtain ⟨r, hr⟩ := Option.ne_none_iff_exists'.mp hrun
      by_cases hk : m = k
      · subst hk
        have hmutex : { s.setMutex m { s.mutex m with user := s.running } with
            armed := armed, cont := cont }.mutex =
              Function.update s.mutex m { s.mutex m with user := s.running } := rfl
        obtain ⟨huser, hqueue⟩ := updated hmutex
        exact .takes hr hfree (huser.trans hr) hqueue (.refl m s)
      · exact .same (updated_ne rfl hk) (.refl m s) fun t => (lockEvent_ne (Ne.symm hk) t none).1
  | @waits k r queue armed cont hown hr huser hother hqueue =>
      have hcur := current_of_running hr
      generalize hs' : State.goto (.lockRaise k) _ = s'
      have hmutex : s'.mutex = Function.update s.mutex k
          { s.mutex k with waiting := some (queue ++ [r]) } := by
        rw [← hs']
        rfl
      have hpc : s'.pc = Function.update s.pc s.current (.lockRaise k) := by
        rw [← hs']
        rfl
      by_cases hk : m = k
      · subst hk
        obtain ⟨huser', hqueue'⟩ := updated hmutex
        have hold : queueOf m s = queue := by
          rw [queueOf, hqueue]
          rfl
        refine .waits hr huser huser' (by rw [hqueue', hold]; rfl) ?_
        rw [← hcur]
        exact places_waits hpc rfl
      · refine .same (updated_ne hmutex hk) (.goto hpc ?_) fun t =>
          (lockEvent_ne (Ne.symm hk) t none).2.1
        rw [hplain hown]
        simp [Pc.locks, Ne.symm hk]
  | @unlocks k armed cont hown huser hqueue =>
      by_cases hk : m = k
      · subst hk
        have hnil : queueOf m s = [] := by
          rw [queueOf, hqueue]
          rfl
        have hmutex : { s.setMutex m { s.mutex m with user := none } with
            armed := armed, cont := cont }.mutex =
              Function.update s.mutex m { s.mutex m with user := none } := rfl
        obtain ⟨huser', hqueue'⟩ := updated hmutex
        exact .frees hown huser hnil huser' (hqueue'.trans hnil) (.refl m s)
      · exact .same (updated_ne rfl hk) (.refl m s) fun t => (lockEvent_ne (Ne.symm hk) t none).2.2
  | @hands k w rest armed cont hown huser hqueue =>
      generalize hs' : State.mk _ _ _ _ _ _ _ _ _ _ _ _ _ _ _ _ = s'
      have hmutex : s'.mutex = Function.update s.mutex k ⟨some rest, some w⟩ := by
        rw [← hs']
        rfl
      have hplace : SamePlaces m s s' := by
        rw [← hs']
        exact .refl m s
      by_cases hk : m = k
      · subst hk
        have hcons : queueOf m s = w :: rest := by
          rw [queueOf, hqueue]
          rfl
        obtain ⟨huser', hqueue'⟩ := updated hmutex
        exact .hands hown huser hcons huser' hqueue' hplace
      · exact .same (updated_ne hmutex hk) hplace fun t =>
          (lockEvent_ne (Ne.symm hk) t (some w)).2.2
  | @destroys k queue armed cont hown hqueue => exact absurd rfl (hkeep k)

/-- A thread that is initialising a mutex. -/
theorem init_lockStep (h : advance s = some (s', e))
    (hp : (s.pc s.current).initialises = some k) : LockStep m s .advance s' e := by
  have hlocks : (s.pc s.current).locks = none := by
    cases hpc : s.pc s.current with
    | lockRaise | lockClaim | lockReturn =>
        rw [hpc] at hp
        cases hp
    | _ => rfl
  cases init_listStep h hp with
  | elsewhere _ _ _ hother => exact absurd hp (hother k rfl)
  | hits | misses | scanned | finds | taken =>
      exact .same rfl (.plain rfl rfl hlocks) fun _ => rfl
  | full | stores => exact .same rfl (.plain rfl rfl hlocks) fun _ => rfl
  | @resets k' hpc =>
      have hplace : SamePlaces m s ((s.setMutex k' { s.mutex k' with user := none }).goto
          (.initAdd k' 0)) := .plain rfl rfl hlocks
      by_cases hk : m = k'
      · subst hk
        have hmutex : ((s.setMutex m { s.mutex m with user := none }).goto (.initAdd m 0)).mutex =
            Function.update s.mutex m { s.mutex m with user := none } := rfl
        obtain ⟨huser, hqueue⟩ := updated hmutex
        exact .renews (Or.inr (by rw [hpc]; rfl)) (Or.inr huser) (Or.inl hqueue) hplace
          fun _ => rfl
      · exact .same (updated_ne rfl hk) hplace fun _ => rfl

private theorem locks_of_asking {j : Target} (h : p.stage = .asking j) : p.locks = none := by
  cases p with
  | joinScan | joinTable => rfl
  | _ => cases h

private theorem locks_of_signal (h : p.afterSignal = some p') : p'.locks = p.locks := by
  cases p with
  | yieldRaise | joinRaise | lockRaise =>
      obtain rfl := Option.some.inj h
      rfl
  | _ => cases h

/-- A signal does not bring a thread to another mutex. -/
theorem signal_lockStep (h : raise p' s = some s') (hp : p'.locks = (s.pc s.current).locks) :
    LockStep m s .advance s' .silent := by
  have hpc : s'.pc = Function.update s.pc s.current p' := raise_pc h
  refine .same (congrFun (raise_mutex h) m) (.goto hpc ?_) fun _ => rfl
  rw [hp]

private theorem locks_of_unborn (h : p.stage = .unborn) : p.locks = none := by
  cases p with
  | unborn => rfl
  | _ => cases h

/-- A thread that waits for a mutex is inside the lock. -/
theorem locks_of_locking (h : p.stage = .locking m) : p.locks = some m := by
  cases p with
  | lockRaise k | lockClaim k =>
      obtain rfl := Stage.locking.inj h
      rfl
  | _ => cases h

/-- A new thread is at no mutex. -/
theorem created_lockStep {t : Nat} (hnew : s.stage t = .unborn)
    (hlocks : (s.pc s.current).locks = none) (armed cont : Bool) :
    LockStep m s .advance ({ createThread t s with armed := armed, cont := cont }.goto .own)
      (.creates t) := by
  refine .same (congrFun (createThread_mutex t s).2 m) ?_ fun _ => rfl
  intro z
  rw [created_pc, Function.update_apply]
  split
  case isTrue heq =>
    rw [heq, hlocks]
    rfl
  case isFalse hne =>
    rw [Function.update_apply]
    split
    case isTrue heq =>
      rw [heq, locks_of_unborn hnew]
      rfl
    case isFalse hne' => rfl

/-- A step of a thread that neither initialises a mutex nor joins. -/
theorem plain_lockStep (h : advance s = some (s', e)) (hp : (s.pc s.current).initialises = none)
    (hplain : (s.pc s.current).stage = .plain)
    (hnew : ∀ t, s.pc s.current = .creating t .available → s.stage t = .unborn) :
    LockStep m s .advance s' e := by
  unfold advance at h
  cases hpc : s.pc s.current with
  | own =>
      rw [hpc] at h
      cases h
  | creating t res =>
      have hlocks : (s.pc s.current).locks = none := by
        rw [hpc]
        rfl
      rw [hpc] at h
      cases res with
      | noContext | noStack =>
          obtain ⟨rfl, rfl⟩ := Prod.mk.inj (Option.some.inj h)
          exact .same rfl (.plain rfl rfl hlocks) fun _ => rfl
      | available =>
          obtain ⟨heq, rfl⟩ := Prod.mk.inj (Option.some.inj h)
          rw [← heq, show s.pauseTimer = { s with armed := false, cont := s.armed } from rfl,
            createThread_timer_eq]
          exact created_lockStep (hnew t hpc) hlocks _ _
  | yieldRaise =>
      rw [hpc] at h
      obtain ⟨u, hraise, heq⟩ := Option.map_eq_some_iff.mp h
      obtain ⟨rfl, rfl⟩ := Prod.mk.inj heq
      exact signal_lockStep hraise (by rw [hpc]; rfl)
  | lockReturn k =>
      rw [hpc] at h
      obtain ⟨rfl, rfl⟩ := Prod.mk.inj (Option.some.inj h)
      by_cases hk : k = m
      · subst hk
        exact .returns hpc rfl rfl (places_returns rfl rfl)
      · refine .same rfl (.goto rfl ?_) fun t => (lockEvent_ne hk t none).1
        rw [hpc]
        simp [Pc.locks, hk]
  | initScan | initUser | initAdd | initStore =>
      rw [hpc] at hp
      cases hp
  | _ =>
      rw [hpc] at hplain
      cases hplain

/-- A step inside a call. -/
theorem advance_lockStep (h : advance s = some (s', e))
    (hnew : ∀ t, s.pc s.current = .creating t .available → s.stage t = .unborn) :
    LockStep m s .advance s' e := by
  cases hp : (s.pc s.current).initialises with
  | some k => exact init_lockStep h hp
  | none =>
      by_cases hplain : (s.pc s.current).stage = .plain
      · exact plain_lockStep h hp hplain hnew
      have hsilent : ∀ t, lockEvent m t .silent = none := fun _ => rfl
      cases exec_moves (c := .advance) h with
      | creates armed cont hpc =>
          rw [hpc] at hplain
          exact absurd rfl hplain
      | quiet armed cont hpc hstage =>
          rw [hpc] at hplain
          exact absurd hstage hplain
      | @asks j p p' hpc hasks hasks' =>
          refine .same rfl (.plain rfl (locks_of_asking hasks') ?_) hsilent
          rw [hpc]
          exact locks_of_asking hasks
      | denied hpc hasks =>
          refine .same rfl (.plain rfl rfl ?_) fun _ => rfl
          rw [hpc]
          exact locks_of_asking hasks
      | finds hpc | isDone hpc | notDone hpc | blocks armed cont hpc =>
          exact .same rfl (.plain rfl rfl (by rw [hpc]; rfl)) hsilent
      | finishes armed cont hpc =>
          exact .same rfl (.plain rfl rfl (by rw [hpc]; rfl)) fun _ => rfl
      | @signals p p' u hpc hafter hraise =>
          exact signal_lockStep hraise (by rw [hpc]; exact locks_of_signal hafter)
      | clears hpc =>
          rw [hpc] at hp
          cases hp
      | @inits k p list hpc hinit =>
          rw [hpc] at hp
          rcases hinit with ⟨i, rfl⟩ | ⟨i, rfl⟩
          · cases hp
          · cases hp
      | @claims k hpc =>
          have hplace : SamePlaces m s ((s.setMutex k { s.mutex k with user := s.running }).goto
              (.lockReturn k)) := .goto rfl (by rw [hpc]; rfl)
          by_cases hk : m = k
          · subst hk
            have hmutex : ((s.setMutex m { s.mutex m with user := s.running }).goto
                (.lockReturn m)).mutex =
                  Function.update s.mutex m { s.mutex m with user := s.running } := rfl
            obtain ⟨huser, hqueue⟩ := updated hmutex
            exact .claims hpc huser hqueue hplace
          · exact .same (updated_ne rfl hk) hplace hsilent
      | returns armed cont hpc =>
          rw [hpc] at hplain
          exact absurd rfl hplain

/-- **What a step does to a mutex.** -/
theorem exec_lockStep (h : exec s c = some (s', e)) (hstart : Unstarted s)
    (hnew : c = .advance → ∀ t, s.pc s.current = .creating t .available → s.stage t = .unborn)
    (hkeep : ∀ k, c ≠ .call (.destroy k)) : LockStep m s c s' e := by
  cases c with
  | alarm =>
      obtain ⟨_, hrest⟩ := Option.ite_none_right_eq_some.mp h
      obtain ⟨u, hu, heq⟩ := Option.map_eq_some_iff.mp hrest
      obtain ⟨rfl, rfl⟩ := Prod.mk.inj heq
      have hframe := schedulerAlarmHandler_frame hu
      refine .same (congrFun hframe.mutex m) ?_ fun _ => rfl
      intro z
      rw [hframe.pc]
  | call c => exact call_lockStep h hstart fun k heq => hkeep k (by rw [heq])
  | advance => exact advance_lockStep h (hnew rfl)

end Steps

end Threads
