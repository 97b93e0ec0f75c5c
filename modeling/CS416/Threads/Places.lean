import CS416.Threads.Ids
import CS416.Threads.Wakeups

/-!
# Where the threads are

A thread that has not exited runs, is ready, waits for a mutex, or waits for a
thread that has not exited: one of these, once.  A missed wake-up leaves a
thread that waits for one that has exited, and is nowhere.
-/

namespace Threads

/-- The places for a thread: `running_thread`, the queue of a level, the queue of a mutex, and the
entry of `waiting` for another thread. -/
inductive Site
  | running
  | level (p : Int)
  | mutex (m : Nat)
  | waits (t : Nat)
  deriving DecidableEq

/-- How often the thread is there. -/
def occurs (s : State) (z : Nat) : Site → Nat
  | .running => if s.running = some z then 1 else 0
  | .level p => if 0 ≤ p ∧ p < numPriority then (s.level p).count z else 0
  | .mutex m => ((s.mutex m).waiting.getD []).count z
  | .waits t =>
    if s.stage t ≠ .unborn ∧ s.stage t ≠ .exited ∧ s.waiting (s.thread t).id = some z then 1 else 0

/-- The thread is in exactly one place, once. -/
def AtOnePlace (s : State) (z : Nat) : Prop :=
  ∃ x, occurs s z x = 1 ∧ ∀ y, y ≠ x → occurs s z y = 0

/-- The condition. -/
def PlacesOk (a : World) (c : Action) : Prop := IdsOk a c ∧ NotMissed a.state c

section Places

variable {s : State} {r t z : Nat}

/-- A thread that somebody waits for and that has not exited. -/
theorem Inv.waited (h : Inv s) (hborn : s.stage t ≠ .unborn) (hlive : s.stage t ≠ .exited)
    (hw : s.waiting (s.thread t).id = some z) : s.threadTable (s.thread t).id = some t ∧
      (s.thread z).status = .waitThread ∧
      ∃ j, s.stage z = .sleeping j ∧ j.id = (s.thread t).id := by
  obtain ⟨_, j, hstage, hid, hwhy⟩ := h.core.joins.waiter _ z hw
  have htarget : (s.stage z).target = some j := by
    rw [hstage]
    rfl
  have hfound := h.core.joins.found z j htarget
  have hzero : t ≠ 0 := by
    intro heq
    obtain ⟨u, hu⟩ := Option.ne_none_iff_exists'.mp hfound
    have hentry := h.core.tables.table _ u hu
    rw [hid, heq, h.core.tables.main.2] at hentry
    omega
  have hentry := h.core.tables.entered t hzero hborn hlive
  refine ⟨hentry, ?_, j, hstage, hid⟩
  rcases hwhy with hasleep | hdone
  · exact hasleep
  · exact absurd ((h.core.tables.done _ t hentry).mp hdone) hlive

private theorem Inv.no_waits (h : Inv s) (hz : (s.thread z).status ≠ .waitThread) (t : Nat) :
    occurs s z (.waits t) = 0 := by
  refine if_neg ?_
  intro hwaits
  obtain ⟨hborn, hlive, hw⟩ := hwaits
  exact hz (h.waited hborn hlive hw).2.1

private theorem Inv.no_mutex (h : Inv s) (hz : (s.thread z).status ≠ .waitMutex) (m : Nat) :
    occurs s z (.mutex m) = 0 := by
  refine List.count_eq_zero_of_not_mem ?_
  intro hmem
  cases hqueue : (s.mutex m).waiting with
  | none =>
      rw [hqueue] at hmem
      cases hmem
  | some q =>
      rw [hqueue] at hmem
      exact hz ((h.core.queues.queue m q hqueue).2 z hmem).2

private theorem no_level (hz : z ∉ ready s) (p : Int) : occurs s z (.level p) = 0 := by
  by_cases hp : 0 ≤ p ∧ p < numPriority
  · refine (if_pos hp).trans (List.count_eq_zero_of_not_mem ?_)
    intro hmem
    exact hz (mem_ready.mpr ⟨p, hp, hmem⟩)
  · exact if_neg hp

/-- A ready thread is at one level. -/
theorem Inv.one_level (h : Inv s) (hz : z ∈ ready s) : ∃ p, occurs s z (.level p) = 1 ∧
    ∀ q, q ≠ p → occurs s z (.level q) = 0 := by
  obtain ⟨p, hp, hmem⟩ := mem_ready.mp hz
  have hcast : ∀ {q : Int}, IsLevel q → ∃ i : Nat, i < 5 ∧ (i : Int) = q := by
    intro q hq
    obtain ⟨h₀, h₁⟩ := hq
    simp only [numPriority] at h₁
    exact ⟨q.toNat, by omega, Int.toNat_of_nonneg h₀⟩
  obtain ⟨i, hi, rfl⟩ := hcast hp
  have hnodup := h.core.queues.nodup
  refine ⟨i, ?_, ?_⟩
  · refine (if_pos hp).trans ?_
    exact List.count_eq_one_of_mem (Levels.flat_nodup (x := z) hnodup hi hi).1 hmem
  · intro q hne
    by_cases hq : IsLevel q
    · obtain ⟨j, hj, rfl⟩ := hcast hq
      refine (if_pos hq).trans (List.count_eq_zero_of_not_mem ?_)
      intro hmem'
      have heq := (Levels.flat_nodup hnodup hj hi).2 hmem' hmem
      exact hne (congrArg Nat.cast heq)
    · exact if_neg hq

/-- A thread that can run. -/
theorem Inv.runnable_place (h : Inv s) (hborn : s.stage z ≠ .unborn)
    (hrun : Runnable (s.thread z).status) : AtOnePlace s z := by
  have hwaits := h.no_waits (hrun.ne (Or.inl rfl))
  have hmutex := h.no_mutex (hrun.ne (Or.inr (Or.inl rfl)))
  rcases h.core.queues.runnable z hborn hrun with hr | hready
  · have hout : z ∉ ready s := fun hmem => (h.core.queues.ready z hmem).1 hr
    refine ⟨.running, if_pos hr, ?_⟩
    intro y hy
    cases y with
    | running => exact absurd rfl hy
    | level p => exact no_level hout p
    | mutex m => exact hmutex m
    | waits t => exact hwaits t
  · obtain ⟨p, hp, hother⟩ := h.one_level hready
    refine ⟨.level p, hp, ?_⟩
    intro y hy
    cases y with
    | running => exact if_neg (h.core.queues.ready z hready).1
    | level q => exact hother q (fun heq => hy (heq ▸ rfl))
    | mutex m => exact hmutex m
    | waits t => exact hwaits t

/-- A thread that cannot run is not at a level, and only runs while it is about to signal. -/
theorem Inv.blocked_out (h : Inv s) (hr : s.running = some r) (hout : ¬ (s.pc r).Signals)
    (hrun : ¬ Runnable (s.thread z).status) : occurs s z .running = 0 ∧
      ∀ p, occurs s z (.level p) = 0 := by
  refine ⟨if_neg ?_, no_level fun hmem => hrun (h.core.queues.ready z hmem).2.2⟩
  intro hz
  obtain ⟨r', hr', _, hwhy⟩ := h.running
  obtain rfl := Option.some.inj (hr.symm.trans hr')
  obtain rfl := Option.some.inj (hr.symm.trans hz)
  rcases hwhy with hrunnable | hsignals
  · exact hrun hrunnable
  · exact hout hsignals

/-- A thread that waits for a mutex. -/
theorem Inv.mutex_place (h : Inv s) (hr : s.running = some r) (hout : ¬ (s.pc r).Signals)
    (hborn : s.stage z ≠ .unborn) (hz : (s.thread z).status = .waitMutex) : AtOnePlace s z := by
  obtain ⟨m, q, hstage, hqueue, hmem⟩ := h.core.queues.wanting z hborn hz
  obtain ⟨hrunning, hlevel⟩ := h.blocked_out hr hout (z := z) (by simp [hz, Runnable])
  refine ⟨.mutex m, ?_, ?_⟩
  · show ((s.mutex m).waiting.getD []).count z = 1
    rw [hqueue]
    exact List.count_eq_one_of_mem (h.core.queues.queue m q hqueue).1 hmem
  · intro y hy
    cases y with
    | running => exact hrunning
    | level p => exact hlevel p
    | waits t => exact h.no_waits (by simp [hz]) t
    | mutex k =>
        refine List.count_eq_zero_of_not_mem ?_
        intro hmem'
        cases hqueue' : (s.mutex k).waiting with
        | none =>
            rw [hqueue'] at hmem'
            cases hmem'
        | some q' =>
            rw [hqueue'] at hmem'
            have hstage' := ((h.core.queues.queue k q' hqueue').2 z hmem').1
            obtain rfl := Stage.locking.inj (hstage.symm.trans hstage')
            exact hy rfl

/-- A thread that waits for another one, which has not exited. -/
theorem Inv.waits_place (h : Inv s) (hr : s.running = some r) (hout : ¬ (s.pc r).Signals)
    (hborn : s.stage z ≠ .unborn) (hz : (s.thread z).status = .waitThread) (hawake : Awake s) :
    AtOnePlace s z := by
  obtain ⟨j, hstage, hwaiting⟩ := h.core.joins.asleep z hborn hz
  obtain ⟨hrunning, hlevel⟩ := h.blocked_out hr hout (z := z) (by simp [hz, Runnable])
  have htarget : (s.stage z).target = some j := by
    rw [hstage]
    rfl
  obtain ⟨t, ht⟩ := Option.ne_none_iff_exists'.mp (h.core.joins.found z j htarget)
  obtain ⟨htborn, hid, _⟩ := h.core.tables.table _ t ht
  have hlive : s.stage t ≠ .exited := by
    intro hexited
    have hdone := (h.core.tables.done _ t ht).mpr hexited
    rw [hawake z j hstage hz] at hdone
    cases hdone
  refine ⟨.waits t, if_pos ⟨htborn, hlive, hid ▸ hwaiting⟩, ?_⟩
  intro y hy
  cases y with
  | running => exact hrunning
  | level p => exact hlevel p
  | mutex m => exact h.no_mutex (by simp [hz]) m
  | waits u =>
      refine if_neg ?_
      intro hwaits
      obtain ⟨huborn, hulive, hw⟩ := hwaits
      obtain ⟨hentry, _, k, hk, hkid⟩ := h.waited huborn hulive hw
      obtain rfl := Stage.sleeping.inj (hstage.symm.trans hk)
      rw [← hkid, ht] at hentry
      exact hy (congrArg Site.waits (Option.some.inj hentry).symm)

private theorem awake_of_reached {a : World} (h : Reached PlacesOk a) :
    a.state.init = true → Awake a.state := by
  apply h.invariant (I := fun a => a.state.init = true → Awake a.state)
  · intro b hb hon
    rw [hb.1.init] at hon
    cases hon
  · intro b c d hb ih hstep
    obtain ⟨hgood, hlink⟩ := linked_of_reached (hb.mono fun _ _ _ h => ⟨h.1.1, h.2⟩)
    obtain ⟨s, e, hexec, rfl⟩ := hstep.2
    exact hgood.awake_step ih hstep.1.2 (hstep.1.1.ruled hgood hlink) (exec_moves hexec)

end Places

/-- **No thread is lost or duplicated** in a run that meets the condition: while the running
thread is not about to signal, each thread that has not exited is in exactly one place. -/
theorem threads_placed {a : World} (h : Reached PlacesOk a) {r z : Nat}
    (hr : a.state.running = some r) (hout : ¬ (a.state.pc r).Signals)
    (hborn : a.state.stage z ≠ .unborn) (hlive : a.state.stage z ≠ .exited) :
    AtOnePlace a.state z := by
  obtain ⟨hgood, _⟩ := linked_of_reached (h.mono fun _ _ _ h => ⟨h.1.1, h.2⟩)
  have hinv := hgood.inv_of_running hr
  have hinit : a.state.init = true := by
    by_contra hoff
    rw [(hgood.before (Bool.not_eq_true _ ▸ hoff)).running] at hr
    cases hr
  rcases runnable_or (a.state.thread z).status with hrun | hasleep | hmutex | hexit
  · exact hinv.runnable_place hborn hrun
  · exact hinv.waits_place hr hout hborn hasleep (awake_of_reached h hinit)
  · exact hinv.mutex_place hr hout hborn hmutex
  · exact absurd ((hinv.core.queues.gone z hborn).mp hexit) hlive

/-- `main` has created thread 1, which is ready. -/
theorem threads_placed_created : AtOnePlace createdWorld.state 1 := by
  have hcreate : PlacesOk startedWorld .advance := by
    refine ⟨created_ids, ?_⟩
    intro j hj
    cases hj
  have hreach : Reached PlacesOk createdWorld :=
    reached_createdWorld ⟨started_ids, trivial⟩ hcreate
  have hown : createdWorld.state.pc 0 = .own := rfl
  exact threads_placed hreach (r := 0) rfl (by simp [hown, Pc.Signals]) (by decide) (by decide)

/-- A thread that sleeps for one that has exited is in no place. -/
theorem Inv.lost {s : State} (h : Inv s) {r t z : Nat} {j : Target} (hr : s.running = some r)
    (hout : ¬ (s.pc r).Signals) (hstage : s.stage z = .sleeping j)
    (hz : (s.thread z).status = .waitThread) (ht : s.threadTable j.id = some t)
    (hexited : s.stage t = .exited) : ¬ AtOnePlace s z := by
  obtain ⟨hrunning, hlevel⟩ := h.blocked_out hr hout (z := z) (by simp [hz, Runnable])
  intro hplace
  obtain ⟨x, hx, _⟩ := hplace
  cases x with
  | running =>
      rw [hrunning] at hx
      cases hx
  | level p =>
      rw [hlevel p] at hx
      cases hx
  | mutex m =>
      rw [h.no_mutex (by simp [hz]) m] at hx
      cases hx
  | waits u =>
      by_cases hwaits : s.stage u ≠ .unborn ∧ s.stage u ≠ .exited ∧
          s.waiting (s.thread u).id = some z
      · obtain ⟨hborn, hlive, hw⟩ := hwaits
        obtain ⟨hentry, _, k, hk, hid⟩ := h.waited hborn hlive hw
        obtain rfl := Stage.sleeping.inj (hstage.symm.trans hk)
        rw [← hid, ht] at hentry
        obtain rfl := Option.some.inj hentry
        exact hlive hexited
      · have hzero : occurs s z (.waits u) = 0 := if_neg hwaits
        rw [hzero] at hx
        cases hx

/-- What is seen when thread 1, which `main` joins, has exited before `main` went to sleep. -/
structure Missed (s : State) : Prop where
  running : s.running = some 2
  own : s.pc 2 = .own
  sleeping : s.stage 0 = .sleeping ⟨1, 1, false⟩
  waiting : (s.thread 0).status = .waitThread
  table : s.threadTable 1 = some 1
  exited : s.stage 1 = .exited

instance (s : State) : Decidable (Missed s) :=
  decidable_of_iff (s.running = some 2 ∧ s.pc 2 = .own ∧ s.stage 0 = .sleeping ⟨1, 1, false⟩ ∧
    (s.thread 0).status = .waitThread ∧ s.threadTable 1 = some 1 ∧ s.stage 1 = .exited)
    ⟨fun ⟨h₁, h₂, h₃, h₄, h₅, h₆⟩ => ⟨h₁, h₂, h₃, h₄, h₅, h₆⟩,
      fun ⟨h₁, h₂, h₃, h₄, h₅, h₆⟩ => ⟨h₁, h₂, h₃, h₄, h₅, h₆⟩⟩

/-- `main` creates two threads, and each of the three gives the processor up once. -/
def meeting : List Action :=
  [.call (.create 1 .available), .advance, .call (.create 2 .available), .advance, .call .yield,
    .advance, .call .yield, .advance, .call .yield, .advance]

/-- From the test of `thread_table` on: thread 1 exits before `main` is entered in `waiting`. -/
def missing : List Action :=
  [.advance, .advance, .alarm, .call (.exit 0), .call .yield, .advance, .advance, .advance]

/-- `main` joins thread 1, finds that it is not done, and misses its exit. -/
theorem missed_run : ∃ s, Visited IdsOk s ∧ Missed s := by
  have hsome : ((runs meeting blankWorld.state).map fun s =>
      (decide (s.init = true ∧ s.threadTable (s.thread 1).id = some 1),
        (scanned 1 false s).map fun u => (allowed calm missing u,
          (runs missing u).map fun s' => decide (Missed s')))) =
      some (true, some (true, some true)) := by
    decide +kernel
  obtain ⟨s, hruns, hseen⟩ := Option.map_eq_some_iff.mp hsome
  obtain ⟨hready, hseen⟩ := Prod.mk.inj hseen
  obtain ⟨hinit, htable⟩ := of_decide_eq_true hready
  obtain ⟨u, hscanned, hseen⟩ := Option.map_eq_some_iff.mp hseen
  obtain ⟨hcalm, hseen⟩ := Prod.mk.inj hseen
  obtain ⟨s', hruns', hmissed⟩ := Option.map_eq_some_iff.mp hseen
  have hmeeting : allowed calm meeting blankWorld.state = true := by decide +kernel
  have hidle := stays_calm ((linked_of_reached reached_blankWorld).1.idle rfl) hmeeting hruns
  have hvisit := (visited_blank.calm hmeeting hruns).joins hidle hinit htable hscanned
  exact ⟨s', hvisit.calm hcalm hruns', of_decide_eq_true hmissed⟩

/-- `main` finds that thread 1 is not done, and thread 1 exits before `main` is entered in
`waiting`. -/
theorem joiner_lost : ¬ ∀ a, Reached JoinedOnce a → ∀ r z, a.state.running = some r →
    ¬ (a.state.pc r).Signals → a.state.stage z ≠ .unborn → a.state.stage z ≠ .exited →
    AtOnePlace a.state z := by
  intro hclaim
  obtain ⟨s, ⟨hist, hreach⟩, hmissed⟩ := missed_run
  have hout : ¬ (s.pc 2).Signals := by simp [hmissed.own, Pc.Signals]
  have hinv := (linked_of_reached hreach).1.inv_of_running hmissed.running
  have hplace := hclaim ⟨s, hist⟩ (hreach.mono fun _ _ _ h => ⟨h.1.1, h.2⟩) 2 0 hmissed.running hout
    (by simp [hmissed.sleeping]) (by simp [hmissed.sleeping])
  exact hinv.lost hmissed.running hout hmissed.sleeping hmissed.waiting hmissed.table
    hmissed.exited hplace

end Threads
