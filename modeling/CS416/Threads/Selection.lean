import CS416.Lib.Later
import CS416.Threads.Ids
import CS416.Threads.Wakeups

/-!
# The selection loop ends

Where each thread joins only threads created after it, the last thread that has
not exited waits for none that can still wake it.  So it is ready, unless its
wake-up came before it went to sleep; and there is no such thread once all have
exited.
-/

namespace Threads

open Later

/-- When the handler comes to its selection loop, a queue is not empty, and the loop ends with
the first probe or one of the next `NUM_PRIORITY`. -/
def SelectionEnds (u : State) : Prop :=
  ∀ r v, u.running = some r → switchStatus r u.pauseTimer = (v, false) →
    (∃ p, IsLevel p ∧ v.level p ≠ []) ∧ (findThread 6 (updateCounters v)).isSome

/-- The calls of a program without mutexes, in which each thread joins only threads created
after itself. -/
def Descends (a : World) : Action → Prop
  | .call (.join t _) => Comes (0 :: unjoined a.history) a.state.current t
  | .call (.mutexInit _ _) | .call (.lock _) | .call (.unlock _) | .call (.destroy _) => False
  | _ => True

/-- A program without cyclic waits, in which each thread is joined at most once. -/
def Acyclic (a : World) (c : Action) : Prop := JoinedOnce a c ∧ Descends a c

/-- A thread exits only while there is another one that has not. -/
def NotLast (s : State) : Action → Prop
  | .call (.exit _) => ∃ t, t ≠ s.current ∧ s.stage t ≠ .unborn ∧ s.stage t ≠ .exited
  | _ => True

/-- The condition. -/
structure SelectionOk (a : World) (c : Action) : Prop where
  acyclic : Acyclic a c
  ids : IdsOk a c
  notLast : NotLast a.state c
  notMissed : NotMissed a.state c

/-- Each thread joins one that was created after it. -/
def Ordered (a : World) : Prop :=
  ∀ z j, (a.state.stage z).wanted = some j → Comes (0 :: unjoined a.history) z j.thread

section Loop

variable {s s' u v : State} {r : Nat} {c : Action} {e : Event}

/-- The probes come to every level. -/
theorem findThread_of_level {n k : Nat} (hp : IsLevel s.currentPriority) (hk : k < n)
    (hne : s.level ((s.currentPriority + k) % 5) ≠ []) : (findThread n s).isSome := by
  induction n generalizing s k with
  | zero => omega
  | succ n ih =>
      unfold findThread getNext
      cases hlevel : s.level s.currentPriority with
      | cons t rest => rfl
      | nil =>
          obtain ⟨h₀, h₁⟩ := hp
          cases k with
          | zero =>
              have hself : (s.currentPriority + ((0 : Nat) : Int)) % 5 = s.currentPriority := by
                simp only [numPriority] at h₁
                omega
              rw [hself] at hne
              exact absurd hlevel hne
          | succ k =>
              have hcur : (nextLevel s).currentPriority = (s.currentPriority + 1) % 5 :=
                Int.tmod_eq_emod_of_nonneg (by omega)
              refine ih (isLevel_next ⟨h₀, h₁⟩) (by omega : k < n) ?_
              rw [hcur]
              have hsame : ((s.currentPriority + 1) % 5 + k) % 5 =
                  (s.currentPriority + ((k + 1 : Nat) : Int)) % 5 := by omega
              rw [hsame]
              exact hne

/-- **The loop ends** if a queue is not empty. -/
theorem findThread_isSome {p : Int} (hcur : IsLevel s.currentPriority) (hp : IsLevel p)
    (hne : s.level p ≠ []) : (findThread 6 s).isSome := by
  obtain ⟨h₀, h₁⟩ := hcur
  obtain ⟨hp₀, hp₁⟩ := hp
  have hk : (s.currentPriority + (((p - s.currentPriority) % 5).toNat : Int)) % 5 = p := by
    simp only [numPriority] at hp₁ h₁
    omega
  refine findThread_of_level ⟨h₀, h₁⟩ (by omega : ((p - s.currentPriority) % 5).toNat < 6) ?_
  rw [hk]
  exact hne

private theorem updateCounters_level (s : State) : (updateCounters s).level = s.level := by
  unfold updateCounters
  split <;> rfl

/-- A thread that can go on is in a queue when the loop starts. -/
theorem Core.selection (hc : Core u) (hr : u.running = some r) (hborn : u.stage r ≠ .unborn)
    (hwake : WakeOk r u) {z : Nat} (hz : z ∈ putBack r u ++ ready u) : SelectionEnds u := by
  intro r' v hr' hswitch
  obtain rfl := Option.some.inj (hr.symm.trans hr')
  have hrange : ∀ w ∈ woken r u.pauseTimer, IsLevel (u.pauseTimer.thread w).priority := by
    intro w hw
    obtain ⟨_, j, hstage, _⟩ := hwake w hw
    exact hc.queues.level w (by simp [hstage])
  have hspec := switchStatus_spec (s := u.pauseTimer) (hc.queues.level r hborn) hrange
  rw [hswitch] at hspec
  have hmem : z ∈ ready v := (hspec.goesOn rfl).subset hz
  obtain ⟨p, hp, hlevel⟩ := mem_ready.mp hmem
  have hne : v.level p ≠ [] := List.ne_nil_of_mem hlevel
  have hcur : IsLevel v.currentPriority := by
    have hsame : v.currentPriority = u.currentPriority := hspec.current
    rw [hsame]
    exact hc.queues.current
  refine ⟨⟨p, hp, hne⟩, findThread_isSome (updateCounters_spec hcur).2.2.1 hp ?_⟩
  rw [updateCounters_level]
  exact hne

/-- A thread that has not exited and need not wait is put back or ready. -/
theorem Core.candidate (hc : Core u) (hr : u.running = some r) {z : Nat}
    (hborn : u.stage z ≠ .unborn) (hlive : u.stage z ≠ .exited)
    (hfree : ∀ m, u.stage z ≠ .locking m)
    (hwait : (u.thread z).status = .waitThread → z ∈ woken r u) :
    z ∈ putBack r u ++ ready u := by
  rcases runnable_or (u.thread z).status with hrun | hasleep | hmutex | hexit
  · rcases hc.queues.runnable z hborn hrun with heq | hready
    · obtain rfl := Option.some.inj (hr.symm.trans heq)
      exact List.mem_append_left _ (mem_putBack.mpr (Or.inl ⟨rfl, hrun⟩))
    · exact List.mem_append_right _ hready
  · exact List.mem_append_left _ (mem_putBack.mpr (Or.inr (hwait hasleep)))
  · obtain ⟨m, _, hstage, _⟩ := hc.queues.wanting z hborn hmutex
    exact absurd hstage (hfree m)
  · exact absurd ((hc.queues.gone z hborn).mp hexit) hlive

/-- A thread that is joined has exited. -/
theorem Inv.finished (h : Inv s) {j : Target} {w : Nat} (hpc : s.pc s.current = .joinFinish j)
    (hw : s.threadTable j.id = some w) : s.stage w = .exited := by
  obtain ⟨r, hr, hcur, hstage, _, hrun⟩ := h.runs hpc (by simp [Pc.Signals])
  have hdone := h.core.joins.woken r j hstage hrun
  exact (h.core.tables.done j.id w hw).mp hdone

/-- **The order of the joins** stays when a thread is created or joined. -/
theorem Ordered.step {a b : World} (h : Ordered a) (hlink : Linked a) (hinv : Inv a.state)
    (hinit : a.state.init = true) (hok : SelectionOk a c) (hruled : Ruled a.state c)
    (hstep : WorldStep a c b) : Ordered b := by
  obtain ⟨s, e, hexec, rfl⟩ := hstep
  have hm := exec_moves hexec
  intro z j hz
  have hbefore : Comes (0 :: unjoined a.history) z j.thread := by
    rcases hm.wants hz with hold | ⟨t, v, rfl, rfl, rfl⟩
    · exact h z j hold
    · exact hok.acyclic.2
  have hids := hinv.idStep hinit hruled hm
  cases hids with
  | other hsame hcreates hjoins =>
      rw [unjoined_other hcreates hjoins]
      exact hbefore
  | creates =>
      rw [unjoined_append]
      exact hbefore.append _
  | @joins k u value hpc hu htable hplace _ =>
      have hmine : (a.state.stage a.state.current).wanted = some k := by
        rw [State.stage, hpc]
        rfl
      have hold : (a.state.stage z).wanted = some j := by
        rcases hm.wants hz with hold | ⟨t, v, rfl, _⟩
        · exact hold
        · cases hm
      have hnamed := hlink.named _ k hmine
      have hexited := hinv.finished hpc hnamed
      have hzk : z ≠ k.thread := by
        intro heq
        rw [heq, hexited] at hold
        cases hold
      have hjk : j.thread ≠ k.thread := by
        intro heq
        have hz' : (s.stage z).wanted = some j := hz
        rw [hlink.alone z _ j k hold hmine heq, hplace] at hz'
        cases hz'
      have hzero : (0 == k.thread) = false := by
        rw [beq_eq_false_iff_ne]
        intro heq
        have hentry := hinv.core.tables.table k.id k.thread hnamed
        rw [← heq, hinv.core.tables.main.2] at hentry
        omega
      have herase := hbefore.erase hzk hjk
      rw [List.erase_cons, hzero, if_neg Bool.false_ne_true] at herase
      rw [unjoined_append]
      exact herase

/-- **No thread wants a mutex**, and each one joins a later one. -/
theorem selection_invariant {a : World} (h : Reached SelectionOk a) :
    (a.state.init = true → Awake a.state) ∧ (∀ z m, a.state.stage z ≠ .locking m) ∧
      Ordered a := by
  apply h.invariant (I := fun a => (a.state.init = true → Awake a.state) ∧
    (∀ z m, a.state.stage z ≠ .locking m) ∧ Ordered a)
  · intro b hb
    refine ⟨?_, ?_, ?_⟩
    · intro hon
      rw [hb.1.init] at hon
      cases hon
    · intro z m hz
      rw [State.stage, hb.1.pc, Function.update_apply] at hz
      split at hz
      · cases hz
      · cases hz
    · intro z j hz
      rw [(Good.initial hb.1).idle hb.1.init] at hz
      cases hz
  · intro b c d hb ih hstep
    obtain ⟨hgood, hlink⟩ := linked_of_reached (hb.mono fun _ _ _ h => ⟨h.1.ids, h.2⟩)
    have hruled := hstep.1.ids.ruled hgood hlink
    obtain ⟨hawake, hunlocked, hordered⟩ := ih
    have hnew : Ordered d := by
      cases hinit : b.state.init with
      | true => exact hordered.step hlink (hgood.after hinit) hinit hstep.1 hruled hstep.2
      | false =>
          obtain ⟨s, e, hexec, rfl⟩ := hstep.2
          intro z j hz
          have hz' : (s.stage z).wanted = some j := hz
          rw [hgood.stays_idle hinit hexec] at hz'
          cases hz'
    obtain ⟨s, e, hexec, rfl⟩ := hstep.2
    have hm := exec_moves hexec
    refine ⟨hgood.awake_step hawake hstep.1.notMissed hruled hm, ?_, hnew⟩
    intro z m hz
    rcases hm.locking hz with hold | rfl
    · exact hunlocked z m hold
    · exact hstep.1.acyclic.2

/-- The signal is raised by the running thread. -/
theorem Signalled.running (hs : Signalled s c u) : u.running = s.running := by
  cases hs <;> rfl

/-- Some thread has not exited when the handler is called. -/
theorem Signalled.alive (hs : Signalled s c u) (hinv : Inv s) (hlast : NotLast s c) :
    ∃ z, u.stage z ≠ .unborn ∧ u.stage z ≠ .exited := by
  obtain ⟨r, hr, _⟩ := hinv.running
  obtain ⟨hborn, hlive, _⟩ := hinv.alive hr
  cases hs with
  | alarm => exact ⟨r, hborn, hlive⟩
  | @signal p p' hpc hp =>
      have hstage : (s.goto p').stage r = s.stage r :=
        stage_update hpc (afterSignal_stage hp) r
      refine ⟨r, ?_, ?_⟩
      · rw [hstage]
        exact hborn
      · rw [hstage]
        exact hlive
  | @exit x value hown hx =>
      obtain ⟨t, ht, hborn, hlive⟩ := hlast
      rw [current_of_running hx] at ht
      refine ⟨t, ?_, ?_⟩
      · rw [exitMark_stage hx value, if_neg ht]
        exact hborn
      · rw [exitMark_stage hx value, if_neg ht]
        exact hlive

/-- A thread that has not exited is `main` or is not joined. -/
theorem Linked.listed {a : World} (h : Linked a) (hinv : Inv a.state)
    (hinit : a.state.init = true) {z : Nat} (hborn : a.state.stage z ≠ .unborn)
    (hlive : a.state.stage z ≠ .exited) : z ∈ 0 :: unjoined a.history := by
  by_cases hz : z = 0
  · rw [hz]
    exact List.mem_cons_self
  · exact List.mem_cons_of_mem 0 (h.table hinit _ z (hinv.core.tables.entered z hz hborn hlive))

private theorem Linked.nodup_main {a : World} (h : Linked a) (hinv : Inv a.state) :
    (0 :: unjoined a.history).Nodup := by
  refine List.nodup_cons.mpr ⟨?_, h.nodup⟩
  intro hmem
  have hentry := hinv.core.tables.table _ 0 (h.member 0 hmem).2
  rw [hinv.core.tables.main.2] at hentry
  omega

end Loop

/-- **The selection loop ends** in every call of the handler, in a run that meets the
condition. -/
theorem selection_ends {a : World} (h : Reached SelectionOk a) {c : Action}
    (hok : SelectionOk a c) {u : State} (hs : Signalled a.state c u) : SelectionEnds u := by
  obtain ⟨hgood, hlink⟩ := linked_of_reached (h.mono fun _ _ _ h => ⟨h.1.ids, h.2⟩)
  obtain ⟨hawake, hunlocked, hordered⟩ := selection_invariant h
  cases hinit : a.state.init with
  | false =>
      intro r v hr
      rw [hs.running, (hgood.before hinit).running] at hr
      cases hr
  | true =>
      have hinv := hgood.after hinit
      have hawake := hawake hinit
      obtain ⟨r, hr, hru, hborn, hcore, hwake⟩ := hinv.signalled hs
      have hhand := hs.handed hr
      -- the last thread of the list that has not exited
      have hsome : ∃ z ∈ 0 :: unjoined a.history, u.stage z ≠ .unborn ∧ u.stage z ≠ .exited := by
        obtain ⟨z, hborn, hlive⟩ := hs.alive hinv hok.notLast
        refine ⟨z, hlink.listed hinv hinit ?_ ?_, hborn, hlive⟩
        · rw [hhand.stage z hlive]
          exact hborn
        · rw [hhand.stage z hlive]
          exact hlive
      obtain ⟨z, _, ⟨hborn', hlive⟩, hlast⟩ := exists_last (hlink.nodup_main hinv) hsome
      have hstage := hhand.stage z hlive
      refine hcore.selection hru hborn hwake (hcore.candidate hru hborn' hlive ?_ ?_)
      · intro m hm
        exact hunlocked z m (hstage.trans hm)
      · intro hasleep
        obtain ⟨j, hj, _⟩ := hcore.joins.asleep z hborn' hasleep
        have hwants : (a.state.stage z).wanted = some j := by
          rw [hstage, hj]
          rfl
        have hentry := hlink.named z j hwants
        rw [← hhand.table] at hentry
        have hexited : u.stage j.thread = .exited := by
          by_contra hother
          exact hlast j.thread (hordered z j hwants)
            ⟨(hcore.tables.table j.id j.thread hentry).1, hother⟩
        exact hhand.woken hawake hcore hj hasleep
          ((hcore.tables.done j.id j.thread hentry).mpr hexited)

private theorem created_acyclic : Acyclic blankWorld (.call (.create 1 .available)) ∧
    Acyclic startedWorld .advance :=
  ⟨⟨trivial, trivial⟩, created_ids.1, trivial⟩

/-- `main` has created a thread, and an alarm comes. -/
theorem selection_ends_created : SelectionEnds createdWorld.state := by
  have hstart : SelectionOk blankWorld (.call (.create 1 .available)) :=
    ⟨created_acyclic.1, ⟨trivial, fun h => by cases h⟩, trivial, trivial⟩
  have hcreate : SelectionOk startedWorld .advance := by
    refine ⟨created_acyclic.2, created_ids, trivial, ?_⟩
    intro j hj
    cases hj
  have hreach : Reached SelectionOk createdWorld := reached_createdWorld hstart hcreate
  have halarm : SelectionOk createdWorld .alarm :=
    ⟨⟨trivial, trivial⟩, ⟨trivial, fun h => by cases h⟩, trivial, trivial⟩
  exact selection_ends hreach halarm .alarm

/-- `main` exits, then thread 1, the last one. -/
theorem last_exit_spins : ¬ ∀ a, Reached Acyclic a → ∀ c, Acyclic a c → ∀ u,
    Signalled a.state c u → SelectionEnds u := by
  intro hclaim
  have hsome : ((exec createdWorld.state (.call (.exit 0))).map fun out =>
      (out.1.running, out.1.pc out.1.current,
        (switchStatus 1 (((exitMark 1 0 out.1).goto .exited).pauseTimer)).2,
        (findThread 6 (updateCounters
          (switchStatus 1 (((exitMark 1 0 out.1).goto .exited).pauseTimer)).1)).isSome)) =
      some (some 1, .own, false, false) := by decide +kernel
  obtain ⟨⟨s, e⟩, hexec, hsees⟩ := Option.map_eq_some_iff.mp hsome
  simp only [Prod.mk.injEq] at hsees
  obtain ⟨hr, hown, hgoes, hnone⟩ := hsees
  have hreach : Reached Acyclic createdWorld :=
    reached_createdWorld created_acyclic.1 created_acyclic.2
  have hok : Acyclic createdWorld (.call (.exit 0)) := ⟨trivial, trivial⟩
  have hnext : Reached Acyclic ⟨s, createdWorld.history ++ [(0, e)]⟩ :=
    hreach.next ⟨hok, s, e, hexec, rfl⟩
  have hok' : Acyclic ⟨s, createdWorld.history ++ [(0, e)]⟩ (.call (.exit 0)) :=
    ⟨trivial, trivial⟩
  have hends := hclaim _ hnext (.call (.exit 0)) hok' _ (.exit hown hr)
  obtain ⟨_, hfound⟩ := hends 1 _ hr (Prod.ext rfl hgoes)
  rw [hnone] at hfound
  cases hfound

end Threads
