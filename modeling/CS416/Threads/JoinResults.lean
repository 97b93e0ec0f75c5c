import CS416.Threads.Places
import CS416.Threads.Selection

/-!
# What a join delivers

Where a thread that joins another one finds that one in `thread_table`, the
join returns what the thread passed to `pthread_exit`, and gives back what is
its own, once.  A thread that comes to the table after the ID was given to a
new thread joins that one.
-/

namespace Threads

/-- What the thread passed to `pthread_exit` since it was created last. -/
def exitValue (t : Nat) (history : List (Nat × Event)) : Option Nat :=
  history.foldl (fun v x => match x.2 with
    | .creates u => if u = t then none else v
    | .exits value => if x.1 = t then some value else v
    | _ => v) none

/-- The threads that were created and whose entry, stack and ID were not given back since, oldest
first. -/
def unreleased (history : List (Nat × Event)) : List Nat :=
  history.foldl (fun l x => match x.2 with
    | .creates t => l ++ [t]
    | .joins _ released _ => l.erase released
    | _ => l) []

/-- A join of `named` gives back what belongs to `released`. -/
structure Delivers (a b : World) (named released : Nat) (value : Option Nat) : Prop where
  same : released = named
  exited : a.state.stage named = .exited
  value : ∃ v, exitValue named a.history = some v ∧
    ∀ j, a.state.pc a.state.current = .joinFinish j →
      value = if j.valuePtr then some v else none
  once : (unreleased a.history).count released = 1 ∧ (unreleased b.history).count released = 0
  entry : a.state.threadTable (a.state.thread released).id = some released ∧
    b.state.threadTable (a.state.thread released).id = none
  id : b.state.tidList = (a.state.thread released).id :: a.state.tidList

/-- A join that returns 0 delivers the result of the thread it was given, and only it releases a
thread. -/
def ReleasesRight (a b : World) (e : Event) : Prop :=
  (∀ named released value, e = .joins named released value →
    Delivers a b named released value) ∧
  ∀ t ∈ unreleased a.history, (∃ value, e = .joins t t value) ∨
    t ∈ unreleased b.history ∧ b.state.threadTable (b.state.thread t).id = some t

/-- The condition: a thread that finds an entry of the table finds the one of the thread it was
given. -/
def JoinOk (a : World) (c : Action) : Prop :=
  Rules a c ∧ (c = .advance → ∀ j u, a.state.pc a.state.current = .joinTable j →
    a.state.threadTable j.id = some u → u = j.thread)

/-- The joins find the threads they name, and the history agrees with what is stored. -/
structure Delivering (a : World) : Prop where
  entered : Entered a
  named : ∀ z j, (a.state.stage z).target = some j → a.state.threadTable j.id = some j.thread
  passed : ∀ t, a.state.stage t = .exited →
    exitValue t a.history = some (a.state.thread t).ret
  agrees : unreleased a.history = unjoined a.history

section Results

variable {a b : World} {s s' : State} {c : Action} {e : Event} {t x : Nat}

private theorem exitValue_append (h : List (Nat × Event)) (x : Nat) (e : Event) :
    exitValue t (h ++ [(x, e)]) = match e with
      | .creates u => if u = t then none else exitValue t h
      | .exits value => if x = t then some value else exitValue t h
      | _ => exitValue t h := by
  unfold exitValue
  rw [List.foldl_append]
  rfl

private theorem unreleased_append (h : List (Nat × Event)) (x : Nat) (e : Event) :
    unreleased (h ++ [(x, e)]) = match e with
      | .creates t => unreleased h ++ [t]
      | .joins _ released _ => (unreleased h).erase released
      | _ => unreleased h := by
  unfold unreleased
  rw [List.foldl_append]
  rfl

/-- A thread is gone only through `pthread_exit`. -/
theorem Moves.exited (hm : Moves s c s' e) (ht : s'.stage t = .exited) :
    s.stage t = .exited ∨ ∃ value, e = .exits value ∧ t = s.current := by
  have hstep := hm.stageStep t
  generalize hx : s'.stage t = x at hstep ht
  cases hstep with
  | stays => exact Or.inl ht
  | exits hc hcur =>
      subst hc
      cases hm with
      | refuses => exact Or.inl hx
      | exits => exact Or.inr ⟨_, rfl, hcur⟩
  | leaves | asks | finds | sleeps | locks => cases ht

/-- The value of a thread changes when it exits, or when it is created. -/
theorem Inv.ret (h : Inv s) (hm : Moves s c s' e) (hnew : e ≠ .creates t)
    (hexit : ∀ value, e = .exits value → t ≠ s.current) :
    (s'.thread t).ret = (s.thread t).ret := by
  have hset : ∀ {r : Nat} {x : MyPthread}, x.ret = (s.thread r).ret →
      (Function.update s.thread r x t).ret = (s.thread t).ret := by
    intro r x hx
    rw [Function.update_apply]
    split
    case isTrue heq => rw [heq, hx]
    case isFalse heq => rfl
  cases hm with
  | alarm hon hcall =>
      obtain ⟨_, _, _, _, _, _, hd⟩ := h.dispatches .alarm hcall
      exact hd.serves.ret t
  | signals hpc hp hcall =>
      obtain ⟨_, _, _, _, _, _, hd⟩ := h.dispatches (.signal hpc hp) hcall
      exact hd.serves.ret t
  | @exits r value u hown hr hcall =>
      obtain ⟨_, _, _, _, _, _, hd⟩ := h.dispatches (.exit hown hr) hcall
      have hne : t ≠ r := current_of_running hr ▸ hexit value rfl
      refine (hd.serves.ret t).trans ?_
      show (Function.update s.thread r _ t).ret = _
      rw [Function.update_of_ne hne]
  | starts hown =>
      split
      · rfl
      · exact hset rfl
  | yields | waits | hands | blocks => exact hset rfl
  | @destroys m queue armed cont hown hqueue =>
      exact activate_all (f := fun s => (s.thread t).ret)
        (fun w s => by
          show (Function.update s.thread w _ t).ret = _
          rw [Function.update_apply]
          split
          case isTrue heq => rw [heq]
          case isFalse heq => rfl) queue s
  | @creates u armed cont hpc =>
      have hne : t ≠ u := fun heq => hnew (heq ▸ rfl)
      obtain ⟨n, l, heq⟩ := getId_snd s
      show ((createThread u s).thread t).ret = _
      simp [createThread, State.setThread, enqueue, heq, hne]
  | _ => rfl

/-- The value that a thread passes is stored. -/
theorem Inv.passes {value : Nat} (h : Inv s) (hm : Moves s c s' (.exits value)) :
    (s'.thread s.current).ret = value := by
  cases hm with
  | @exits r value u hown hr hcall =>
      obtain ⟨_, _, _, _, _, _, hd⟩ := h.dispatches (.exit hown hr) hcall
      rw [current_of_running hr, hd.serves.ret r]
      show ((Threads.exitMark r value s).thread r).ret = value
      rw [(exitMark_self r value s).1]
  | quiet armed cont hpc hp hp' hnew he =>
      rcases he with he | ⟨code, he⟩
      · cases he
      · cases he

/-- A thread that is created starts in its own code. -/
theorem Moves.created (hm : Moves s c s' (.creates t)) : s'.stage t = .plain := by
  cases hm with
  | creates armed cont hpc =>
      rw [State.stage, created_pc, Function.update_apply]
      split
      · rfl
      · rw [Function.update_self]
        rfl
  | quiet armed cont hpc hp hp' hnew he =>
      rcases he with he | ⟨code, he⟩
      · cases he
      · cases he

/-- **What a thread passed to `pthread_exit` stays stored**, and stays in the history. -/
theorem Delivering.passed_step (h : Delivering a) (hinv : Inv a.state)
    (hm : Moves a.state c s' e) (ht : s'.stage t = .exited) :
    exitValue t (a.history ++ [(a.state.current, e)]) = some (s'.thread t).ret := by
  have hnew : e ≠ .creates t := by
    intro heq
    rw [heq] at hm
    rw [hm.created] at ht
    cases ht
  rw [exitValue_append]
  rcases hm.exited ht with hold | ⟨value, rfl, rfl⟩
  · obtain ⟨r, hr, _⟩ := hinv.running
    have hcur : a.state.current ≠ t := by
      intro heq
      rw [← heq, current_of_running hr] at hold
      exact (hinv.alive hr).2.1 hold
    rw [hinv.ret hm hnew fun _ _ heq => hcur heq.symm, ← h.passed t hold]
    cases e with
    | creates u => exact if_neg fun heq : u = t => hnew (heq ▸ rfl)
    | exits value => exact if_neg hcur
    | _ => rfl
  · rw [hinv.passes hm]
    exact if_pos rfl

/-- A thread that has found another one keeps it until it returns. -/
theorem Delivering.named_step (h : Delivering a) (hinv : Inv a.state) (hinv' : Inv s')
    (hok : JoinOk a c) (hm : Moves a.state c s' e) (hids : IdStep a.state s' e) {z : Nat}
    {j : Target} (hz : (s'.stage z).target = some j) : s'.threadTable j.id = some j.thread := by
  have hold : (a.state.stage z).target = some j → a.state.threadTable j.id = some j.thread :=
    h.named z j
  cases hids with
  | other hsame hcreates hjoins =>
      rw [hsame.table]
      rcases hm.targets hz with hbefore | ⟨rfl, rfl, hpc⟩
      · exact hold hbefore
      · obtain ⟨u, hu⟩ := Option.ne_none_iff_exists'.mp (hinv'.core.joins.found _ j hz)
        rw [hsame.table] at hu
        rw [hu, hok.2 rfl j u hpc hu]
  | @creates t id n l hpc hget hid htable hself hothers =>
      rcases hm.targets hz with hbefore | ⟨_, rfl, hpc'⟩
      · have hne : j.id ≠ id := by
          intro hsame
          have hentry := hold hbefore
          rw [hsame, hid.new] at hentry
          cases hentry
        rw [htable, Function.update_of_ne hne]
        exact hold hbefore
      · cases hpc.symm.trans hpc'
  | @joins k u value hpc hu htable hplace _ =>
      rcases hm.targets hz with hbefore | ⟨_, rfl, hpc'⟩
      · have hmine : (a.state.stage a.state.current).target = some k := by
          rw [State.stage, hpc]
          rfl
        rw [htable, Function.update_of_ne]
        · exact hold hbefore
        · intro hsame
          obtain rfl := hinv.core.joins.alone z _ j k hbefore hmine hsame
          rw [hplace] at hz
          cases hz
      · cases hpc.symm.trans hpc'

/-- A join ends with the thread that it has named. -/
theorem Delivering.finishesNamed (h : Delivering a) : FinishesNamed a.state := by
  intro j hpc
  refine h.named a.state.current j ?_
  rw [State.stage, hpc]
  rfl

/-- What is released was named. -/
theorem Delivering.releases (h : Delivering a) {named released : Nat} {value : Option Nat}
    (hm : Moves a.state c s' (.joins named released value)) : released = named := by
  obtain ⟨j, hpc, rfl, htable, _⟩ := hm.joining
  exact Option.some.inj (htable.symm.trans (h.finishesNamed j hpc))

private theorem Delivering.agrees_step (h : Delivering a) (hm : Moves a.state c s' e) (x : Nat) :
    unreleased (a.history ++ [(x, e)]) = unjoined (a.history ++ [(x, e)]) := by
  rw [unreleased_append, unjoined_append, h.agrees]
  cases e with
  | joins named released value => rw [h.releases hm]
  | _ => rfl

/-- **One step** keeps the values for the joins. -/
theorem Delivering.step (h : Delivering a) (hgood : Good a.state) (hinit : a.state.init = true)
    (hok : JoinOk a c) (hstep : WorldStep a c b) : Delivering b := by
  have hinv := hgood.after hinit
  have hent := h.entered.step hinv hinit hok.1 h.finishesNamed hstep
  obtain ⟨s, e, hexec, rfl⟩ := hstep
  have hm := exec_moves hexec
  have hinv' := hinv.step hinit hok.1 hm
  have hids := hinv.idStep hinit hok.1 hm
  exact ⟨hent, fun z j hz => h.named_step hinv hinv' hok hm hids hz,
    fun t ht => h.passed_step hinv hm ht, h.agrees_step hm _⟩

/-- No thread exits before the scheduler starts. -/
theorem Good.stays_plain (h : Good s) (hoff : s.init = false) (hm : Moves s c s' e) (t : Nat) :
    s'.stage t ≠ .exited := by
  have hb := h.before hoff
  intro ht
  rcases hm.exited ht with hold | ⟨value, rfl, _⟩
  · by_cases hzero : t = 0
    · rw [hzero, hb.main] at hold
      cases hold
    · rw [hb.others t hzero] at hold
      cases hold
  · cases hm with
    | exits hown hr =>
        rw [hb.running] at hr
        cases hr
    | quiet armed cont hpc hp hp' hnew he =>
        rcases he with he | ⟨code, he⟩
        · cases he
        · cases he

/-- So does the first call of the library. -/
theorem Delivering.begin (h : Delivering a) (hgood : Good a.state) (hoff : a.state.init = false)
    (hstep : WorldStep a c b) : Delivering b := by
  have hent := h.entered.begin hgood hoff hstep
  obtain ⟨s, e, hexec, rfl⟩ := hstep
  have hm := exec_moves hexec
  refine ⟨hent, ?_, ?_, h.agrees_step hm _⟩
  · intro z j hz
    have hz' : (s.stage z).wanted = some j := wanted_of_target hz
    rw [hgood.stays_idle hoff hexec] at hz'
    cases hz'
  · intro t ht
    exact absurd ht (hgood.stays_plain hoff hm t)

/-- **The joins find the threads they name** in every run that meets the condition. -/
theorem delivering_of_reached (h : Reached JoinOk a) : Good a.state ∧ Delivering a := by
  apply h.invariant (I := fun a => Good a.state ∧ Delivering a)
  · intro b hb
    obtain ⟨hinit, hhist⟩ := hb
    have hgood := Good.initial hinit
    refine ⟨hgood, Entered.initial hinit hhist, ?_, ?_, ?_⟩
    · intro z j hz
      have hz' := wanted_of_target hz
      rw [hgood.idle hinit.init] at hz'
      cases hz'
    · intro t ht
      rw [State.stage, hinit.pc, Function.update_apply] at ht
      split at ht
      · cases ht
      · cases ht
    · rw [hhist]
      rfl
  · intro b c d _ hb hstep
    obtain ⟨hgood, hdel⟩ := hb
    refine ⟨?_, ?_⟩
    · obtain ⟨s, e, hexec, rfl⟩ := hstep.2
      exact hgood.step hstep.1.1 (exec_moves hexec)
    · cases hinit : b.state.init with
      | false => exact hdel.begin hgood hinit hstep.2
      | true => exact hdel.step hgood hinit hstep.1 hstep.2

/-- **A join that returns 0** delivers the result of the thread it was given. -/
theorem Delivering.delivers (h : Delivering a) (hgood : Good a.state) {named released : Nat}
    {value : Option Nat} (hm : Moves a.state c s' (.joins named released value)) :
    Delivers a ⟨s', a.history ++ [(x, .joins named released value)]⟩ named released value := by
  obtain ⟨j, hpc, rfl, htable, hvalue, hafter, hlist⟩ := hm.joining
  have hinit : a.state.init = true := by
    by_contra hoff
    have hb := hgood.before (Bool.not_eq_true _ ▸ hoff)
    have hplain : (a.state.pc a.state.current).stage = .plain := by
      rw [hb.current_eq]
      exact hb.main
    rw [hpc] at hplain
    cases hplain
  have hinv := hgood.after hinit
  have hnamed := h.finishesNamed j hpc
  obtain rfl := h.releases hm
  have hid := (hinv.core.tables.table _ _ hnamed).2.1
  have hexited := hinv.finished hpc hnamed
  have hmem : j.thread ∈ unreleased a.history := by
    rw [h.agrees]
    exact h.entered.table hinit _ _ hnamed
  have hnodup : (unreleased a.history).Nodup := h.agrees ▸ h.entered.nodup
  constructor
  case same => rfl
  case exited => exact hexited
  case value =>
    refine ⟨_, h.passed _ hexited, ?_⟩
    intro k hk
    obtain rfl := Pc.joinFinish.inj (hpc.symm.trans hk)
    exact hvalue
  case once =>
    refine ⟨List.count_eq_one_of_mem hnodup hmem, ?_⟩
    show (unreleased (a.history ++ _)).count _ = 0
    rw [unreleased_append]
    exact List.count_eq_zero_of_not_mem hnodup.not_mem_erase
  case entry =>
    rw [hid]
    refine ⟨hnamed, ?_⟩
    show s'.threadTable j.id = none
    rw [hafter, Function.update_self]
  case id =>
    rw [hid]
    exact hlist

/-- Only a join that names a thread releases it. -/
theorem Delivering.stays (h : Delivering a) (hafter : Delivering ⟨s', a.history ++ [(x, e)]⟩)
    (hm : Moves a.state c s' e) (ht : t ∈ unreleased a.history) :
    (∃ value, e = .joins t t value) ∨ t ∈ unreleased (a.history ++ [(x, e)]) ∧
      s'.threadTable (s'.thread t).id = some t := by
  have hstored : t ∈ unreleased (a.history ++ [(x, e)]) →
      s'.threadTable (s'.thread t).id = some t := by
    intro hmem
    rw [hafter.agrees] at hmem
    exact (hafter.entered.member t hmem).2
  by_cases hjoins : ∃ value, e = .joins t t value
  · exact Or.inl hjoins
  · have hmem : t ∈ unreleased (a.history ++ [(x, e)]) := by
      rw [unreleased_append]
      cases e with
      | creates u => exact List.mem_append_left _ ht
      | joins named released value =>
          obtain rfl := h.releases hm
          refine (List.mem_erase_of_ne ?_).mpr ht
          intro heq
          exact hjoins ⟨value, heq ▸ rfl⟩
      | _ => exact ht
    exact Or.inr ⟨hmem, hstored hmem⟩

end Results

/-- **A join delivers the result of the thread it names, and releases it once**, in a run that
meets the condition. -/
theorem joins_deliver {a : World} (h : Reached JoinOk a) {c : Action} {s : State} {e : Event}
    (hok : JoinOk a c) (hexec : exec a.state c = some (s, e)) :
    ReleasesRight a ⟨s, a.history ++ [(a.state.current, e)]⟩ e := by
  obtain ⟨hgood, hdel⟩ := delivering_of_reached h
  have hm := exec_moves hexec
  have hnext := h.next ⟨hok, s, e, hexec, rfl⟩
  refine ⟨?_, ?_⟩
  · intro named released value heq
    subst heq
    exact hdel.delivers hgood hm
  · intro t ht
    exact hdel.stays (delivering_of_reached hnext).2 hm ht

/-- Where each thread is joined at most once, a join finds the thread it names. -/
theorem IdsOk.joinOk {a : World} {c : Action} (h : IdsOk a c) (hgood : Good a.state)
    (hlink : Linked a) : JoinOk a c := by
  refine ⟨h.ruled hgood hlink, ?_⟩
  intro _ j u hpc hu
  have hwants : (a.state.stage a.state.current).wanted = some j := by
    rw [State.stage, hpc]
    rfl
  exact Option.some.inj (hu.symm.trans (hlink.named _ j hwants))

/-- Threads that are joined at most once are joined rightly. -/
theorem joinOk_of_ids {a : World} (h : Reached IdsOk a) : Reached JoinOk a := by
  apply h.invariant (I := Reached JoinOk)
  · intro b hb
    exact .start hb
  · intro b c d hb ih hstep
    obtain ⟨hgood, hlink⟩ := linked_of_reached hb
    exact ih.next ⟨hstep.1.joinOk hgood hlink, hstep.2⟩

/-- `main` creates a thread, which exits with 5. -/
def passing : List Action :=
  [.call (.create 1 .available), .advance, .call .yield, .advance, .call (.exit 5)]

/-- `main` joins the thread. -/
theorem joins_deliver_five : ∃ a s, exec a.state .advance = some (s, .joins 1 1 (some 5)) ∧
    ReleasesRight a ⟨s, a.history ++ [(a.state.current, .joins 1 1 (some 5))]⟩
      (.joins 1 1 (some 5)) := by
  have hsome : ((runs passing blankWorld.state).map fun s =>
      (decide (s.init = true ∧ s.threadTable (s.thread 1).id = some 1),
        (scanned 1 true s).map fun u => (allowed calm [.advance, .advance] u,
          (runs [.advance, .advance] u).map fun s' => decide (calm s' .advance = true ∧
            (exec s' .advance).map Prod.snd = some (.joins 1 1 (some 5)))))) =
      some (true, some (true, some true)) := by
    decide +kernel
  obtain ⟨s₁, hruns, hseen⟩ := Option.map_eq_some_iff.mp hsome
  obtain ⟨hready, hseen⟩ := Prod.mk.inj hseen
  obtain ⟨hinit, htable⟩ := of_decide_eq_true hready
  obtain ⟨s₂, hscanned, hseen⟩ := Option.map_eq_some_iff.mp hseen
  obtain ⟨hcalm, hseen⟩ := Prod.mk.inj hseen
  obtain ⟨s₃, hruns', hseen⟩ := Option.map_eq_some_iff.mp hseen
  obtain ⟨hlast, hseen⟩ := of_decide_eq_true hseen
  obtain ⟨⟨s, e⟩, hexec, rfl⟩ := Option.map_eq_some_iff.mp hseen
  have hpassing : allowed calm passing blankWorld.state = true := by decide +kernel
  have hidle := stays_calm ((linked_of_reached reached_blankWorld).1.idle rfl) hpassing hruns
  have hvisit := (visited_blank.calm hpassing hruns).joins hidle hinit htable hscanned
  obtain ⟨hist, hreach⟩ := hvisit.calm hcalm hruns'
  obtain ⟨hgood, hlink⟩ := linked_of_reached hreach
  have hok := (idsOk_of_calm (a := ⟨s₃, hist⟩) hgood hlink hlast).joinOk hgood hlink
  exact ⟨_, s, hexec, joins_deliver (joinOk_of_ids hreach) hok hexec⟩

/-- Threads 1 and `main` join thread 2.  Thread 1 comes to the table after `main` has returned and
the ID was given to thread 3, and releases that one. -/
theorem stranger_released : ¬ ∀ a, Reached (fun _ _ => True) a → ∀ c s e,
    exec a.state c = some (s, e) →
    ReleasesRight a ⟨s, a.history ++ [(a.state.current, e)]⟩ e := by
  intro hclaim
  have hsome : (((((((runs [.call (.create 1 .available), .advance, .call (.create 2 .available),
      .advance, .call .yield, .advance] blankWorld.state).bind (scanned 2 true)).bind
      (runs (List.replicate 15 .alarm ++ [.call (.exit 7)]))).bind (scanned 2 true)).bind
      (runs [.advance, .advance, .advance, .call (.create 3 .available), .advance, .call .yield,
        .advance, .advance, .advance, .advance, .advance, .call (.exit 9), .call .yield,
        .advance])).bind fun s => exec s .advance).map Prod.snd) = some (.joins 2 3 (some 9)) := by
    decide +kernel
  obtain ⟨⟨s, e⟩, hexec, rfl⟩ := Option.map_eq_some_iff.mp hsome
  obtain ⟨s₅, hexec, hlast⟩ := Option.bind_eq_some_iff.mp hexec
  obtain ⟨s₄, hexec, hruns₅⟩ := Option.bind_eq_some_iff.mp hexec
  obtain ⟨s₃, hexec, hscan₄⟩ := Option.bind_eq_some_iff.mp hexec
  obtain ⟨s₂, hexec, hruns₃⟩ := Option.bind_eq_some_iff.mp hexec
  obtain ⟨s₁, hruns₁, hscan₂⟩ := Option.bind_eq_some_iff.mp hexec
  have hfree : ∀ {u u' : State}, Visited (fun _ _ => True) u → scanned 2 true u = some u' →
      Visited (fun _ _ => True) u' :=
    fun h hs => h.scanned (fun _ _ => trivial) (fun _ _ _ _ _ => trivial) hs
  have hjoins := hfree (visited_blank.runs hruns₁) hscan₂
  obtain ⟨hist, hreach⟩ := (hfree (hjoins.runs hruns₃) hscan₄).runs hruns₅
  have hright := (hclaim ⟨s₅, hist⟩ hreach .advance s _ hlast).1 2 3 (some 9) rfl
  exact absurd hright.same (by decide)

end Threads
