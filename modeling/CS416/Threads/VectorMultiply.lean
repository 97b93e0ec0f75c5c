import CS416.Lib.CInt
import CS416.Threads.Handover

/-!
# The vector benchmark

`vectorMultiply.c` multiplies two vectors: each thread adds the products of its
own indices to `res`, one at a time and under a mutex.  The load of `res`, the
addition and the store are steps of their own, and the alarm may come between
any two of them.  `int` arithmetic wraps around.

The calls of `vector_multiply` do not look at what they return.
-/

namespace Threads

open CInt

/-- What `main` sets up: the number of threads, the vectors and the mutex. -/
structure Benchmark where
  threadNum : Nat
  vectorSize : Nat
  r : Nat → Int
  s : Nat → Int
  mutex : Nat

/-- `r[i] * s[i]` -/
def Benchmark.product (p : Benchmark) (i : Nat) : Int := toInt (p.r i * p.s i)

/-- `verify` -/
def Benchmark.verify (p : Benchmark) : Int :=
  (List.range p.vectorSize).foldl (fun res i => toInt (res + p.product i)) 0

/-- Thread `t` runs `vector_multiply` on `counter[t - 1]`, which is `t - 1`. -/
def Benchmark.Worker (p : Benchmark) (t : Nat) : Prop := 1 ≤ t ∧ t ≤ p.threadNum

instance (p : Benchmark) (t : Nat) : Decidable (p.Worker t) := inferInstanceAs (Decidable (_ ∧ _))

/-- Where a thread is in `vector_multiply`: at the test of the loop, inside the call that locks,
between the two calls, or at its end. -/
inductive Place
  | test (i : Nat)
  | locking (i : Nat)
  | inside (i : Nat)
  | read (i : Nat) (v : Int)
  | stored (i : Nat)
  | finished
  deriving DecidableEq

/-- The call that locks has returned, with whatever code. -/
def Place.returns (pl : Place) (e : Event) : Place :=
  match pl, e with
  | .locking i, .locks _ | .locking i, .fails _ => .inside i
  | pl, _ => pl

/-- The library and the variables of the program. -/
structure Process where
  world : World
  res : Int
  place : Nat → Place

def Process.current (a : Process) : Nat := a.world.state.current

def Process.enters (a : Process) (pl : Place) : Process :=
  { a with place := Function.update a.place a.current pl }

/-- The library has made a step, and the running thread is at `pl`. -/
def Process.moved (a : Process) (s : State) (e : Event) (pl : Place) : Process where
  world := ⟨s, a.world.history ++ [(a.current, e)]⟩
  res := a.res
  place := Function.update a.place a.current pl

def Process.calls (a : Process) (c : Action) (next : Event → Place) : Option Process :=
  (exec a.world.state c).map fun out => a.moved out.1 out.2 (next out.2)

/-- `vector_multiply`, a step of the running thread's own code. -/
def vectorMultiply (p : Benchmark) (a : Process) : Option Process :=
  match a.place a.current with
  | .test i =>
    if i < p.vectorSize then
      a.calls (.call (.lock (some p.mutex))) (Place.locking i).returns
    else a.calls (.call (.exit 0)) fun _ => .finished
  | .inside i => some (a.enters (.read i a.res))
  | .read i v => some { a.enters (.stored i) with res := toInt (v + p.product i) }
  | .stored i => a.calls (.call (.unlock p.mutex)) fun _ => .test (i + p.threadNum)
  | .locking _ | .finished => none

/-- Whose turn it is: an alarm, a step inside a call or a call of another thread is one of the
library; a thread of the benchmark makes its calls in its own code. -/
inductive Turn
  | library (c : Action)
  | work

def Process.step (p : Benchmark) (a : Process) : Turn → Option Process
  | .library c =>
    if p.Worker a.current ∧ c ≠ .alarm ∧ c ≠ .advance then none
    else a.calls c (a.place a.current).returns
  | .work =>
    if p.Worker a.current ∧ a.world.state.pc a.current = .own then vectorMultiply p a else none

/-- The other threads, `main` among them, keep the contract of the library. -/
def TurnOk (a : Process) : Turn → Prop
  | .library c => HandOk a.world c
  | .work => True

/-- The mutex is initialised, and none of the threads has run. -/
structure Prepared (p : Benchmark) (a : Process) : Prop where
  reached : Reached HandOk a.world
  inited : inited p.mutex a.world.history = true
  atStart : ∀ t, p.Worker t → a.world.state.pc t = .own ∨ a.world.state.pc t = .unborn
  unlocked : ∀ t, p.Worker t → (a.world.state.mutex p.mutex).user ≠ some t
  place : ∀ t, p.Worker t → a.place t = .test (t - 1)
  res : a.res = 0

def ProcessReached (p : Benchmark) : Process → Prop :=
  Runs.Reach (Prepared p) fun a turn b => TurnOk a turn ∧ a.step p turn = some b

section Shares

variable {p : Benchmark} {n i : Nat} {v : Int}

/-- The indices of a thread that are added are those below. -/
def Place.reach (size : Nat) : Place → Nat
  | .test i | .locking i | .inside i | .read i _ => i
  | .stored i => i + 1
  | .finished => size

/-- What thread `n + 1` has added at `pl`. -/
def Benchmark.share (p : Benchmark) (n : Nat) (pl : Place) : Int :=
  ∑ i ∈ Finset.range p.vectorSize with i % p.threadNum = n ∧ i < pl.reach p.vectorSize, p.product i

private theorem share_congr {pl pl' : Place} (h : ∀ j < p.vectorSize, j % p.threadNum = n →
    (j < pl.reach p.vectorSize ↔ j < pl'.reach p.vectorSize)) : p.share n pl = p.share n pl' := by
  refine Finset.sum_congr (Finset.filter_congr fun j hj => ?_) fun _ _ => rfl
  exact and_congr_right (h j (Finset.mem_range.mp hj))

/-- A thread has added nothing at first. -/
theorem share_start (h : n < p.threadNum) : p.share n (.test n) = 0 := by
  refine Finset.sum_eq_zero fun j hj => ?_
  obtain ⟨_, hmod, hlt⟩ := Finset.mem_filter.mp hj
  have hj : j < n := hlt
  rw [Nat.mod_eq_of_lt (hj.trans h)] at hmod
  omega

/-- A store adds one product to the thread's share. -/
theorem share_stored (hi : i < p.vectorSize) (hn : i % p.threadNum = n) :
    p.share n (.stored i) = p.share n (.read i v) + p.product i := by
  have hsplit : (Finset.range p.vectorSize).filter (fun j => j % p.threadNum = n ∧ j < i + 1) =
      insert i ((Finset.range p.vectorSize).filter fun j => j % p.threadNum = n ∧ j < i) := by
    ext j
    simp only [Finset.mem_filter, Finset.mem_range, Finset.mem_insert]
    constructor
    · intro ⟨hj, hmod, hlt⟩
      by_cases hji : j = i
      · exact Or.inl hji
      · exact Or.inr ⟨hj, hmod, by omega⟩
    · intro h
      rcases h with rfl | ⟨hj, hmod, hlt⟩
      · exact ⟨hi, hn, by omega⟩
      · exact ⟨hj, hmod, by omega⟩
  have hout : i ∉ (Finset.range p.vectorSize).filter fun j => j % p.threadNum = n ∧ j < i := by
    simp
  show ∑ j ∈ Finset.filter (fun j => j % p.threadNum = n ∧ j < i + 1) _, p.product j = _
  rw [hsplit, Finset.sum_insert hout, add_comm]
  rfl

/-- The next index of a thread is `thread_num` further. -/
theorem share_next (hpos : 0 < p.threadNum) (hn : i % p.threadNum = n) :
    p.share n (.test (i + p.threadNum)) = p.share n (.stored i) := by
  refine share_congr fun j _ hmod => ?_
  show j < i + p.threadNum ↔ j < i + 1
  refine ⟨fun hlt => ?_, fun hlt => by omega⟩
  by_contra hge
  have hdvd : p.threadNum ∣ j - i :=
    (Nat.modEq_iff_dvd' (show i ≤ j by omega)).mp (hn.trans hmod.symm)
  have hle := Nat.le_of_dvd (by omega) hdvd
  omega

private theorem share_end (hi : p.vectorSize ≤ i) : p.share n .finished = p.share n (.test i) :=
  share_congr fun _ hj _ => iff_of_true hj (hj.trans_le hi)

/-- The shares of all threads make up the sum. -/
theorem sum_shares (p : Benchmark) (hpos : 0 < p.threadNum) :
    ∑ n ∈ Finset.range p.threadNum, p.share n .finished =
      ∑ i ∈ Finset.range p.vectorSize, p.product i := by
  have hfull : ∀ n, p.share n .finished =
      ∑ i ∈ Finset.range p.vectorSize with i % p.threadNum = n, p.product i := fun n => by
    refine Finset.sum_congr (Finset.filter_congr fun j hj => ?_) fun _ _ => rfl
    exact and_iff_left (Finset.mem_range.mp hj)
  simp only [hfull]
  exact Finset.sum_fiberwise_of_maps_to
    (fun j _ => Finset.mem_range.mpr (Nat.mod_lt j hpos)) p.product

private theorem toInt_add (x y : Int) : toInt (toInt x + y) = toInt (x + y) := Int.bmod_add_bmod ..

/-- `verify` adds all products. -/
theorem verify_eq (p : Benchmark) :
    p.verify = toInt (∑ i ∈ Finset.range p.vectorSize, p.product i) := by
  unfold Benchmark.verify
  induction p.vectorSize with
  | zero => rfl
  | succ n ih =>
      rw [List.range_succ, List.foldl_append, ih, Finset.sum_range_succ]
      exact toInt_add ..

/-- One thread goes on. -/
theorem sum_update {t : Nat} (hw : p.Worker t) (place : Nat → Place) (pl : Place) :
    ∑ n ∈ Finset.range p.threadNum, p.share n (Function.update place t pl (n + 1)) =
      ∑ n ∈ Finset.range p.threadNum, p.share n (place (n + 1)) +
        (p.share (t - 1) pl - p.share (t - 1) (place t)) := by
  have hmem : t - 1 ∈ Finset.range p.threadNum := by
    have := hw.1
    have := hw.2
    rw [Finset.mem_range]
    omega
  have ht : t - 1 + 1 = t := Nat.sub_add_cancel hw.1
  rw [← Finset.add_sum_erase _ _ hmem, ← Finset.add_sum_erase _ _ hmem, ht,
    Function.update_self]
  have hothers : ∀ n ∈ (Finset.range p.threadNum).erase (t - 1),
      p.share n (Function.update place t pl (n + 1)) = p.share n (place (n + 1)) := fun n hn => by
    have hne := (Finset.mem_erase.mp hn).1
    rw [Function.update_of_ne (by omega)]
  rw [Finset.sum_congr rfl hothers]
  ring

end Shares

section Calls

variable {s s' : State} {m t : Nat} {e : Event} {c : Action} {value : Nat}

/-- What `my_pthread_mutex_lock` does: it fails for the owner, or locks, or waits. -/
theorem lock_result (h : exec s (.call (.lock (some m))) = some (s', e)) :
    (s.mutex m).user = s.running ∨ e = .locks m ∧ s'.pc = s.pc ∨
      e = .waits m ∧ s'.pc = Function.update s.pc s.current (.lockRaise m) := by
  obtain ⟨_, hcall⟩ := Option.ite_none_right_eq_some.mp h
  dsimp only [call, myPthreadMutexLock] at hcall
  split at hcall
  · exact Or.inl ‹_›
  split at hcall
  · obtain ⟨rfl, rfl⟩ := Prod.mk.inj (Option.some.inj hcall)
    exact Or.inr (Or.inl ⟨rfl, rfl⟩)
  · obtain ⟨r, _, hrest⟩ := Option.bind_eq_some_iff.mp hcall
    obtain ⟨queue, _, hrest⟩ := Option.bind_eq_some_iff.mp hrest
    obtain ⟨rfl, rfl⟩ := Prod.mk.inj (Option.some.inj hrest)
    exact Or.inr (Or.inr ⟨rfl, rfl⟩)

/-- `my_pthread_mutex_unlock` by the owner. -/
theorem unlock_result (h : exec s (.call (.unlock m)) = some (s', e))
    (huser : (s.mutex m).user = s.running) : (∃ next, e = .unlocks m next) ∧ s'.pc = s.pc := by
  obtain ⟨_, hcall⟩ := Option.ite_none_right_eq_some.mp h
  dsimp only [call, myPthreadMutexUnlock] at hcall
  split at hcall
  · exact absurd huser ‹_›
  · obtain ⟨queue, _, hrest⟩ := Option.bind_eq_some_iff.mp hcall
    split at hrest
    · obtain ⟨rfl, rfl⟩ := Prod.mk.inj (Option.some.inj hrest)
      exact ⟨⟨_, rfl⟩, rfl⟩
    · obtain ⟨rfl, rfl⟩ := Prod.mk.inj (Option.some.inj hrest)
      exact ⟨⟨_, rfl⟩, rfl⟩

private theorem exit_result (h : exec s (.call (.exit value)) = some (s', e)) :
    e = .exits value ∧ s'.pc s.current = .exited := by
  obtain ⟨_, hcall⟩ := Option.ite_none_right_eq_some.mp h
  obtain ⟨r, _, hrest⟩ := Option.bind_eq_some_iff.mp hcall
  obtain ⟨u, hraise, hrest⟩ := Option.bind_eq_some_iff.mp hrest
  obtain ⟨rfl, rfl⟩ := Prod.mk.inj (Option.some.inj hrest)
  refine ⟨rfl, ?_⟩
  rw [raise_pc hraise]
  exact Function.update_self ..

/-- A step inside the call that locks. -/
theorem locking_result (hlocks : (s.pc s.current).locks = some m)
    (h : advance s = some (s', e)) :
    e = .silent ∧ (s'.pc s.current).locks = some m ∨ e = .locks m ∧ s'.pc s.current = .own := by
  unfold advance at h
  cases hpc : s.pc s.current with
  | lockRaise k =>
      rw [hpc] at h hlocks
      obtain rfl := Option.some.inj hlocks
      obtain ⟨u, hraise, hrest⟩ := Option.map_eq_some_iff.mp h
      obtain ⟨rfl, rfl⟩ := Prod.mk.inj hrest
      left
      rw [raise_pc hraise, Function.update_self]
      exact ⟨rfl, rfl⟩
  | lockClaim k =>
      rw [hpc] at h hlocks
      obtain rfl := Option.some.inj hlocks
      obtain ⟨rfl, rfl⟩ := Prod.mk.inj (Option.some.inj h)
      left
      refine ⟨rfl, ?_⟩
      exact congrArg Pc.locks (pc_goto (.lockReturn k) _)
  | lockReturn k =>
      rw [hpc] at h hlocks
      obtain rfl := Option.some.inj hlocks
      obtain ⟨rfl, rfl⟩ := Prod.mk.inj (Option.some.inj h)
      exact Or.inr ⟨rfl, pc_goto .own _⟩
  | _ =>
      rw [hpc] at hlocks
      cases hlocks

/-- A step moves its own thread; a thread that it creates starts in its own code. -/
theorem Moves.pc_ne (hm : Moves s c s' e) (hmain : t ≠ 0) (ht : t ≠ s.current) :
    s'.pc t = s.pc t ∨
      c = .advance ∧ s.pc s.current = .creating t .available ∧ s'.pc t = .own := by
  have hgoto : ∀ {u : State} {p : Pc}, u.pc = Function.update s.pc s.current p →
      u.pc t = s.pc t := fun hu => by rw [hu, Function.update_of_ne ht]
  cases hm with
  | alarm hon hcall => exact Or.inl (congrFun (schedulerAlarmHandler_frame hcall).pc t)
  | starts hown =>
      left
      split
      · exact hgoto rfl
      · exact Function.update_of_ne hmain ..
  | refuses | noMemory | locks | unlocks | hands => exact Or.inl rfl
  | destroys => exact Or.inl (congrFun (activate_pc _ s) t)
  | exits hown hr hcall =>
      left
      rw [raise_pc hcall]
      exact hgoto (u := s.goto .exited) rfl
  | signals hpc hp hcall => exact Or.inl (hgoto (raise_pc hcall))
  | @creates k armed cont hpc =>
      rw [created_pc, Function.update_of_ne ht]
      by_cases htk : t = k
      · rw [htk, Function.update_self]
        exact Or.inr ⟨rfl, hpc, rfl⟩
      · exact Or.inl (Function.update_of_ne htk ..)
  | yields | enters | queues | waits | quiet | asks | denied | finds | isDone | notDone | blocks
  | finishes | clears | inits | claims | returns => exact Or.inl (hgoto rfl)

/-- What other threads do is nothing to a thread that holds a lock, or does not. -/
theorem holds_ne {u : Nat} {hist : List (Nat × Event)} (ht : t ≠ u) :
    Locks.holds t (lockEvents m (hist ++ [(u, e)])) = Locks.holds t (lockEvents m hist) := by
  rw [lockEvents_append]
  unfold lockEvent
  split
  · split
    · rw [Option.toList_some, Locks.holds_locks, if_neg (Ne.symm ht)]
    · rw [Option.toList_none, List.append_nil]
  · split
    · rw [Option.toList_some, Locks.holds_waits]
    · rw [Option.toList_none, List.append_nil]
  · split
    · rw [Option.toList_some, Locks.holds_unlocks, if_neg (Ne.symm ht)]
    · rw [Option.toList_none, List.append_nil]
  · rw [Option.toList_none, List.append_nil]

end Calls

/-- Whether a thread holds the mutex there. -/
def Place.holds : Place → Bool
  | .inside _ | .read _ _ | .stored _ => true
  | .test _ | .locking _ | .finished => false

/-- Where thread `t` is in the library when it is at a place of `vector_multiply`. -/
def Sits (p : Benchmark) (t : Nat) (pc : Pc) : Place → Prop
  | .test i => (pc = .own ∨ pc = .unborn) ∧ i % p.threadNum + 1 = t
  | .locking i => pc.locks = some p.mutex ∧ i < p.vectorSize ∧ i % p.threadNum + 1 = t
  | .inside i | .read i _ | .stored i =>
    pc = .own ∧ i < p.vectorSize ∧ i % p.threadNum + 1 = t
  | .finished => pc = .exited

/-- `res` is what the threads have added, and only the owner of the mutex has read it. -/
structure Kept (p : Benchmark) (a : Process) : Prop where
  reached : Reached HandOk a.world
  inited : inited p.mutex a.world.history = true
  sits : ∀ t, p.Worker t → Sits p t (a.world.state.pc t) (a.place t)
  holds : ∀ t, p.Worker t →
    Locks.holds t (lockEvents p.mutex a.world.history) = (a.place t).holds
  fresh : ∀ t, p.Worker t → ∀ i v, a.place t = .read i v → v = a.res
  sum : a.res = toInt (∑ n ∈ Finset.range p.threadNum, p.share n (a.place (n + 1)))

/-- A thread of the benchmark makes a step of the library, and is at `pl` then. -/
structure Goes (p : Benchmark) (a : Process) (pc : Pc) (e : Event) (pl : Place) : Prop where
  sits : Sits p a.current pc pl
  holds : Locks.holds a.current (lockEvents p.mutex (a.world.history ++ [(a.current, e)])) =
    pl.holds
  fresh : ∀ i v, pl = .read i v → a.place a.current = .read i v
  share : p.share (a.current - 1) pl = p.share (a.current - 1) (a.place a.current)

section Kept

variable {p : Benchmark} {a b : Process} {s : State} {c : Action} {e : Event} {t : Nat}
  {pl : Place} {res : Int} {hist : List (Nat × Event)}

@[simp] theorem moved_self : (a.moved s e pl).place a.current = pl := Function.update_self ..

private theorem moved_ne (ht : t ≠ a.current) : (a.moved s e pl).place t = a.place t :=
  Function.update_of_ne ht ..

@[simp] theorem enters_self : (a.enters pl).place a.current = pl := Function.update_self ..

private theorem enters_ne (ht : t ≠ a.current) : (a.enters pl).place t = a.place t :=
  Function.update_of_ne ht ..

private theorem pc_of_unborn (h : s.stage t = .unborn) : s.pc t = .unborn := by
  unfold State.stage at h
  cases hpc : s.pc t with
  | unborn => rfl
  | _ =>
      rw [hpc] at h
      cases h

private theorem pc_of_exited (h : s.stage t = .exited) : s.pc t = .exited := by
  unfold State.stage at h
  cases hpc : s.pc t with
  | exited => rfl
  | _ =>
      rw [hpc] at h
      cases h

private theorem advance_own (hpc : s.pc s.current = .own ∨ s.pc s.current = .unborn ∨
    s.pc s.current = .exited) : advance s = none := by
  unfold advance
  rcases hpc with hpc | hpc | hpc <;> rw [hpc]

/-- A thread that has exited stays so. -/
theorem exited_stays {u : State} (hok : Contract ⟨u, hist⟩ c) (hexec : exec u c = some (s, e))
    (ht : t ≠ 0) (hexited : u.stage t = .exited) : s.stage t = .exited := by
  have hpc := pc_of_exited hexited
  by_cases hcur : t = u.current
  · subst hcur
    cases c with
    | alarm =>
        obtain ⟨_, hcall⟩ := Option.ite_none_right_eq_some.mp hexec
        obtain ⟨u', hhandler, heq⟩ := Option.map_eq_some_iff.mp hcall
        obtain ⟨rfl, rfl⟩ := Prod.mk.inj heq
        rw [State.stage, (schedulerAlarmHandler_frame hhandler).pc]
        exact hexited
    | advance =>
        replace hexec : advance u = some (s, e) := hexec
        rw [advance_own (Or.inr (Or.inr hpc))] at hexec
        cases hexec
    | call d =>
        obtain ⟨hown, _⟩ := Option.ite_none_right_eq_some.mp hexec
        rw [hpc] at hown
        cases hown
  · rcases (exec_moves hexec).pc_ne ht hcur with hsame | ⟨rfl, hcreating, _⟩
    · rw [State.stage, hsame]
      exact hexited
    · have hnew := (hok t hcreating).2
      rw [hexited] at hnew
      cases hnew

/-- A thread that was joined has exited. -/
theorem joined_exited {a : World} {z u : Nat} {value : Option Nat} (h : Reached HandOk a)
    (ht : t ≠ 0) (hmem : (z, .joins t u value) ∈ a.history) : a.state.stage t = .exited := by
  induction h with
  | start hinit =>
      rw [hinit.2] at hmem
      cases hmem
  | @next a b c hreach hstep ih =>
      obtain ⟨hok, s, e, hexec, rfl⟩ := hstep
      refine exited_stays hok.1 hexec ht ?_
      rcases List.mem_append.mp hmem with hold | hnew
      · exact ih hold
      · obtain ⟨rfl, rfl⟩ := Prod.mk.inj (List.mem_singleton.mp hnew)
        obtain ⟨hids, _, hfollows⟩ := follows_of_reached hreach
        obtain ⟨hgood, hlink⟩ := linked_of_reached hids
        have hjoin := (hok.idsOk hgood hlink hfollows).joinOk hgood hlink
        exact ((joins_deliver (joinOk_of_ids hids) hjoin hexec).1 t u value rfl).exited

private theorem Sits.finished_of_exited (h : Sits p t .exited pl) : pl = .finished := by
  cases pl with
  | finished => rfl
  | test i => exact h.1.elim (fun hpc => by cases hpc) fun hpc => by cases hpc
  | locking i => cases h.1
  | inside i | read i v | stored i => cases h.1

/-- A thread that is created starts at its first test. -/
theorem Sits.born (h : Sits p t .unborn pl) : Sits p t .own pl := by
  cases pl with
  | test i => exact ⟨Or.inl rfl, h.2⟩
  | locking i => cases h.1
  | inside i | read i v | stored i => cases h.1
  | finished => cases h

/-- A step of another thread. -/
theorem Sits.other {u : State} (h : Sits p t (u.pc t) pl) (hok : Contract ⟨u, hist⟩ c)
    (hm : Moves u c s e) (hzero : t ≠ 0) (ht : t ≠ u.current) : Sits p t (s.pc t) pl := by
  rcases hm.pc_ne hzero ht with hpc | ⟨rfl, hcreating, hpc⟩
  · rw [hpc]
    exact h
  · have hnew : u.pc t = .unborn := pc_of_unborn (hok t hcreating).2
    rw [hpc]
    rw [hnew] at h
    exact h.born

/-- A step of the library. -/
theorem Kept.moved (h : Kept p a) (hok : HandOk a.world c)
    (hexec : exec a.world.state c = some (s, e))
    (hgoes : p.Worker a.current → Goes p a (s.pc a.current) e pl) : Kept p (a.moved s e pl) := by
  have hm := exec_moves hexec
  constructor
  case reached => exact h.reached.next ⟨hok, s, e, hexec, rfl⟩
  case inited => exact inited_more h.inited
  case sits =>
    intro t hw
    by_cases ht : t = a.current
    · subst ht
      rw [moved_self]
      exact (hgoes hw).sits
    · have hzero : t ≠ 0 := Nat.ne_of_gt hw.1
      rw [moved_ne ht]
      exact (h.sits t hw).other hok.1 hm hzero ht
  case holds =>
    intro t hw
    by_cases ht : t = a.current
    · subst ht
      rw [moved_self]
      exact (hgoes hw).holds
    · rw [moved_ne ht, ← h.holds t hw]
      exact holds_ne ht
  case fresh =>
    intro t hw i v hread
    by_cases ht : t = a.current
    · subst ht
      rw [moved_self] at hread
      exact h.fresh _ hw i v ((hgoes hw).fresh i v hread)
    · rw [moved_ne ht] at hread
      exact h.fresh t hw i v hread
  case sum =>
    show a.res = toInt (∑ n ∈ Finset.range p.threadNum,
      p.share n (Function.update a.place a.current pl (n + 1)))
    by_cases hw : p.Worker a.current
    · rw [sum_update hw, (hgoes hw).share, sub_self, add_zero]
      exact h.sum
    · refine h.sum.trans (congrArg toInt (Finset.sum_congr rfl fun n hn => ?_))
      have hne : n + 1 ≠ a.current := by
        intro heq
        exact hw ⟨by omega, by have := Finset.mem_range.mp hn; omega⟩
      rw [Function.update_of_ne hne]

/-- Thread 0 is not of the benchmark. -/
theorem Benchmark.Worker.running (hw : p.Worker a.current) :
    a.world.state.running = some a.current := by
  have hpos := hw.1
  unfold Process.current State.current at hpos ⊢
  cases hr : a.world.state.running with
  | none =>
      rw [hr] at hpos
      cases hpos
  | some r => rfl

/-- A thread in its own code is the user of the mutex where it holds it, and nowhere else. -/
theorem Kept.user_iff (h : Kept p a) (hw : p.Worker a.current)
    (hown : a.world.state.pc a.current = .own) :
    (a.world.state.mutex p.mutex).user = a.world.state.running ↔
      (a.place a.current).holds = true := by
  obtain ⟨x, hx⟩ := (follows_of_reached h.reached).2.2 p.mutex
  rw [← h.holds a.current hw, hx.run.holds_iff, hw.running]
  constructor
  · intro huser
    exact Follows.holder (s := a.world.state) hx hown hw.running huser
  · intro howner
    rw [hx.user, howner]
    rfl

/-- While a thread holds the mutex, no other one has read `res`. -/
theorem Kept.alone (h : Kept p a) (hw : p.Worker a.current)
    (hin : (a.place a.current).holds = true) (hother : p.Worker t) (ht : t ≠ a.current)
    (i : Nat) (v : Int) : a.place t ≠ .read i v := by
  intro hread
  obtain ⟨x, hx⟩ := (follows_of_reached h.reached).2.2 p.mutex
  refine ht (hx.run.exclusive ?_ ?_)
  · rw [h.holds t hother, hread]
    rfl
  · rw [h.holds _ hw, hin]

/-- The owner of the mutex makes a step of its own code. -/
theorem Kept.entered (h : Kept p a) (hw : p.Worker a.current)
    (hin : (a.place a.current).holds = true) (hout : pl.holds = true)
    (hsits : Sits p a.current (a.world.state.pc a.current) pl)
    (hfresh : ∀ i v, pl = .read i v → v = res)
    (hres : res = toInt (a.res +
      (p.share (a.current - 1) pl - p.share (a.current - 1) (a.place a.current)))) :
    Kept p { a.enters pl with res := res } := by
  constructor
  case reached => exact h.reached
  case inited => exact h.inited
  case sits =>
    intro t hw'
    show Sits p t (a.world.state.pc t) ((a.enters pl).place t)
    by_cases ht : t = a.current
    · subst ht
      rw [enters_self]
      exact hsits
    · rw [enters_ne ht]
      exact h.sits t hw'
  case holds =>
    intro t hw'
    show _ = ((a.enters pl).place t).holds
    by_cases ht : t = a.current
    · subst ht
      rw [enters_self, hout, ← hin]
      exact h.holds _ hw
    · rw [enters_ne ht]
      exact h.holds t hw'
  case fresh =>
    intro t hw' i v hread
    replace hread : (a.enters pl).place t = .read i v := hread
    by_cases ht : t = a.current
    · subst ht
      rw [enters_self] at hread
      exact hfresh i v hread
    · rw [enters_ne ht] at hread
      exact absurd hread (h.alone hw hin hw' ht i v)
  case sum =>
    show res = toInt (∑ n ∈ Finset.range p.threadNum,
      p.share n (Function.update a.place a.current pl (n + 1)))
    rw [sum_update hw, ← toInt_add, ← h.sum]
    exact hres

private theorem Kept.toInt_res (h : Kept p a) : toInt a.res = a.res := by
  rw [h.sum]
  exact Int.bmod_bmod ..

section Work

variable {i : Nat} {v : Int}

private theorem holds_locked (t m : Nat) (hist : List (Nat × Event)) :
    Locks.holds t (lockEvents m (hist ++ [(t, .locks m)])) = true := by
  rw [lockEvents_append]
  simp [lockEvent]

private theorem holds_waited (t m : Nat) (hist : List (Nat × Event)) :
    Locks.holds t (lockEvents m (hist ++ [(t, .waits m)])) = Locks.holds t (lockEvents m hist) := by
  rw [lockEvents_append]
  simp [lockEvent]

private theorem holds_unlocked (t m : Nat) (next : Option Nat) (hist : List (Nat × Event)) :
    Locks.holds t (lockEvents m (hist ++ [(t, .unlocks m next)])) = false := by
  rw [lockEvents_append]
  simp [lockEvent]

private theorem holds_quiet {m u : Nat} (hquiet : lockEvent m u e = none) :
    Locks.holds t (lockEvents m (hist ++ [(u, e)])) = Locks.holds t (lockEvents m hist) := by
  rw [lockEvents_append, hquiet, Option.toList_none, List.append_nil]

/-- The mutex is locked at once, or the thread waits. -/
theorem Kept.locks (h : Kept p a) (hw : p.Worker a.current)
    (hown : a.world.state.pc a.current = .own) (hpl : a.place a.current = .test i)
    (hi : i < p.vectorSize)
    (hstep : a.calls (.call (.lock (some p.mutex))) (Place.locking i).returns = some b) :
    Kept p b := by
  obtain ⟨⟨s, e⟩, hexec, rfl⟩ := Option.map_eq_some_iff.mp hstep
  have hsits := h.sits _ hw
  have hholds := h.holds _ hw
  rw [hpl] at hsits hholds
  have hok : HandOk a.world (.call (.lock (some p.mutex))) := ⟨h.inited, fun hc => by cases hc⟩
  refine h.moved hok hexec fun _ => ?_
  rcases lock_result hexec with huser | ⟨rfl, hpc⟩ | ⟨rfl, hpc⟩
  · have hin := (h.user_iff hw hown).mp huser
    rw [hpl] at hin
    cases hin
  · show Goes p a (s.pc a.current) _ (.inside i)
    constructor
    case sits => exact ⟨hpc ▸ hown, hi, hsits.2⟩
    case holds => exact holds_locked ..
    case fresh =>
      intro j v heq
      cases heq
    case share =>
      rw [hpl]
      rfl
  · show Goes p a (s.pc a.current) _ (.locking i)
    constructor
    case sits =>
      refine ⟨?_, hi, hsits.2⟩
      rw [hpc, show a.current = a.world.state.current from rfl, Function.update_self]
      rfl
    case holds => exact (holds_waited ..).trans hholds
    case fresh =>
      intro j v heq
      cases heq
    case share =>
      rw [hpl]
      rfl

/-- The thread leaves the loop and exits. -/
theorem Kept.exits (h : Kept p a) (hw : p.Worker a.current) (hpl : a.place a.current = .test i)
    (hi : p.vectorSize ≤ i)
    (hstep : a.calls (.call (.exit 0)) (fun _ => .finished) = some b) : Kept p b := by
  obtain ⟨⟨s, e⟩, hexec, rfl⟩ := Option.map_eq_some_iff.mp hstep
  have hholds := h.holds _ hw
  rw [hpl] at hholds
  obtain ⟨rfl, hpc⟩ := exit_result hexec
  have hok : HandOk a.world (.call (.exit 0)) := ⟨trivial, fun hc => by cases hc⟩
  refine h.moved hok hexec fun _ => ?_
  constructor
  case sits => exact hpc
  case holds => exact (holds_quiet rfl).trans hholds
  case fresh =>
    intro j v heq
    cases heq
  case share =>
    rw [hpl]
    exact share_end hi

/-- A thread reads `res` inside the mutex. -/
theorem Kept.reads (h : Kept p a) (hw : p.Worker a.current)
    (hpl : a.place a.current = .inside i) : Kept p (a.enters (.read i a.res)) := by
  have hsits := h.sits _ hw
  rw [hpl] at hsits
  have hkept : Kept p { a.enters (.read i a.res) with res := a.res } := by
    refine h.entered hw (by rw [hpl]; rfl) rfl hsits ?_ ?_
    · intro j v heq
      exact (Place.read.inj heq).2.symm
    have hsame : p.share (a.current - 1) (.read i a.res) =
        p.share (a.current - 1) (a.place a.current) := by
      rw [hpl]
      rfl
    rw [hsame, sub_self, add_zero, h.toInt_res]
  exact hkept

/-- It stores the sum: nobody else has stored since it read. -/
theorem Kept.stores (h : Kept p a) (hw : p.Worker a.current)
    (hpl : a.place a.current = .read i v) :
    Kept p { a.enters (.stored i) with res := toInt (v + p.product i) } := by
  have hsits := h.sits _ hw
  rw [hpl] at hsits
  obtain rfl := h.fresh _ hw i v hpl
  refine h.entered hw (by rw [hpl]; rfl) rfl hsits ?_ ?_
  · intro j v heq
    cases heq
  · have hmod : i % p.threadNum = a.current - 1 := by
      have := hsits.2.2
      omega
    rw [hpl, share_stored (v := a.res) hsits.2.1 hmod, add_sub_cancel_left]

/-- It gives the mutex back and goes on with its next index. -/
theorem Kept.unlocks (hpos : 0 < p.threadNum) (h : Kept p a) (hw : p.Worker a.current)
    (hown : a.world.state.pc a.current = .own) (hpl : a.place a.current = .stored i)
    (hstep : a.calls (.call (.unlock p.mutex)) (fun _ => .test (i + p.threadNum)) = some b) :
    Kept p b := by
  obtain ⟨⟨s, e⟩, hexec, rfl⟩ := Option.map_eq_some_iff.mp hstep
  have hsits := h.sits _ hw
  rw [hpl] at hsits
  have huser := (h.user_iff hw hown).mpr (by rw [hpl]; rfl)
  obtain ⟨⟨next, rfl⟩, hpc⟩ := unlock_result hexec huser
  have hok : HandOk a.world (.call (.unlock p.mutex)) := ⟨h.inited, fun hc => by cases hc⟩
  refine h.moved hok hexec fun _ => ?_
  constructor
  case sits =>
    refine ⟨Or.inl (hpc ▸ hown), ?_⟩
    rw [Nat.add_mod_right]
    exact hsits.2.2
  case holds => exact holds_unlocked ..
  case fresh =>
    intro j v heq
    cases heq
  case share =>
    have hmod : i % p.threadNum = a.current - 1 := by
      have := hsits.2.2
      omega
    rw [hpl]
    exact share_next hpos hmod

/-- A step of a thread's own code. -/
theorem Kept.work (hpos : 0 < p.threadNum) (h : Kept p a) (hw : p.Worker a.current)
    (hown : a.world.state.pc a.current = .own) (hstep : vectorMultiply p a = some b) :
    Kept p b := by
  unfold vectorMultiply at hstep
  cases hpl : a.place a.current with
  | test i =>
      rw [hpl] at hstep
      dsimp only at hstep
      split at hstep
      · exact h.locks hw hown hpl ‹_› hstep
      · exact h.exits hw hpl (Nat.le_of_not_lt ‹_›) hstep
  | inside i =>
      rw [hpl] at hstep
      obtain rfl := Option.some.inj hstep
      exact h.reads hw hpl
  | read i v =>
      rw [hpl] at hstep
      obtain rfl := Option.some.inj hstep
      exact h.stores hw hpl
  | stored i =>
      rw [hpl] at hstep
      exact h.unlocks hpos hw hown hpl hstep
  | locking i =>
      rw [hpl] at hstep
      cases hstep
  | finished =>
      rw [hpl] at hstep
      cases hstep

private theorem returns_silent (pl : Place) : pl.returns .silent = pl := by
  cases pl <;> rfl

/-- Inside a call there is only the one that locks. -/
theorem Kept.locking (h : Kept p a) (hw : p.Worker a.current)
    (hexec : advance a.world.state = some (s, e)) : ∃ i, a.place a.current = .locking i := by
  have hsits := h.sits _ hw
  have hinside : ¬ (a.world.state.pc a.current = .own ∨ a.world.state.pc a.current = .unborn ∨
      a.world.state.pc a.current = .exited) := by
    intro hpc
    rw [advance_own hpc] at hexec
    cases hexec
  cases hpl : a.place a.current with
  | locking i => exact ⟨i, rfl⟩
  | test i =>
      rw [hpl] at hsits
      exact absurd (hsits.1.imp_right Or.inl) hinside
  | inside i | read i v | stored i =>
      rw [hpl] at hsits
      exact absurd (Or.inl hsits.1) hinside
  | finished =>
      rw [hpl] at hsits
      exact absurd (Or.inr (Or.inr hsits)) hinside

/-- A thread goes on inside the call. -/
theorem Kept.advanced (h : Kept p a) (hw : p.Worker a.current)
    (hexec : advance a.world.state = some (s, e)) :
    Goes p a (s.pc a.current) e ((a.place a.current).returns e) := by
  obtain ⟨i, hpl⟩ := h.locking hw hexec
  have hsits := h.sits _ hw
  have hholds := h.holds _ hw
  rw [hpl] at hsits hholds
  rw [hpl]
  rcases locking_result hsits.1 hexec with ⟨rfl, hpc⟩ | ⟨rfl, hpc⟩
  · constructor
    case sits => exact ⟨hpc, hsits.2⟩
    case holds => exact (holds_quiet rfl).trans hholds
    case fresh =>
      intro j v heq
      cases heq
    case share =>
      rw [hpl]
      rfl
  · constructor
    case sits => exact ⟨hpc, hsits.2⟩
    case holds => exact holds_locked ..
    case fresh =>
      intro j v heq
      cases heq
    case share =>
      rw [hpl]
      rfl

/-- An alarm does not move a thread. -/
theorem Kept.alarmed (h : Kept p a) (hw : p.Worker a.current)
    (hexec : exec a.world.state .alarm = some (s, e)) :
    Goes p a (s.pc a.current) e ((a.place a.current).returns e) := by
  obtain ⟨_, hcall⟩ := Option.ite_none_right_eq_some.mp hexec
  obtain ⟨u, hhandler, heq⟩ := Option.map_eq_some_iff.mp hcall
  obtain ⟨rfl, rfl⟩ := Prod.mk.inj heq
  rw [returns_silent, (schedulerAlarmHandler_frame hhandler).pc]
  exact ⟨h.sits _ hw, (holds_quiet rfl).trans (h.holds _ hw), fun _ _ heq => heq, rfl⟩

/-- The library makes a step, in whatever thread. -/
theorem Kept.library (h : Kept p a) (hok : HandOk a.world c)
    (hmine : ¬ (p.Worker a.current ∧ c ≠ .alarm ∧ c ≠ .advance))
    (hstep : a.calls c (a.place a.current).returns = some b) : Kept p b := by
  obtain ⟨⟨s, e⟩, hexec, rfl⟩ := Option.map_eq_some_iff.mp hstep
  refine h.moved hok hexec fun hw => ?_
  cases c with
  | alarm => exact h.alarmed hw hexec
  | advance => exact h.advanced hw hexec
  | call d => exact absurd ⟨hw, by simp, by simp⟩ hmine

/-- One step of the process. -/
theorem Kept.step {turn : Turn} (hpos : 0 < p.threadNum) (h : Kept p a) (hok : TurnOk a turn)
    (hstep : a.step p turn = some b) : Kept p b := by
  cases turn with
  | library c =>
      obtain ⟨hmine, hcalls⟩ := Option.ite_none_left_eq_some.mp hstep
      exact h.library hok hmine hcalls
  | work =>
      obtain ⟨⟨hw, hown⟩, hwork⟩ := Option.ite_none_right_eq_some.mp hstep
      exact h.work hpos hw hown hwork

end Work

/-- Nothing is added yet. -/
theorem Prepared.kept (h : Prepared p a) : Kept p a := by
  have hstart : ∀ t, p.Worker t → (t - 1) % p.threadNum + 1 = t := by
    intro t hw
    have := hw.1
    have := hw.2
    rw [Nat.mod_eq_of_lt (by omega)]
    omega
  constructor
  case reached => exact h.reached
  case inited => exact h.inited
  case sits =>
    intro t hw
    rw [h.place t hw]
    exact ⟨h.atStart t hw, hstart t hw⟩
  case holds =>
    intro t hw
    obtain ⟨x, hx⟩ := (follows_of_reached h.reached).2.2 p.mutex
    rw [h.place t hw]
    refine Bool.eq_false_iff.mpr fun hholds => h.unlocked t hw ?_
    rw [hx.user, hx.run.holds_iff.mp hholds]
    rfl
  case fresh =>
    intro t hw i v hread
    rw [h.place t hw] at hread
    cases hread
  case sum =>
    have hnone : ∑ n ∈ Finset.range p.threadNum, p.share n (a.place (n + 1)) = 0 := by
      refine Finset.sum_eq_zero fun n hn => ?_
      have hlt := Finset.mem_range.mp hn
      rw [h.place (n + 1) ⟨by omega, by omega⟩]
      exact share_start hlt
    rw [hnone, h.res]
    rfl

private theorem kept_of_reached (hpos : 0 < p.threadNum) (h : ProcessReached p a) : Kept p a := by
  apply h.invariant (I := Kept p)
  · intro a ha
    exact ha.kept
  · intro a turn b _ ha hstep
    exact ha.step hpos hstep.1 hstep.2

end Kept

/-- **No product is lost or added twice.**  Wherever the alarms come, once every thread is joined
`res` is what `verify` computes. -/
theorem vectorMultiply_verified {p : Benchmark} {a : Process} (hpos : 0 < p.threadNum)
    (h : ProcessReached p a)
    (hjoined : ∀ t, p.Worker t → ∃ z u value, (z, .joins t u value) ∈ a.world.history) :
    a.res = p.verify := by
  have hkept := kept_of_reached hpos h
  rw [hkept.sum, verify_eq, ← sum_shares p hpos]
  refine congrArg toInt (Finset.sum_congr rfl fun n hn => ?_)
  have hlt := Finset.mem_range.mp hn
  obtain ⟨z, u, value, hmem⟩ := hjoined (n + 1) ⟨by omega, by omega⟩
  have hsits := hkept.sits (n + 1) ⟨by omega, by omega⟩
  rw [pc_of_exited (joined_exited hkept.reached (Nat.succ_ne_zero n) hmem)] at hsits
  rw [hsits.finished_of_exited]

section TwoThreads

variable {p : Benchmark} {a b : Process} {s s' : State} {c : Action} {e : Event} {t : Nat}
  {turn : Turn} {order : List Turn}

/-- A turn that joins nothing and destroys no mutex, with an ID left for a new thread. -/
def Process.allows (a : Process) : Turn → Bool
  | .library c => plays a.world.state c && decide (a.world.state.threadCount < threadLim)
  | .work => true

/-- Where a list of such turns leads. -/
def Process.turns (p : Benchmark) : List Turn → Process → Option Process
  | [], a => some a
  | turn :: rest, a => if a.allows turn then (a.step p turn).bind (Process.turns p rest) else none

/-- The same with a longer past. -/
def Process.after (hist : List (Nat × Event)) (a : Process) : Process :=
  { a with world := ⟨a.world.state, hist ++ a.world.history⟩ }

private theorem calls_after (hist : List (Nat × Event)) (next : Event → Place) :
    (a.after hist).calls c next = (a.calls c next).map (Process.after hist) := by
  unfold Process.calls
  rw [Option.map_map]
  refine congrArg₂ Option.map ?_ rfl
  funext out
  show Process.mk ⟨out.1, hist ++ a.world.history ++ _⟩ _ _ =
    Process.mk ⟨out.1, hist ++ (a.world.history ++ _)⟩ _ _
  rw [List.append_assoc]
  rfl

private theorem vectorMultiply_after (hist : List (Nat × Event)) :
    vectorMultiply p (a.after hist) = (vectorMultiply p a).map (Process.after hist) := by
  unfold vectorMultiply
  rw [show (a.after hist).place (a.after hist).current = a.place a.current from rfl]
  cases a.place a.current with
  | test i =>
      dsimp only
      split
      · exact calls_after hist _
      · exact calls_after hist _
  | stored i => exact calls_after hist _
  | inside | read | locking | finished => rfl

/-- No step looks at the past. -/
theorem step_after (hist : List (Nat × Event)) :
    (a.after hist).step p turn = (a.step p turn).map (Process.after hist) := by
  cases turn with
  | library c =>
      show (if p.Worker a.current ∧ c ≠ .alarm ∧ c ≠ .advance then none
        else (a.after hist).calls c (a.place a.current).returns) = Option.map _ (if _ then _ else _)
      split
      · rfl
      · exact calls_after hist _
  | work =>
      show (if p.Worker a.current ∧ a.world.state.pc a.current = .own then
        vectorMultiply p (a.after hist) else none) = Option.map _ (if _ then _ else _)
      split
      · exact vectorMultiply_after hist
      · rfl

/-- A run does not depend on what happened before it. -/
theorem turns_after (hist : List (Nat × Event)) :
    (a.after hist).turns p order = (a.turns p order).map (Process.after hist) := by
  induction order generalizing a with
  | nil => rfl
  | cons turn rest ih =>
      show (if a.allows turn then ((a.after hist).step p turn).bind (Process.turns p rest)
        else none) = Option.map _ (if _ then _ else _)
      split
      · rw [step_after]
        cases a.step p turn with
        | none => rfl
        | some b => exact ih
      · rfl

/-- Such turns are taken in a run. -/
theorem ProcessReached.turns (hpos : 0 < p.threadNum) (hmutex : p.mutex = 0)
    (h : ProcessReached p a) (hturns : a.turns p order = some b) : ProcessReached p b := by
  induction order generalizing a with
  | nil =>
      obtain rfl := Option.some.inj hturns
      exact h
  | cons turn rest ih =>
      unfold Process.turns at hturns
      obtain ⟨hallows, hrest⟩ := Option.ite_none_right_eq_some.mp hturns
      obtain ⟨u, hstep, hlast⟩ := Option.bind_eq_some_iff.mp hrest
      refine ih (h.next ⟨?_, hstep⟩) hlast
      have hkept := kept_of_reached hpos h
      cases turn with
      | work => trivial
      | library c =>
          obtain ⟨hplays, hcount⟩ := Bool.and_eq_true_iff.mp hallows
          exact handOk_of_plays hkept.reached (hmutex ▸ hkept.inited) hplays
            (of_decide_eq_true hcount)

/-- Only `main` joins. -/
def OnlyMain (s : State) : Prop := ∀ z, z ≠ 0 → (s.stage z).wanted = none

/-- Only `main` is inside a join: one step. -/
theorem OnlyMain.step (h : OnlyMain s) (hexec : exec s c = some (s', e))
    (hjoins : ∀ t v, c = .call (.join t v) → s.current = 0) : OnlyMain s' := by
  intro z hz
  by_contra hsome
  obtain ⟨j, hj⟩ := Option.ne_none_iff_exists'.mp hsome
  rcases (exec_moves hexec).wants hj with hold | ⟨t, v, hc, hcur, _⟩
  · rw [h z hz] at hold
    cases hold
  · exact hz (hcur.trans (hjoins t v hc))

theorem OnlyMain.calls {next : Event → Place} (h : OnlyMain a.world.state)
    (hcalls : a.calls c next = some b) (hc : ∀ t v, c ≠ .call (.join t v)) :
    OnlyMain b.world.state := by
  obtain ⟨⟨s, e⟩, hexec, rfl⟩ := Option.map_eq_some_iff.mp hcalls
  exact h.step hexec fun t v heq => absurd heq (hc t v)

/-- The same for a sequence of turns. -/
theorem OnlyMain.turns (h : OnlyMain a.world.state) (hturns : a.turns p order = some b) :
    OnlyMain b.world.state := by
  induction order generalizing a with
  | nil =>
      obtain rfl := Option.some.inj hturns
      exact h
  | cons turn rest ih =>
      unfold Process.turns at hturns
      obtain ⟨hallows, hrest⟩ := Option.ite_none_right_eq_some.mp hturns
      obtain ⟨u, hstep, hlast⟩ := Option.bind_eq_some_iff.mp hrest
      refine ih ?_ hlast
      cases turn with
      | library c =>
          obtain ⟨_, hcalls⟩ := Option.ite_none_left_eq_some.mp hstep
          refine h.calls hcalls ?_
          rintro t v rfl
          simp [Process.allows, plays] at hallows
      | work =>
          obtain ⟨_, hwork⟩ := Option.ite_none_right_eq_some.mp hstep
          unfold vectorMultiply at hwork
          split at hwork
          · split at hwork
            · exact h.calls hwork (by simp)
            · exact h.calls hwork (by simp)
          · obtain rfl := Option.some.inj hwork
            exact h
          · obtain rfl := Option.some.inj hwork
            exact h
          · exact h.calls hwork (by simp)
          · cases hwork
          · cases hwork

/-- `main` is done with `vector_multiply`, and makes a step. -/
theorem ProcessReached.main {hist : List (Nat × Event)} {res : Int} {place : Nat → Place}
    (h : ProcessReached p ⟨⟨s, hist⟩, res, place⟩) (hcur : s.current = 0)
    (hplace : place 0 = .finished) (hok : HandOk ⟨s, hist⟩ c) (hexec : exec s c = some (s', e)) :
    ProcessReached p ⟨⟨s', hist ++ [(s.current, e)]⟩, res, place⟩ := by
  have hw : ¬ p.Worker s.current := by
    intro hw
    have := hw.1
    omega
  have hfinished : place s.current = .finished := hcur ▸ hplace
  have hstay : Function.update place s.current ((place s.current).returns e) = place := by
    rw [hfinished]
    exact Function.update_eq_self_iff.mpr hfinished.symm
  refine h.next (c := .library c) ⟨hok, (if_neg fun hmine => hw hmine.1).trans ?_⟩
  unfold Process.calls
  rw [hexec]
  show some (Process.mk ⟨s', hist ++ [(s.current, e)]⟩ res
    (Function.update place s.current ((place s.current).returns e))) = _
  rw [hstay]

/-- `main` joins a thread that has exited; the history is that from the scan on. -/
def Process.joined (p : Benchmark) (t : Nat) (a : Process) : Option Process :=
  if a.current = 0 ∧ a.place 0 = .finished ∧ a.world.state.init = true ∧
      a.world.state.threadTable (a.world.state.thread t).id = some t then
    (scanned t false a.world.state).bind fun u =>
      Process.turns p (List.replicate 3 (.library .advance)) ⟨⟨u, []⟩, a.res, a.place⟩
  else none

private theorem join_running {v : Bool} (h : exec s (.call (.join t v)) = some (s', e)) :
    s.pc s.current = .own ∧ s'.running = s.running := by
  obtain ⟨hown, hcall⟩ := Option.ite_none_right_eq_some.mp h
  obtain ⟨r, _, hrest⟩ := Option.bind_eq_some_iff.mp hcall
  refine ⟨hown, ?_⟩
  dsimp only at hrest
  split at hrest
  · obtain ⟨rfl, _⟩ := Prod.mk.inj (Option.some.inj hrest)
    rfl
  · split at hrest
    · obtain ⟨rfl, _⟩ := Prod.mk.inj (Option.some.inj hrest)
      rfl
    · obtain ⟨rfl, _⟩ := Prod.mk.inj (Option.some.inj hrest)
      rfl

/-- `main` joins a thread that is done, and goes on. -/
theorem ProcessReached.joined (hpos : 0 < p.threadNum) (hmutex : p.mutex = 0)
    (h : ProcessReached p a) (honly : OnlyMain a.world.state) (hjoined : a.joined p t = some b) :
    OnlyMain b.world.state ∧ ∃ evs, ProcessReached p (b.after (a.world.history ++ evs)) := by
  obtain ⟨⟨hcur, hplace, hinit, htable⟩, hrest⟩ := Option.ite_none_right_eq_some.mp hjoined
  obtain ⟨u, hscanned, hturns⟩ := Option.bind_eq_some_iff.mp hrest
  have hreach := (kept_of_reached hpos h).reached
  have hrounds := scanned_rounds (R := fun u hist => u.current = 0 ∧ OnlyMain u ∧
    ProcessReached p ⟨⟨u, hist⟩, a.res, a.place⟩) a.world.history ?_ ?_ hscanned
  · obtain ⟨evs, _, honly', hlast⟩ := hrounds
    refine ⟨honly'.turns hturns, evs, ?_⟩
    have hafter : ((Process.mk ⟨u, []⟩ a.res a.place).after (a.world.history ++ evs)).turns p
        (List.replicate 3 (.library .advance)) = _ := turns_after _
    have hback : (Process.mk ⟨u, []⟩ a.res a.place).after (a.world.history ++ evs) =
        ⟨⟨u, a.world.history ++ evs⟩, a.res, a.place⟩ := by
      unfold Process.after
      rw [List.append_nil]
    rw [hback, hturns] at hafter
    exact hlast.turns hpos hmutex hafter
  · intro v e hexec
    obtain ⟨hown, hrun⟩ := join_running hexec
    have hok : HandOk a.world (.call (.join t false)) := by
      refine ⟨⟨?_, ?_⟩, fun hc => by cases hc⟩
      · exact (linked_of_reached (follows_of_reached hreach).1).2.table hinit _ t htable
      · intro z j hz
        by_cases hmain : z = 0
        · subst hmain
          have hplain : a.world.state.pc 0 = .own := hcur ▸ hown
          rw [State.stage, hplain] at hz
          cases hz
        · rw [honly z hmain] at hz
          cases hz
    refine ⟨?_, honly.step hexec fun _ _ _ => hcur, h.main hcur hplace hok hexec⟩
    exact (congrArg (Option.getD · 0) hrun).trans hcur
  · intro v j i q hist hr hstep
    obtain ⟨hcur', honly', hreach'⟩ := hr
    refine ⟨hcur', ?_, ?_⟩
    · exact honly'.step (c := .advance) hstep fun _ _ hc => by cases hc
    · exact hreach'.main (c := .advance) hcur' hplace (handOk_advance (pc_goto ..) (by simp)) hstep

end TwoThreads

/-- Two threads, which multiply (1, 2, 3, 4) and (2, 2, 2, 2). -/
def twoThreads : Benchmark where
  threadNum := 2
  vectorSize := 4
  r i := i + 1
  s _ := 2
  mutex := 0

/-- `main` has made thread 1 and the mutex, and no thread has run. -/
def readied : Process :=
  ⟨⟨bornState 0 .active, []⟩, 0, fun t => if t = 0 then .finished else .test (t - 1)⟩

/-- Thread 1 has read `res` when its time is used up; thread 2 waits for the mutex, and from then
on each of the two waits while the other one has it. -/
def disputed : List Turn :=
  [.library (.call (.create 2 .available)), .library .advance, .library (.call .yield),
    .library .advance, .work, .work] ++ List.replicate 15 (.library .alarm) ++
  [.work, .library .advance, .library (.call .yield), .library .advance, .work, .work, .work,
    .library .advance, .library (.call .yield), .library .advance, .library .advance,
    .library .advance, .work, .work, .work, .work, .library .advance, .library (.call .yield),
    .library .advance, .library .advance, .library .advance, .work, .work, .work, .work,
    .library (.call .yield), .library .advance, .library .advance, .library .advance, .work, .work,
    .work, .work]

private theorem twoThreads_prepared {hist : List (Nat × Event)} (hinit : inited 0 hist = true)
    (h : Reached HandOk ⟨bornState 0 .active, hist⟩) :
    Prepared twoThreads (readied.after hist) := by
  have hworker : ∀ t, twoThreads.Worker t → t = 1 ∨ t = 2 := by
    intro t hw
    have hpos : 1 ≤ t := hw.1
    have hle : t ≤ 2 := hw.2
    omega
  have hback : readied.after hist = { readied with world := ⟨bornState 0 .active, hist⟩ } := by
    unfold Process.after readied
    rw [List.append_nil]
  rw [hback]
  constructor
  case reached => exact h
  case inited => exact hinit
  case atStart =>
    intro t hw
    rcases hworker t hw with rfl | rfl
    · exact Or.inl rfl
    · exact Or.inr rfl
  case unlocked =>
    intro t _ huser
    cases huser
  case place =>
    intro t hw
    rcases hworker t hw with rfl | rfl
    · rfl
    · rfl
  case res => rfl

/-- The result of two threads that take turns in the middle of an addition. -/
theorem vectorMultiply_verified_two : ∃ s hist place, (0, .joins 1 1 none) ∈ hist ∧
    (0, .joins 2 2 none) ∈ hist ∧ (Process.mk ⟨s, hist⟩ 20 place).res = twoThreads.verify := by
  have hsome : (((readied.turns twoThreads disputed).bind (Process.joined twoThreads 1)).map
      fun a => (decide ((0, .joins 1 1 none) ∈ a.world.history),
        (a.joined twoThreads 2).map fun b =>
          decide ((0, .joins 2 2 none) ∈ b.world.history ∧ b.res = 20))) =
      some (true, some true) := by
    decide +kernel
  obtain ⟨a, hruns, hseen⟩ := Option.map_eq_some_iff.mp hsome
  obtain ⟨hfirst, hseen⟩ := Prod.mk.inj hseen
  obtain ⟨b, hjoined, hseen⟩ := Option.map_eq_some_iff.mp hseen
  obtain ⟨hsecond, hres⟩ := of_decide_eq_true hseen
  obtain ⟨a₀, hturns, hjoined₁⟩ := Option.bind_eq_some_iff.mp hruns
  obtain ⟨hist, hinit, h⟩ := reached_initialised
  have hpos : 0 < twoThreads.threadNum := by decide
  have hready : ProcessReached twoThreads (readied.after hist) :=
    .start (twoThreads_prepared hinit h)
  have honly : OnlyMain (readied.after hist).world.state :=
    fun z _ => bornState_alone 0 .active z
  have hwork : (readied.after hist).turns twoThreads disputed = _ := turns_after hist
  rw [hturns] at hwork
  obtain ⟨honly₁, evs, hreach⟩ :=
    (hready.turns hpos rfl hwork).joined hpos rfl (honly.turns hwork) hjoined₁
  obtain ⟨_, evs', hlast⟩ := hreach.joined hpos rfl honly₁ hjoined
  generalize hpast : (a.after _).world.history ++ evs' = past at hlast
  have hmem : (0, .joins 1 1 none) ∈ past ++ b.world.history := by
    rw [← hpast]
    refine List.mem_append_left _ (List.mem_append_left _ (List.mem_append_right _ ?_))
    exact of_decide_eq_true hfirst
  have hmem' : (0, .joins 2 2 none) ∈ past ++ b.world.history := List.mem_append_right _ hsecond
  have hverify := vectorMultiply_verified hpos hlast fun t hw => by
    have hone : 1 ≤ t := hw.1
    have htwo : t ≤ 2 := hw.2
    obtain rfl | rfl : t = 1 ∨ t = 2 := by omega
    · exact ⟨0, 1, none, hmem⟩
    · exact ⟨0, 2, none, hmem'⟩
  exact ⟨b.world.state, _, b.place, hmem, hmem', hres.symm.trans hverify⟩

end Threads
