import CS416.Threads.Machine

/-!
# Runs

How a run is put together from single steps: a list of actions, and a loop
inside a call that goes round without an alarm.
-/

namespace Threads

section Runs

variable {s s' : State}

theorem goto_goto (p q : Pc) (s : State) : (s.goto p).goto q = s.goto q := by
  unfold State.goto State.current
  dsimp only
  rw [Function.update_idem]

/-- Where the thread goes, it is. -/
theorem pc_goto (p : Pc) (s : State) : (s.goto p).pc (s.goto p).current = p :=
  Function.update_self ..

/-- A thread that goes where it is. -/
theorem goto_self {s : State} {p : Pc} (h : s.pc s.current = p) : s.goto p = s := by
  unfold State.goto
  rw [← h, Function.update_eq_self]

/-- Where a list of actions leads. -/
def runs : List Action → State → Option State
  | [], s => some s
  | c :: rest, s => (exec s c).bind fun out => runs rest out.1

/-- The states of the runs whose steps all meet `ok`. -/
def Visited (ok : World → Action → Prop) (s : State) : Prop := ∃ hist, Reached ok ⟨s, hist⟩

/-- A sequence of steps leads to a state that can be reached. -/
theorem Visited.runs {calls : List Action} (h : Visited (fun _ _ => True) s)
    (hruns : Threads.runs calls s = some s') : Visited (fun _ _ => True) s' := by
  induction calls generalizing s with
  | nil =>
      obtain rfl := Option.some.inj hruns
      exact h
  | cons c rest ih =>
      obtain ⟨out, hout, hrest⟩ := Option.bind_eq_some_iff.mp hruns
      obtain ⟨hist, hreach⟩ := h
      exact ih ⟨_, hreach.next ⟨trivial, _, _, hout, rfl⟩⟩ hrest

/-- Every step of the list meets the check. -/
def allowed (check : State → Action → Bool) : List Action → State → Bool
  | [], _ => true
  | c :: rest, s => check s c && (exec s c).any fun out => allowed check rest out.1

/-- The same, where each step is checked first. -/
theorem Visited.allowed {ok : World → Action → Prop} {check : State → Action → Bool}
    {calls : List Action} (h : Visited ok s)
    (hcheck : ∀ u hist c, Reached ok ⟨u, hist⟩ → check u c = true → ok ⟨u, hist⟩ c)
    (hall : Threads.allowed check calls s = true) (hruns : Threads.runs calls s = some s') :
    Visited ok s' := by
  induction calls generalizing s with
  | nil =>
      obtain rfl := Option.some.inj hruns
      exact h
  | cons c rest ih =>
      obtain ⟨out, hout, hrest⟩ := Option.bind_eq_some_iff.mp hruns
      unfold Threads.allowed at hall
      rw [hout, Option.any_some, Bool.and_eq_true] at hall
      obtain ⟨hist, hreach⟩ := h
      exact ih ⟨_, hreach.next ⟨hcheck s hist c hreach hall.1, _, _, hout, rfl⟩⟩ hall.2 hrest

/-- What the rounds of a loop keep. -/
theorem loop_rounds {R : State → List (Nat × Event) → Prop} {hist : List (Nat × Event)}
    {f : Nat → Pc} {n : Nat} (h : R s hist) (hpc : s.pc s.current = f 0)
    (hround : ∀ i < n, ∀ hist, R (s.goto (f i)) hist →
      R (s.goto (f (i + 1))) (hist ++ [(s.current, .silent)])) :
    ∃ evs, R (s.goto (f n)) (hist ++ evs) := by
  induction n with
  | zero =>
      rw [goto_self hpc]
      exact ⟨[], by rwa [List.append_nil]⟩
  | succ n ih =>
      obtain ⟨evs, hreach⟩ := ih fun i hi => hround i (by omega)
      have hnext := hround n (Nat.lt_succ_self n) _ hreach
      rw [List.append_assoc] at hnext
      exact ⟨_, hnext⟩

/-- A loop inside a call runs to its end. -/
theorem Reached.loop {ok : World → Action → Prop} {hist : List (Nat × Event)} {f : Nat → Pc}
    {n : Nat} (h : Reached ok ⟨s, hist⟩) (hpc : s.pc s.current = f 0)
    (hok : ∀ i < n, ∀ hist, ok ⟨s.goto (f i), hist⟩ .advance)
    (hstep : ∀ i < n, advance (s.goto (f i)) = some (s.goto (f (i + 1)), .silent)) :
    ∃ evs, Reached ok ⟨s.goto (f n), hist ++ evs⟩ :=
  loop_rounds (R := fun u hist => Reached ok ⟨u, hist⟩) h hpc fun i hi hist hreach =>
    hreach.next (c := .advance) ⟨hok i hi hist, _, _, hstep i hi, rfl⟩

/-- One round of the scan of `mutex_list`. -/
theorem advance_initScan {m : Nat} (i : Nat) : advance (s.goto (.initScan m i)) =
    if i < mutexLim then
      if s.mutexList i = some m then some (s.goto .own, .fails .EBUSY)
      else some (s.goto (.initScan m (i + 1)), .silent)
    else some (s.goto (.initUser m), .silent) := by
  unfold advance
  rw [pc_goto]
  dsimp only
  unfold initScan
  simp only [goto_goto]
  rfl

/-- `my_pthread_mutex_init` up to the assignment of `user`, where the scan finds no entry. -/
def cleared (m : Nat) (s : State) : Option State :=
  (exec s (.call (.mutexInit m true))).bind fun out =>
    if out.1.pc out.1.current = .initScan m 0 ∧
        (List.range 1000).all fun i => decide (out.1.mutexList i ≠ some m) then
      some (out.1.goto (.initUser m))
    else none

/-- A scan that finds no entry runs to its end. -/
theorem Reached.cleared {ok : World → Action → Prop} {hist : List (Nat × Event)} {m : Nat}
    (h : Reached ok ⟨s, hist⟩) (hcall : ok ⟨s, hist⟩ (.call (.mutexInit m true)))
    (hscan : ∀ u m i hist, u.pc u.current = .initScan m i → ok ⟨u, hist⟩ .advance)
    (hs : Threads.cleared m s = some s') : ∃ evs, Reached ok ⟨s', hist ++ evs⟩ := by
  obtain ⟨⟨u, e⟩, hexec, hrest⟩ := Option.bind_eq_some_iff.mp hs
  dsimp only at hrest
  split at hrest
  case isFalse => cases hrest
  case isTrue hclear =>
    obtain rfl := Option.some.inj hrest
    obtain ⟨hpc, hall⟩ := hclear
    have hrounds : ∀ i < mutexLim, advance (u.goto (.initScan m i)) =
        some (u.goto (.initScan m (i + 1)), .silent) := by
      intro i hi
      have hnone := of_decide_eq_true (List.all_eq_true.mp hall i (List.mem_range.mpr hi))
      rw [advance_initScan, if_pos hi, if_neg hnone]
    have hstart : Reached ok ⟨u, hist ++ [(s.current, e)]⟩ := h.next ⟨hcall, u, e, hexec, rfl⟩
    have hquiet : ∀ i hist, ok ⟨u.goto (.initScan m i), hist⟩ .advance :=
      fun i hist => hscan _ m i hist (pc_goto ..)
    obtain ⟨evs, hreach⟩ := hstart.loop (f := Pc.initScan m) hpc (fun i _ => hquiet i) hrounds
    have hstep := advance_initScan (s := u) (m := m) mutexLim
    rw [if_neg (lt_irrefl _)] at hstep
    have hlast : Reached ok _ := hreach.next (c := .advance) ⟨hquiet mutexLim _, _, _, hstep, rfl⟩
    rw [List.append_assoc, List.append_assoc] at hlast
    exact ⟨_, hlast⟩

/-- An initialisation that finds nothing leads to a state that can be reached. -/
theorem Visited.cleared {ok : World → Action → Prop} {m : Nat} (h : Visited ok s)
    (hcall : ∀ hist, Reached ok ⟨s, hist⟩ → ok ⟨s, hist⟩ (.call (.mutexInit m true)))
    (hscan : ∀ u m i hist, u.pc u.current = .initScan m i → ok ⟨u, hist⟩ .advance)
    (hs : Threads.cleared m s = some s') : Visited ok s' := by
  obtain ⟨hist, hreach⟩ := h
  obtain ⟨evs, hreach'⟩ := hreach.cleared (hcall hist hreach) hscan hs
  exact ⟨_, hreach'⟩

end Runs

/-- Nothing is created yet, and the objects hold zeros. -/
def blankWorld : World :=
  { state :=
      { init := false, thread := fun _ => ⟨0, 0, 0, 0, .active, 0⟩
        pc := Function.update (fun _ => .unborn) 0 .own, running := none, level := fun _ => []
        currentPriority := 0, runAtPriority := 0, threadCount := 0, tidList := []
        threadTable := fun _ => none, waiting := fun _ => none, done := fun _ => false
        mutex := fun _ => ⟨none, none⟩, mutexList := fun _ => none, armed := false, cont := false }
    history := [] }

/-- The start of a process. -/
theorem reached_blankWorld {ok : World → Action → Prop} : Reached ok blankWorld :=
  Runs.Reach.start ⟨⟨rfl, rfl, rfl, rfl, rfl, rfl, rfl, rfl, rfl, rfl, rfl⟩, rfl⟩

/-- Its state. -/
theorem visited_blank {ok : World → Action → Prop} : Visited ok blankWorld.state :=
  ⟨[], reached_blankWorld⟩

/-- Thread 1 waits for mutex 0: `main` has created it, then initialised and locked the mutex. -/
def lining : List Action :=
  [.advance, .advance, .advance, .call (.lock (some 0)), .call .yield, .advance,
    .call (.lock (some 0)), .advance]

def linedUp : Option State :=
  ((runs [.call (.create 1 .available), .advance] blankWorld.state).bind (cleared 0)).bind
    (runs lining)

end Threads
