import CS416.Threads.Steps

/-!
# The error codes of `my_pthread_join`

The call compares IDs with `wait_id` fields, which are not cleared when a wait
ends, and its scan of `waiting` looks for a thread that waits for the caller,
not for one that waits for the target.
-/

namespace Threads

/-- The thread `z` is blocked in a join of the ID. -/
def BlockedOn (s : State) (z : Nat) (id : Int) : Prop :=
  ∃ j, s.stage z = .sleeping j ∧ j.id = id ∧ (s.thread z).status = .waitThread

/-- The tests inside the call, with no alarm in between: the code that it fails with, or `none`
when it goes on to the test of `done`. -/
inductive Tests : State → Option Code → Prop
  | fails {s s' : State} {code : Code} (h : advance s = some (s', .fails code)) :
      Tests s (some code)
  | goesOn {s s' : State} {j : Target} {o : Option Code} (h : advance s = some (s', .silent))
      (hasks : (s'.pc s'.current).stage = .asking j) (hrest : Tests s' o) : Tests s o
  | accepts {s s' : State} {j : Target} (h : advance s = some (s', .silent))
      (hpc : s'.pc s'.current = .joinTest j) : Tests s none

/-- What `my_pthread_join(t, v)` comes to in its tests. -/
def JoinTests (t : Nat) (v : Bool) (s : State) (o : Option Code) : Prop :=
  (∃ s' code, exec s (.call (.join t v)) = some (s', .fails code) ∧ o = some code) ∨
    ∃ s', exec s (.call (.join t v)) = some (s', .silent) ∧ Tests s' o

/-- What it should come to, for the caller `r`: `EDEADLK` if `t` is the caller or is blocked
joining it, else `EINVAL` if another thread is blocked joining `t`, else no error. -/
def RightCode (t r : Nat) (s : State) (o : Option Code) : Prop :=
  (t = r ∨ BlockedOn s t (s.thread r).id → o = some .EDEADLK) ∧
  (¬ (t = r ∨ BlockedOn s t (s.thread r).id) →
    ((∃ z, BlockedOn s z (s.thread t).id) → o = some .EINVAL) ∧
    ((¬ ∃ z, BlockedOn s z (s.thread t).id) → o = none))

/-- The entry at `i` is a thread that waits, or waited, for the running thread. -/
def askedAt (s : State) (i : Nat) : Bool :=
  match s.waiting i with
  | none => false
  | some w => decide ((s.thread w).waitId = (s.thread s.current).id)

/-- The code that the tests make of a state. -/
def joinCode (t : Nat) (s : State) : Option Code :=
  if (s.thread s.current).id = (s.thread t).id ∨
      (s.thread t).waitId = (s.thread s.current).id then some .EDEADLK
  else if (List.range' 0 1000).any (askedAt s) then some .EINVAL
  else if s.threadTable (s.thread t).id = none then some .ESRCH
  else none

section Tests

variable {s : State} {t r : Nat} {v : Bool} {j : Target} {o o' : Option Code}

/-- The tests have one outcome. -/
theorem Tests.unique (h : Tests s o) (h' : Tests s o') : o = o' := by
  induction h with
  | fails h =>
      cases h' with
      | fails h' =>
          rw [h] at h'
          obtain ⟨_, heq⟩ := Prod.mk.inj (Option.some.inj h')
          rw [Event.fails.inj heq]
      | goesOn h' =>
          rw [h] at h'
          cases h'
      | accepts h' =>
          rw [h] at h'
          cases h'
  | goesOn h hasks hrest ih =>
      cases h' with
      | fails h' =>
          rw [h] at h'
          cases h'
      | goesOn h' hasks' hrest' =>
          rw [h] at h'
          obtain ⟨rfl, _⟩ := Prod.mk.inj (Option.some.inj h')
          exact ih hrest'
      | accepts h' hpc =>
          rw [h] at h'
          obtain ⟨rfl, _⟩ := Prod.mk.inj (Option.some.inj h')
          rw [hpc] at hasks
          cases hasks
  | accepts h hpc =>
      cases h' with
      | fails h' =>
          rw [h] at h'
          cases h'
      | goesOn h' hasks =>
          rw [h] at h'
          obtain ⟨rfl, _⟩ := Prod.mk.inj (Option.some.inj h')
          rw [hpc] at hasks
          cases hasks
      | accepts => rfl

/-- A join has one decision. -/
theorem JoinTests.unique (h : JoinTests t v s o) (h' : JoinTests t v s o') : o = o' := by
  rcases h with ⟨u, code, hexec, rfl⟩ | ⟨u, hexec, htests⟩
  · rcases h' with ⟨u', code', hexec', rfl⟩ | ⟨u', hexec', _⟩
    · rw [hexec] at hexec'
      obtain ⟨_, heq⟩ := Prod.mk.inj (Option.some.inj hexec')
      rw [Event.fails.inj heq]
    · rw [hexec] at hexec'
      cases hexec'
  · rcases h' with ⟨u', code', hexec', rfl⟩ | ⟨u', hexec', htests'⟩
    · rw [hexec] at hexec'
      cases hexec'
    · rw [hexec] at hexec'
      obtain ⟨rfl, _⟩ := Prod.mk.inj (Option.some.inj hexec')
      exact htests.unique htests'

private theorem advance_scan (i : Nat) : advance (s.goto (.joinScan j i)) =
    if (i : Int) < threadLim then
      if askedAt s i then some (s.goto .own, .fails .EINVAL)
      else some (s.goto (.joinScan j (i + 1)), .silent)
    else some (s.goto (.joinTable j), .silent) := by
  unfold advance
  rw [pc_goto]
  dsimp only
  unfold joinScan
  simp only [goto_goto]
  have hwaiting : (s.goto (.joinScan j i)).waiting = s.waiting := rfl
  have hthread : (s.goto (.joinScan j i)).thread = s.thread := rfl
  have hcurrent : (s.goto (.joinScan j i)).current = s.current := rfl
  rw [hwaiting, hthread, hcurrent]
  unfold askedAt
  cases s.waiting i with
  | none => rfl
  | some w => simp only [decide_eq_true_eq]

private theorem advance_table : advance (s.goto (.joinTable j)) =
    if s.threadTable j.id = none then some (s.goto .own, .fails .ESRCH)
    else some (s.goto (.joinTest j), .silent) := by
  unfold advance
  rw [pc_goto]
  dsimp only
  unfold joinTable
  simp only [goto_goto]
  rfl

/-- The test of `thread_table`. -/
theorem tests_table (s : State) (j : Target) :
    Tests (s.goto (.joinTable j)) (if s.threadTable j.id = none then some .ESRCH else none) := by
  have hstep := advance_table (s := s) (j := j)
  split
  case isTrue hnone =>
    rw [if_pos hnone] at hstep
    exact .fails hstep
  case isFalse hsome =>
    rw [if_neg hsome] at hstep
    exact .accepts hstep (pc_goto _ s)

/-- **The scan**, from any place on: one entry at a time. -/
theorem tests_scan (s : State) (j : Target) {n i : Nat} (hn : i + n = 1000) :
    Tests (s.goto (.joinScan j i)) (if (List.range' i n).any (askedAt s) then some .EINVAL
      else if s.threadTable j.id = none then some .ESRCH else none) := by
  have hstep := advance_scan (s := s) (j := j) i
  induction n generalizing i with
  | zero =>
      rw [if_neg (by simp only [threadLim]; omega)] at hstep
      refine .goesOn hstep (j := j) ?_ (tests_table s j)
      rw [pc_goto]
      rfl
  | succ n ih =>
      rw [if_pos (by simp only [threadLim]; omega)] at hstep
      rw [List.range'_succ, List.any_cons]
      cases hasked : askedAt s i with
      | true =>
          rw [hasked, if_pos rfl] at hstep
          exact .fails hstep
      | false =>
          rw [hasked, if_neg Bool.false_ne_true] at hstep
          refine .goesOn hstep (j := j) ?_ (ih (by omega) (advance_scan (i + 1)))
          rw [pc_goto]
          rfl

/-- **What the tests come to.** -/
theorem joinTests_iff (hr : s.running = some r) (hown : s.pc s.current = .own) :
    JoinTests t v s o ↔ o = joinCode t s := by
  have hcur := current_of_running hr
  have hsome : JoinTests t v s (joinCode t s) := by
    unfold JoinTests joinCode exec
    dsimp only
    rw [if_pos hown]
    unfold call myPthreadJoin
    dsimp only
    rw [hr, hcur]
    dsimp only [Option.bind_eq_bind, Option.bind_some]
    by_cases hself : (s.thread r).id = (s.thread t).id
    · left
      refine ⟨s, .EDEADLK, ?_, ?_⟩
      · rw [if_pos hself]
        rfl
      · rw [if_pos (Or.inl hself)]
    · by_cases hwait : (s.thread t).waitId = (s.thread r).id
      · left
        refine ⟨s, .EDEADLK, ?_, ?_⟩
        · rw [if_neg hself, if_pos hwait]
          rfl
        · rw [if_pos (Or.inr hwait)]
      · right
        refine ⟨s.goto (.joinScan ⟨t, (s.thread t).id, v⟩ 0), ?_, ?_⟩
        · rw [if_neg hself, if_neg hwait]
          rfl
        · rw [if_neg (by simp [hself, hwait])]
          exact tests_scan s ⟨t, (s.thread t).id, v⟩ (by rfl)
  constructor
  · intro h
    exact h.unique hsome
  · intro h
    rw [h]
    exact hsome

end Tests

section Verdict

variable {s : State} {t r : Nat}

/-- A thread that has not exited is not marked as done. -/
theorem Inv.not_done (h : Inv s) (hr : s.running = some r) {w : Nat} {j : Target}
    (hw : s.stage w = .sleeping j) (hid : j.id = (s.thread r).id) :
    s.done (s.thread r).id = false := by
  obtain ⟨hborn, hlive, _⟩ := h.alive hr
  obtain ⟨u, hu⟩ := Option.ne_none_iff_exists'.mp
    (h.core.joins.found w j (by simp [hw, Stage.target]))
  rw [hid] at hu
  have hzero : r ≠ 0 := by
    intro heq
    obtain ⟨_, _, hpos, _⟩ := h.core.tables.table _ u hu
    rw [heq, h.core.tables.main.2] at hpos
    exact absurd hpos (by decide)
  have hentry := h.core.tables.entered r hzero hborn hlive
  by_contra hdone
  exact hlive ((h.core.tables.done _ r hentry).mp (Bool.not_eq_false _ ▸ hdone))

/-- **The scan finds a thread that is blocked joining the caller.** -/
theorem Inv.asked_iff (h : Inv s) (hr : s.running = some r) :
    (List.range' 0 1000).any (askedAt s) = true ↔ ∃ z, BlockedOn s z (s.thread r).id := by
  have hcur := current_of_running hr
  rw [List.any_eq_true]
  constructor
  · intro hfound
    obtain ⟨i, _, hi⟩ := hfound
    unfold askedAt at hi
    cases hw : s.waiting i with
    | none =>
        rw [hw] at hi
        cases hi
    | some w =>
        rw [hw, hcur] at hi
        simp only [decide_eq_true_eq] at hi
        obtain ⟨hwait, j, hsleep, hid, hwhy⟩ := h.core.joins.waiter i w hw
        have hmine : j.id = (s.thread r).id := hid.trans (hwait.symm.trans hi)
        refine ⟨w, j, hsleep, hmine, hwhy.resolve_right ?_⟩
        have hnot := h.not_done hr hsleep hmine
        rw [← hmine, hid] at hnot
        rw [hnot]
        exact Bool.false_ne_true
  · intro hblocked
    obtain ⟨z, j, hsleep, hid, hwait⟩ := hblocked
    obtain ⟨k, hsleep', hw⟩ := h.core.joins.asleep z (by simp [hsleep]) hwait
    obtain rfl := Stage.sleeping.inj (hsleep.symm.trans hsleep')
    obtain ⟨u, hu⟩ := Option.ne_none_iff_exists'.mp
      (h.core.joins.found z j (by simp [hsleep, Stage.target]))
    obtain ⟨_, _, hpos, hlim, _⟩ := h.core.tables.table _ u hu
    simp only [threadLim] at hlim
    have hnat : ((j.id.toNat : Nat) : Int) = j.id := Int.toNat_of_nonneg (by omega)
    refine ⟨j.id.toNat, List.mem_range'_1.mpr (by omega), ?_⟩
    unfold askedAt
    rw [hnat, hw, hcur]
    simp only [decide_eq_true_eq]
    exact (h.core.joins.waiter _ z hw).1.trans hid

/-- A thread of the table has the ID of the running thread only if it is that thread. -/
theorem Inv.same_id (h : Inv s) (hr : s.running = some r)
    (ht : s.threadTable (s.thread t).id = some t) :
    (s.thread r).id = (s.thread t).id ↔ t = r := by
  constructor
  · intro hid
    obtain ⟨hborn, hlive, _⟩ := h.alive hr
    obtain ⟨_, _, hpos, _⟩ := h.core.tables.table _ t ht
    have hzero : r ≠ 0 := by
      intro heq
      rw [← hid, heq, h.core.tables.main.2] at hpos
      exact absurd hpos (by decide)
    have hentry := h.core.tables.entered r hzero hborn hlive
    rw [hid, ht] at hentry
    exact Option.some.inj hentry
  · intro heq
    rw [heq]

private theorem Inv.waitId_of_blocked (h : Inv s) {z : Nat} {id : Int} (hz : BlockedOn s z id) :
    (s.thread z).waitId = id := by
  obtain ⟨j, hsleep, hid, hwait⟩ := hz
  obtain ⟨k, hsleep', hw⟩ := h.core.joins.asleep z (by simp [hsleep]) hwait
  obtain rfl := Stage.sleeping.inj (hsleep.symm.trans hsleep')
  exact (h.core.joins.waiter _ z hw).1.trans hid

/-- The target is the caller or is blocked joining it. -/
def Deadlock (s : State) (t r : Nat) : Prop := t = r ∨ BlockedOn s t (s.thread r).id

/-- `wait_id` of the target is not left over from an earlier wait for the ID of the caller, and
a thread is blocked joining the caller if and only if one is blocked joining the target. -/
def NotMisled (s : State) (t r : Nat) : Prop :=
  (s.thread t).waitId ≠ (s.thread r).id ∧
    ((∃ z, BlockedOn s z (s.thread r).id) ↔ ∃ z, BlockedOn s z (s.thread t).id)

/-- The tests come to the right code where they are not misled. -/
theorem Inv.rightCode_iff (h : Inv s) (hr : s.running = some r)
    (ht : s.threadTable (s.thread t).id = some t) :
    RightCode t r s (joinCode t s) ↔ Deadlock s t r ∨ NotMisled s t r := by
  have hcur := current_of_running hr
  have hasked := h.asked_iff hr
  have hcode : joinCode t s =
      if (s.thread r).id = (s.thread t).id ∨ (s.thread t).waitId = (s.thread r).id then
        some .EDEADLK
      else if (List.range' 0 1000).any (askedAt s) then some .EINVAL else none := by
    unfold joinCode
    rw [hcur, if_neg (c := s.threadTable (s.thread t).id = none) (by simp [ht])]
  rw [hcode]
  by_cases hdead : Deadlock s t r
  · have hfirst : (s.thread r).id = (s.thread t).id ∨ (s.thread t).waitId = (s.thread r).id := by
      rcases hdead with heq | hblocked
      · exact Or.inl ((h.same_id hr ht).mpr heq)
      · exact Or.inr (h.waitId_of_blocked hblocked)
    rw [if_pos hfirst]
    exact ⟨fun _ => Or.inl hdead, fun _ => ⟨fun _ => rfl, fun hnot => absurd hdead hnot⟩⟩
  · have hne : (s.thread r).id ≠ (s.thread t).id := by
      intro hid
      exact hdead (Or.inl ((h.same_id hr ht).mp hid))
    by_cases hstale : (s.thread t).waitId = (s.thread r).id
    · rw [if_pos (Or.inr hstale)]
      constructor
      · intro hright
        obtain ⟨hothers, hnone⟩ := hright.2 hdead
        by_cases hblocked : ∃ z, BlockedOn s z (s.thread t).id
        · cases hothers hblocked
        · cases hnone hblocked
      · intro hor
        exact absurd hstale (hor.resolve_left hdead).1
    · rw [if_neg (by simp [hne, hstale])]
      constructor
      · intro hright
        obtain ⟨hothers, hnone⟩ := hright.2 hdead
        refine Or.inr ⟨hstale, ?_, ?_⟩
        · intro hmine
          rw [if_pos (hasked.mpr hmine)] at hnone
          by_contra hblocked
          cases hnone hblocked
        · intro hblocked
          by_contra hmine
          rw [if_neg (fun hany => hmine (hasked.mp hany))] at hothers
          cases hothers hblocked
      · intro hor
        obtain ⟨_, hiff⟩ := hor.resolve_left hdead
        refine ⟨fun hyes => absurd hyes hdead, fun _ => ⟨?_, ?_⟩⟩
        · intro hblocked
          rw [if_pos (hasked.mpr (hiff.mpr hblocked))]
        · intro hblocked
          rw [if_neg (fun hany => hblocked (hiff.mp (hasked.mp hany)))]

end Verdict

/-- **The error codes of a join** are right exactly where its tests are not misled. -/
theorem join_codes {a : World} (h : Reached Rules a) {r t : Nat} (hr : a.state.running = some r)
    (hown : a.state.pc r = .own)
    (ht : a.state.threadTable (a.state.thread t).id = some t) (v : Bool) :
    (∃ o, JoinTests t v a.state o ∧ RightCode t r a.state o) ↔
      Deadlock a.state t r ∨ NotMisled a.state t r := by
  have hinv := (good_of_reached (fun _ _ h => h) h).inv_of_running hr
  have hown' : a.state.pc a.state.current = .own := by
    rw [current_of_running hr]
    exact hown
  rw [← hinv.rightCode_iff hr ht]
  constructor
  · intro hex
    obtain ⟨o, htests, hright⟩ := hex
    rw [(joinTests_iff hr hown').mp htests] at hright
    exact hright
  · intro hright
    exact ⟨_, (joinTests_iff hr hown').mpr rfl, hright⟩

/-- `main` has created thread 1, which is not joined. -/
theorem join_codes_created :
    (∃ o, JoinTests 1 false createdWorld.state o ∧ RightCode 1 0 createdWorld.state o) ↔
      Deadlock createdWorld.state 1 0 ∨ NotMisled createdWorld.state 1 0 :=
  join_codes (reached_createdWorld (show Rules _ _ from trivial) started_ruled) rfl rfl rfl false

section Second

variable {s s' : State} {t : Nat} {v : Bool}

/-- `my_pthread_join` up to the test of `thread_table`, where the scan finds nothing. -/
def scanned (t : Nat) (v : Bool) (s : State) : Option State :=
  (exec s (.call (.join t v))).bind fun out =>
    match out.1.pc out.1.current with
    | .joinScan j 0 =>
      if (List.range 1000).all fun i => !askedAt out.1 i then some (out.1.goto (.joinTable j))
      else none
    | _ => none

/-- What the rounds of a scan that finds nothing keep. -/
theorem scanned_rounds {R : State → List (Nat × Event) → Prop} (hist : List (Nat × Event))
    (hcall : ∀ u e, exec s (.call (.join t v)) = some (u, e) → R u (hist ++ [(s.current, e)]))
    (hscan : ∀ (u : State) j i p hist, R (u.goto (.joinScan j i)) hist →
      advance (u.goto (.joinScan j i)) = some (u.goto p, .silent) →
      R (u.goto p) (hist ++ [(u.current, .silent)]))
    (hs : scanned t v s = some s') : ∃ evs, R s' (hist ++ evs) := by
  obtain ⟨⟨u, e⟩, hexec, hrest⟩ := Option.bind_eq_some_iff.mp hs
  dsimp only at hrest
  split at hrest
  case h_2 => cases hrest
  case h_1 j hpc =>
    split at hrest
    case isFalse => cases hrest
    case isTrue hnone =>
      obtain rfl := Option.some.inj hrest
      have hasked : ∀ i < 1000, askedAt u i = false := by
        intro i hi
        have hi' := List.all_eq_true.mp hnone i (List.mem_range.mpr hi)
        simpa using hi'
      obtain ⟨evs, hrounds⟩ := loop_rounds (n := 1000) (hcall u e hexec) hpc fun i hi hist h => by
        refine hscan u j i _ hist h ?_
        rw [advance_scan, if_pos (by simp only [threadLim]; omega), hasked i hi,
          if_neg Bool.false_ne_true]
      have hstep := advance_scan (s := u) (j := j) 1000
      rw [if_neg (by decide)] at hstep
      have hlast := hscan u j 1000 _ _ hrounds hstep
      rw [List.append_assoc, List.append_assoc] at hlast
      exact ⟨_, hlast⟩

/-- A scan that finds nothing runs to its end. -/
theorem Reached.scanned {ok : World → Action → Prop} {hist : List (Nat × Event)}
    (h : Reached ok ⟨s, hist⟩) (hcall : ok ⟨s, hist⟩ (.call (.join t v)))
    (hscan : ∀ u j i hist, u.pc u.current = .joinScan j i → ok ⟨u, hist⟩ .advance)
    (hs : Threads.scanned t v s = some s') : ∃ evs, Reached ok ⟨s', hist ++ evs⟩ :=
  scanned_rounds (R := fun u hist => Reached ok ⟨u, hist⟩) hist
    (fun u e hexec => h.next ⟨hcall, u, e, hexec, rfl⟩)
    (fun _ j i _ hist hreach hstep => hreach.next (c := .advance)
      ⟨hscan _ j i hist (pc_goto ..), _, _, hstep, rfl⟩) hs

/-- A scan that finds nothing leads to a state that can be reached. -/
theorem Visited.scanned {ok : World → Action → Prop} (h : Visited ok s)
    (hcall : ∀ hist, Reached ok ⟨s, hist⟩ → ok ⟨s, hist⟩ (.call (.join t v)))
    (hscan : ∀ u j i hist, u.pc u.current = .joinScan j i → ok ⟨u, hist⟩ .advance)
    (hs : Threads.scanned t v s = some s') : Visited ok s' := by
  obtain ⟨hist, hreach⟩ := h
  obtain ⟨evs, hreach'⟩ := hreach.scanned (hcall hist hreach) hscan hs
  exact ⟨_, hreach'⟩

/-- What is seen of thread 2 when it calls `my_pthread_join` on thread 3, for which thread 1
waits. -/
structure SecondJoiner (s : State) : Prop where
  running : s.running = some 2
  own : s.pc 2 = .own
  sleeping : s.stage 1 = .sleeping ⟨3, 3, false⟩
  waiting : (s.thread 1).status = .waitThread
  id : (s.thread 3).id = 3
  active : (s.thread 3).status = .active
  code : joinCode 3 s = none
  table : s.threadTable 3 = some 3

instance (s : State) : Decidable (SecondJoiner s) :=
  decidable_of_iff (s.running = some 2 ∧ s.pc 2 = .own ∧ s.stage 1 = .sleeping ⟨3, 3, false⟩ ∧
    (s.thread 1).status = .waitThread ∧ (s.thread 3).id = 3 ∧ (s.thread 3).status = .active ∧
    joinCode 3 s = none ∧ s.threadTable 3 = some 3)
    ⟨fun ⟨h₁, h₂, h₃, h₄, h₅, h₆, h₇, h₈⟩ => ⟨h₁, h₂, h₃, h₄, h₅, h₆, h₇, h₈⟩,
      fun ⟨h₁, h₂, h₃, h₄, h₅, h₆, h₇, h₈⟩ => ⟨h₁, h₂, h₃, h₄, h₅, h₆, h₇, h₈⟩⟩

end Second

/-- Thread 1 waits for thread 3, and thread 2 joins thread 3 too. -/
theorem second_joiner_accepted : ¬ ∀ a, Reached (fun _ _ => True) a → ∀ r t v,
    a.state.running = some r → a.state.pc r = .own →
    a.state.threadTable (a.state.thread t).id = some t →
    ∃ o, JoinTests t v a.state o ∧ RightCode t r a.state o := by
  intro hclaim
  have hsome : ((((runs [.call (.create 1 .available), .advance, .call (.create 2 .available),
      .advance, .call (.create 3 .available), .advance, .call .yield, .advance]
      blankWorld.state).bind (scanned 3 false)).bind
      (runs [.advance, .advance, .advance, .advance])).map fun s => decide (SecondJoiner s)) =
      some true := by decide +kernel
  obtain ⟨s, hruns, hsees⟩ := Option.map_eq_some_iff.mp hsome
  obtain ⟨s₂, hruns, hlast⟩ := Option.bind_eq_some_iff.mp hruns
  obtain ⟨s₁, hfirst, hjoin⟩ := Option.bind_eq_some_iff.mp hruns
  have hscanned := (visited_blank.runs hfirst).scanned (fun _ _ => trivial)
    (fun _ _ _ _ _ => trivial) hjoin
  obtain ⟨hist, hreach⟩ := hscanned.runs hlast
  have hseen : SecondJoiner s := of_decide_eq_true hsees
  have htable : s.threadTable (s.thread 3).id = some 3 := by
    rw [hseen.id]
    exact hseen.table
  obtain ⟨o, htests, hright⟩ :=
    hclaim ⟨s, hist⟩ hreach 2 3 false hseen.running hseen.own htable
  have hown' : s.pc s.current = .own := by
    rw [current_of_running hseen.running]
    exact hseen.own
  have ho := (joinTests_iff hseen.running hown').mp htests
  rw [hseen.code] at ho
  have hfree : ¬ (3 = 2 ∨ BlockedOn s 3 (s.thread 2).id) := by
    intro hdead
    rcases hdead with heq | ⟨_, _, _, hblocked⟩
    · cases heq
    · rw [hseen.active] at hblocked
      cases hblocked
  have hsecond := (hright.2 hfree).1 ⟨1, _, hseen.sleeping, hseen.id.symm, hseen.waiting⟩
  rw [ho] at hsecond
  cases hsecond

end Threads
