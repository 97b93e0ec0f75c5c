import CS416.Threads.Effects
import CS416.Threads.JoinCodes

/-!
# Thread IDs

An ID is taken when a thread is created and given back when it is joined.
`get_ID` returns -1 once all are taken, and `my_pthread_create` uses that as an
index; so the threads that are not joined have to stay fewer than `THREAD_LIM`
less one when another is created.
-/

namespace Threads

/-- The threads that were created and not joined since, oldest first. -/
def unjoined (history : List (Nat × Event)) : List Nat :=
  history.foldl (fun l x => match x.2 with
    | .creates t => l ++ [t]
    | .joins named _ _ => l.erase named
    | _ => l) []

/-- The thread is joined at most once: it is not joined yet, and no thread is inside a call
that joins it.  Mutexes are initialised and destroyed while no thread waits for them.  A new
thread has an object of its own. -/
def JoinedOnce (a : World) : Action → Prop
  | .call (.join t _) => t ∈ unjoined a.history ∧
      ∀ z j, (a.state.stage z).wanted = some j → j.thread ≠ t
  | .call (.mutexInit m _) | .call (.destroy m) => NoWaiter m a.state
  | .advance => ∀ t, a.state.pc a.state.current = .creating t .available →
      t ≠ 0 ∧ t ∉ unjoined a.history ∧ (a.state.stage t = .unborn ∨ a.state.stage t = .exited)
  | _ => True

/-- Another thread can be created: fewer than `THREAD_LIM - 1` are not joined. -/
def IdLeft (a : World) : Prop := ((unjoined a.history).length : Int) < threadLim - 1

/-- The condition: there is an ID left for each new thread. -/
def IdsOk (a : World) (c : Action) : Prop :=
  JoinedOnce a c ∧ (c = .advance →
    ∀ t, a.state.pc a.state.current = .creating t .available → IdLeft a)

/-- The indices with which a step goes to `thread_table`, `waiting` and `done`. -/
def indices (s : State) : Action → List Int
  | .call (.exit _) => [(s.thread s.current).id]
  | .advance =>
    match s.pc s.current with
    | .creating _ .available => [(getId s).1]
    | .joinScan _ i => if (i : Int) < threadLim then [(i : Int)] else []
    | .joinTable j | .joinTest j | .joinBlock j | .joinFinish j => [j.id]
    | _ => []
  | _ => []

/-- The threads that are not joined are those of the table. -/
structure Entered (a : World) : Prop where
  member : ∀ t ∈ unjoined a.history, a.state.init = true ∧
    a.state.threadTable (a.state.thread t).id = some t
  table : a.state.init = true → ∀ i u, a.state.threadTable i = some u → u ∈ unjoined a.history
  nodup : (unjoined a.history).Nodup

/-- The history and the table agree. -/
structure Linked (a : World) : Prop where
  member : ∀ t ∈ unjoined a.history, a.state.init = true ∧
    a.state.threadTable (a.state.thread t).id = some t
  table : a.state.init = true → ∀ i u, a.state.threadTable i = some u → u ∈ unjoined a.history
  nodup : (unjoined a.history).Nodup
  named : ∀ z j, (a.state.stage z).wanted = some j → a.state.threadTable j.id = some j.thread
  alone : ∀ z z' j j', (a.state.stage z).wanted = some j → (a.state.stage z').wanted = some j' →
    j.thread = j'.thread → z = z'

section Ids

variable {a b : World} {c : Action}

/-- The threads that are not joined, after a further event. -/
theorem unjoined_append (h : List (Nat × Event)) (x : Nat) (e : Event) :
    unjoined (h ++ [(x, e)]) = match e with
      | .creates t => unjoined h ++ [t]
      | .joins named _ _ => (unjoined h).erase named
      | _ => unjoined h := by
  unfold unjoined
  rw [List.foldl_append]
  rfl

/-- Only creations and joins change them. -/
theorem unjoined_other {h : List (Nat × Event)} {x : Nat} {e : Event}
    (hcreates : ∀ t, e ≠ .creates t) (hjoins : ∀ t u value, e ≠ .joins t u value) :
    unjoined (h ++ [(x, e)]) = unjoined h := by
  rw [unjoined_append]
  cases e with
  | creates t => exact absurd rfl (hcreates t)
  | joins t u value => exact absurd rfl (hjoins t u value)
  | _ => rfl

/-- With an ID left, an entry of the table is left. -/
theorem Linked.placeLeft (h : Linked a) (hinv : Inv a.state) (hinit : a.state.init = true)
    (hleft : IdLeft a) : PlaceLeft a.state := by
  by_contra hnone
  have hfull : ∀ i : Int, 1 ≤ i → i < threadLim → a.state.threadTable i ≠ none :=
    fun i hpos hlim heq => hnone ⟨i, hpos, hlim, heq⟩
  have hsub : Finset.Icc (1 : Int) 999 ⊆
      ((unjoined a.history).map fun t => (a.state.thread t).id).toFinset := by
    intro i hi
    obtain ⟨hpos, hlim⟩ := Finset.mem_Icc.mp hi
    obtain ⟨u, hu⟩ := Option.ne_none_iff_exists'.mp
      (hfull i hpos (by simp only [threadLim]; omega))
    rw [List.mem_toFinset, List.mem_map]
    exact ⟨u, h.table hinit i u hu, (hinv.core.tables.table i u hu).2.1⟩
  have hcard := (Finset.card_le_card hsub).trans (List.toFinset_card_le _)
  rw [List.length_map, Int.card_Icc] at hcard
  simp only [IdLeft, threadLim] at hleft
  omega

/-- Before the library runs nobody is inside a join. -/
theorem Good.idle (h : Good a.state) (hoff : a.state.init = false) (z : Nat) :
    (a.state.stage z).wanted = none := by
  have hb := h.before hoff
  by_cases hz : z = 0
  · subst hz
    rw [hb.main]
    rfl
  · rw [hb.others z hz]
    rfl

/-- No thread is joined before the scheduler starts. -/
theorem Good.stays_idle {s : State} {e : Event} (h : Good a.state) (hoff : a.state.init = false)
    (hexec : exec a.state c = some (s, e)) (z : Nat) : (s.stage z).wanted = none := by
  by_contra hsome
  obtain ⟨j, hz⟩ := Option.ne_none_iff_exists'.mp hsome
  rcases (exec_moves hexec).wants hz with hold | ⟨t, v, rfl, _⟩
  · rw [h.idle hoff] at hold
    cases hold
  · have hcall : exec a.state (.call (.join t v)) = none := by
      simp [exec, call, myPthreadJoin, (h.before hoff).running]
    rw [hcall] at hexec
    cases hexec

/-- A new thread has an object and an entry. -/
theorem Linked.creating {t : Nat} (hlink : Linked a) (hgood : Good a.state)
    (honce : JoinedOnce a .advance) (hleft : Action.advance = .advance →
      ∀ t, a.state.pc a.state.current = .creating t .available → IdLeft a)
    (hpc : a.state.pc a.state.current = .creating t .available) :
    Spare t a.state ∧ PlaceLeft a.state := by
  cases hinit : a.state.init with
  | false =>
      have hb := hgood.before hinit
      rw [hb.current_eq] at hpc
      exact absurd hpc (hb.starting t _)
  | true =>
      obtain ⟨hmain, hout, hfree⟩ := honce t hpc
      refine ⟨⟨hmain, hfree.imp_right fun hexit => ⟨hexit, ?_⟩⟩, ?_⟩
      · intro i hi
        exact hout (hlink.table hinit i t hi)
      · exact hlink.placeLeft (hgood.after hinit) hinit (hleft rfl t hpc)

/-- What a thread waits for is what it has named. -/
theorem wanted_of_target {x : Stage} {j : Target} (h : x.target = some j) :
    x.wanted = some j := by
  cases x with
  | joining k => exact h
  | sleeping k => exact h
  | _ => cases h

/-- The rules on the threads give the rules on the IDs. -/
theorem IdsOk.ruled (h : IdsOk a c) (hgood : Good a.state) (hlink : Linked a) :
    Ruled a.state c := by
  obtain ⟨honce, hleft⟩ := h
  cases c with
  | alarm => trivial
  | call c =>
      cases c with
      | join t v =>
          obtain ⟨hinit, hentry⟩ := hlink.member t honce.1
          exact ((hgood.after hinit).core.tables.table _ t hentry).1
      | mutexInit m memory => exact honce
      | destroy m => exact honce
      | _ => trivial
  | advance =>
      refine ⟨?_, ?_⟩
      · intro t hpc
        exact hlink.creating hgood honce hleft hpc
      · intro j hpc z k hz hid
        have hmine : (a.state.stage a.state.current).wanted = some j := by
          rw [State.stage, hpc]
          rfl
        have hnamed := hlink.named z k (wanted_of_target hz)
        rw [hid, hlink.named _ j hmine] at hnamed
        obtain rfl := hlink.alone z _ k j (wanted_of_target hz) hmine (Option.some.inj hnamed).symm
        rw [State.stage, hpc] at hz
        cases hz

/-- A thread starts to join only what no other thread joins. -/
theorem Linked.alone_step {s : State} {e : Event} (h : Linked a) (hok : IdsOk a c)
    (hm : Moves a.state c s e) (z z' : Nat) (j j' : Target) (hz : (s.stage z).wanted = some j)
    (hz' : (s.stage z').wanted = some j') (hsame : j.thread = j'.thread) : z = z' := by
  rcases hm.wants hz with hold | ⟨t, v, rfl, hcur, rfl⟩
  · rcases hm.wants hz' with hold' | ⟨t, v, rfl, hcur, rfl⟩
    · exact h.alone z z' j j' hold hold' hsame
    · exact absurd hsame (hok.1.2 z j hold)
  · rcases hm.wants hz' with hold' | ⟨t', v', _, hcur', _⟩
    · exact absurd hsame.symm (hok.1.2 z' j' hold')
    · exact hcur.trans hcur'.symm

/-- What a thread joins at last, it has named. -/
def FinishesNamed (s : State) : Prop :=
  ∀ j, s.pc s.current = .joinFinish j → s.threadTable j.id = some j.thread

/-- **One step** keeps the entries of the table. -/
theorem Entered.step (h : Entered a) (hinv : Inv a.state) (hinit : a.state.init = true)
    (hruled : Ruled a.state c) (hnamed : FinishesNamed a.state) (hstep : WorldStep a c b) :
    Entered b := by
  obtain ⟨s, e, hexec, rfl⟩ := hstep
  have hm := exec_moves hexec
  have hon : s.init = true := hm.init hinit
  have hids := hinv.idStep hinit hruled hm
  cases hids with
  | other hsame hcreates hjoins =>
      have heq := unjoined_other (h := a.history) (x := a.state.current) hcreates hjoins
      constructor
      case member =>
        intro t ht
        rw [heq] at ht
        refine ⟨hon, ?_⟩
        show s.threadTable (s.thread t).id = some t
        rw [hsame.table, hsame.id]
        exact (h.member t ht).2
      case table =>
        intro _ i u hu
        have hu' : s.threadTable i = some u := hu
        rw [hsame.table] at hu'
        rw [heq]
        exact h.table hinit i u hu'
      case nodup =>
        rw [heq]
        exact h.nodup
  | @creates t id n l hpc hget hid htable hself hothers =>
      have heq := unjoined_append a.history a.state.current (.creates t)
      have hc : c = .advance := by
        cases hm <;> rfl
      subst hc
      have hout : t ∉ unjoined a.history := by
        intro hmem
        have hentry := (h.member t hmem).2
        rcases (hruled.1 t hpc).1.2 with hunborn | ⟨_, hfree⟩
        · exact (hinv.core.tables.table _ t hentry).1 hunborn
        · exact hfree _ hentry
      constructor
      case member =>
        intro u hu
        rw [heq] at hu
        refine ⟨hon, ?_⟩
        show s.threadTable (s.thread u).id = some u
        rcases List.mem_append.mp hu with hu | hu
        · have hut : u ≠ t := by
            intro hsame
            exact hout (hsame ▸ hu)
          have hentry := (h.member u hu).2
          have hne : (a.state.thread u).id ≠ id := by
            intro hsame
            rw [hsame, hid.new] at hentry
            cases hentry
          rw [htable, hothers u hut, Function.update_of_ne hne]
          exact hentry
        · obtain rfl := List.mem_singleton.mp hu
          rw [htable, hself, Function.update_self]
      case table =>
        intro _ i u hu
        have hu' : s.threadTable i = some u := hu
        rw [htable, Function.update_apply] at hu'
        rw [heq]
        split at hu'
        · obtain rfl := Option.some.inj hu'
          exact List.mem_append_right _ List.mem_cons_self
        · exact List.mem_append_left _ (h.table hinit i u hu')
      case nodup =>
        rw [heq]
        exact (List.perm_append_singleton t _).nodup_iff.mpr (List.nodup_cons.mpr ⟨hout, h.nodup⟩)
  | @joins j u value hpc hu htable hplace hids =>
      have heq := unjoined_append a.history a.state.current (.joins j.thread u value)
      have hmine := hnamed j hpc
      obtain rfl := Option.some.inj (hu.symm.trans hmine)
      constructor
      case member =>
        intro v hv
        rw [heq] at hv
        obtain ⟨hne, hmem⟩ := h.nodup.mem_erase_iff.mp hv
        have hentry := (h.member v hmem).2
        refine ⟨hon, ?_⟩
        show s.threadTable (s.thread v).id = some v
        rw [htable, hids, Function.update_of_ne]
        · exact hentry
        · intro hsame
          rw [hsame, hmine] at hentry
          exact hne (Option.some.inj hentry).symm
      case table =>
        intro _ i v hv
        have hv' : s.threadTable i = some v := hv
        rw [htable, Function.update_apply] at hv'
        rw [heq]
        split at hv'
        · cases hv'
        · refine h.nodup.mem_erase_iff.mpr ⟨?_, h.table hinit i v hv'⟩
          intro hsame
          have hid₁ := (hinv.core.tables.table i v hv').2.1
          have hid₂ := (hinv.core.tables.table j.id j.thread hmine).2.1
          rw [hsame, hid₂] at hid₁
          exact absurd hid₁.symm ‹_›
      case nodup =>
        rw [heq]
        exact h.nodup.erase _

/-- What is linked is entered. -/
theorem Linked.entered (h : Linked a) : Entered a := ⟨h.member, h.table, h.nodup⟩

/-- A join ends with the thread that it has named. -/
theorem Linked.finishesNamed (h : Linked a) : FinishesNamed a.state := by
  intro j hpc
  refine h.named a.state.current j ?_
  rw [State.stage, hpc]
  rfl

/-- **A thread wants the thread of the table** that it has named. -/
theorem Linked.named_step {s : State} {e : Event} (h : Linked a) (hok : IdsOk a c)
    (hm : Moves a.state c s e) (hids : IdStep a.state s e) (z : Nat) (j : Target)
    (hz : (s.stage z).wanted = some j) : s.threadTable j.id = some j.thread := by
  cases hids with
  | other hsame hcreates hjoins =>
      rw [hsame.table]
      rcases hm.wants hz with hold | ⟨t, v, rfl, _, rfl⟩
      · exact h.named z j hold
      · exact (h.member t hok.1.1).2
  | @creates t id n l hpc hget hid htable hself hothers =>
      rcases hm.wants hz with hold | ⟨_, _, rfl, _⟩
      · have hentry := h.named z j hold
        have hne : j.id ≠ id := by
          intro hsame
          rw [hsame, hid.new] at hentry
          cases hentry
        rw [htable, Function.update_of_ne hne]
        exact hentry
      · cases hm
  | @joins k u value hpc hu htable hplace hids =>
      have hmine := h.finishesNamed k hpc
      have hwants : (a.state.stage a.state.current).wanted = some k := by
        rw [State.stage, hpc]
        rfl
      rcases hm.wants hz with hold | ⟨t, v, rfl, _⟩
      · rw [htable, Function.update_of_ne]
        · exact h.named z j hold
        · intro hsame
          have hnamed := h.named z j hold
          rw [hsame, hmine] at hnamed
          obtain rfl := h.alone z a.state.current j k hold hwants (Option.some.inj hnamed).symm
          rw [hplace] at hz
          cases hz
      · cases hm

/-- **One step** keeps threads and IDs linked. -/
theorem Linked.step (h : Linked a) (hinv : Inv a.state) (hinit : a.state.init = true)
    (hok : IdsOk a c) (hruled : Ruled a.state c) (hstep : WorldStep a c b) : Linked b := by
  have hent := h.entered.step hinv hinit hruled h.finishesNamed hstep
  obtain ⟨s, e, hexec, rfl⟩ := hstep
  have hm := exec_moves hexec
  exact ⟨hent.member, hent.table, hent.nodup, h.named_step hok hm (hinv.idStep hinit hruled hm),
    h.alone_step hok hm⟩

/-- Nothing is created or joined before the scheduler starts. -/
theorem Entered.begin (h : Entered a) (hgood : Good a.state) (hoff : a.state.init = false)
    (hstep : WorldStep a c b) : Entered b := by
  obtain ⟨s, e, hexec, rfl⟩ := hstep
  have hm := exec_moves hexec
  have hb := hgood.before hoff
  have hnil : unjoined a.history = [] := by
    apply List.eq_nil_iff_forall_not_mem.mpr
    intro t ht
    have hon := (h.member t ht).1
    rw [hoff] at hon
    cases hon
  have hcreates : ∀ t, e ≠ .creates t := by
    intro t heq
    subst heq
    cases hm with
    | creates armed cont hpc =>
        rw [hb.current_eq] at hpc
        exact hb.starting _ _ hpc
    | quiet armed cont hpc hp hp' hnew he =>
        rcases he with he | ⟨code, he⟩
        · cases he
        · cases he
  have hjoins : ∀ t u value, e ≠ .joins t u value := by
    intro t u value heq
    subst heq
    cases hm with
    | finishes armed cont hpc =>
        have hplain : (a.state.pc a.state.current).stage = .plain := by
          rw [hb.current_eq]
          exact hb.main
        rw [hpc] at hplain
        cases hplain
    | quiet armed cont hpc hp hp' hnew he =>
        rcases he with he | ⟨code, he⟩
        · cases he
        · cases he
  have heq := (unjoined_other (h := a.history) (x := a.state.current) hcreates hjoins).trans hnil
  constructor
  case member =>
    intro t ht
    rw [heq] at ht
    cases ht
  case table =>
    intro hon i u hu
    rcases hm.init_or with hsame | ⟨t, res, rfl⟩
    · have hon' : s.init = true := hon
      rw [hsame, hoff] at hon'
      cases hon'
    · rw [hoff, if_neg Bool.false_ne_true] at hu
      cases hu
  case nodup =>
    rw [heq]
    exact List.nodup_nil

/-- So does the first call of the library. -/
theorem Linked.begin (h : Linked a) (hgood : Good a.state) (hoff : a.state.init = false)
    (hstep : WorldStep a c b) : Linked b := by
  have hent := h.entered.begin hgood hoff hstep
  obtain ⟨s, e, hexec, rfl⟩ := hstep
  have hnone := hgood.stays_idle hoff hexec
  refine ⟨hent.member, hent.table, hent.nodup, ?_, ?_⟩
  · intro z j hz
    rw [hnone] at hz
    cases hz
  · intro z z' j j' hz
    rw [hnone] at hz
    cases hz

/-- At the start no thread is created. -/
theorem Entered.initial (hinit : Initial a.state) (hhist : a.history = []) : Entered a := by
  have hnil : unjoined a.history = [] := by
    rw [hhist]
    rfl
  refine ⟨?_, ?_, ?_⟩
  · intro t ht
    rw [hnil] at ht
    cases ht
  · intro hon
    rw [hinit.init] at hon
    cases hon
  · rw [hnil]
    exact List.nodup_nil

/-- **The history and the table agree** in every run that meets the condition. -/
theorem linked_of_reached (h : Reached IdsOk a) : Good a.state ∧ Linked a := by
  apply h.invariant (I := fun a => Good a.state ∧ Linked a)
  · intro b hb
    obtain ⟨hinit, hhist⟩ := hb
    have hgood := Good.initial hinit
    have hent := Entered.initial hinit hhist
    refine ⟨hgood, hent.member, hent.table, hent.nodup, ?_, ?_⟩
    · intro z j hz
      rw [hgood.idle hinit.init] at hz
      cases hz
    · intro z z' j j' hz
      rw [hgood.idle hinit.init] at hz
      cases hz
  · intro b c d _ hb hstep
    obtain ⟨hgood, hlink⟩ := hb
    have hruled := hstep.1.ruled hgood hlink
    refine ⟨?_, ?_⟩
    · obtain ⟨s, e, hexec, rfl⟩ := hstep.2
      exact hgood.step hruled (exec_moves hexec)
    · cases hinit : b.state.init with
      | false => exact hlink.begin hgood hinit hstep.2
      | true => exact hlink.step (hgood.after hinit) hinit hstep.1 hruled hstep.2

/-- The ID of a thread that is not joined. -/
theorem Linked.range (h : Linked a) (hinv : Inv a.state) {t : Nat} (ht : t ∈ unjoined a.history) :
    1 ≤ (a.state.thread t).id ∧ (a.state.thread t).id < threadLim := by
  obtain ⟨_, _, hpos, hlim, _⟩ := hinv.core.tables.table _ t (h.member t ht).2
  exact ⟨hpos, hlim⟩

/-- Two threads that are not joined have two IDs. -/
theorem Linked.distinct (h : Linked a) {t u : Nat} (ht : t ∈ unjoined a.history)
    (hu : u ∈ unjoined a.history) (hid : (a.state.thread t).id = (a.state.thread u).id) :
    t = u := by
  have hentry := (h.member t ht).2
  rw [hid, (h.member u hu).2] at hentry
  exact (Option.some.inj hentry).symm

/-- Threads that are not joined have IDs of their own from 1 on. -/
theorem Linked.length_lt (h : Linked a) (hinv : Inv a.state) {n : Int} (hn : 1 ≤ n)
    (hids : ∀ t ∈ unjoined a.history, (a.state.thread t).id < n) :
    ((unjoined a.history).length : Int) < n := by
  have hnodup : ((unjoined a.history).map fun t => (a.state.thread t).id).Nodup :=
    h.nodup.map_on fun t ht u hu hid => h.distinct ht hu hid
  have hsub : ((unjoined a.history).map fun t => (a.state.thread t).id).toFinset ⊆
      Finset.Ico (1 : Int) n := by
    intro i hi
    rw [List.mem_toFinset, List.mem_map] at hi
    obtain ⟨t, ht, rfl⟩ := hi
    exact Finset.mem_Ico.mpr ⟨(h.range hinv ht).1, hids t ht⟩
  have hcard := Finset.card_le_card hsub
  rw [List.toFinset_card_of_nodup hnodup, List.length_map, Int.card_Ico] at hcard
  omega

/-- At most `THREAD_LIM - 1` threads are not joined. -/
theorem Linked.length_le (h : Linked a) (hinv : Inv a.state) :
    ((unjoined a.history).length : Int) ≤ threadLim - 1 := by
  have hlt := h.length_lt hinv (n := threadLim) (by decide) fun t ht => (h.range hinv ht).2
  omega

/-- **Every index is in the tables.** -/
theorem Linked.indices (h : Linked a) (hinv : Inv a.state) (hok : IdsOk a c)
    (hruled : Ruled a.state c) {i : Int} (hi : i ∈ indices a.state c) : 0 ≤ i ∧ i < threadLim := by
  obtain ⟨r, hr, _⟩ := hinv.running
  have hcur := current_of_running hr
  have hjoin : ∀ {j : Target}, (a.state.pc a.state.current).stage.wanted = some j →
      0 ≤ j.id ∧ j.id < threadLim := by
    intro j hj
    obtain ⟨_, _, hpos, hlim, _⟩ := hinv.core.tables.table j.id j.thread (h.named _ j hj)
    exact ⟨by omega, hlim⟩
  cases c with
  | alarm => cases hi
  | call c =>
      cases c with
      | exit value =>
          obtain rfl := List.mem_singleton.mp hi
          rw [hcur]
          obtain ⟨hborn, hlive, _⟩ := hinv.alive hr
          by_cases hzero : r = 0
          · rw [hzero, hinv.core.tables.main.2]
            exact ⟨le_rfl, by decide⟩
          · have hentry := hinv.core.tables.entered r hzero hborn hlive
            obtain ⟨_, _, hpos, hlim, _⟩ := hinv.core.tables.table _ r hentry
            exact ⟨by omega, hlim⟩
      | _ => cases hi
  | advance =>
      unfold Threads.indices at hi
      cases hpc : a.state.pc a.state.current with
      | creating t res =>
          rw [hpc] at hi
          cases res with
          | available =>
              obtain rfl := List.mem_singleton.mp hi
              obtain ⟨id, n, l, hget, hid⟩ := hinv.core.tables.getId (hruled.1 t hpc).2
              rw [hget]
              obtain ⟨hpos, hlim, _⟩ := hid.range
              exact ⟨by show 0 ≤ id; omega, hlim⟩
          | _ => cases hi
      | joinScan j n =>
          rw [hpc] at hi
          dsimp only at hi
          split at hi
          · obtain rfl := List.mem_singleton.mp hi
            exact ⟨by omega, ‹_›⟩
          · cases hi
      | joinTable j | joinTest j | joinBlock j | joinFinish j =>
          rw [hpc] at hi hjoin
          obtain rfl := List.mem_singleton.mp hi
          exact hjoin rfl
      | _ =>
          rw [hpc] at hi
          cases hi

end Ids

/-- What the IDs are good for. -/
structure IdsKept (a : World) : Prop where
  distinct : ∀ t ∈ unjoined a.history, ∀ u ∈ unjoined a.history,
    (a.state.thread t).id = (a.state.thread u).id → t = u
  range : ∀ t ∈ unjoined a.history,
    1 ≤ (a.state.thread t).id ∧ (a.state.thread t).id < threadLim
  indices : ∀ c, IdsOk a c → ∀ i ∈ indices a.state c, 0 ≤ i ∧ i < threadLim
  next : IdLeft a → 1 ≤ (getId a.state).1 ∧ (getId a.state).1 < threadLim ∧
    ∀ t ∈ unjoined a.history, (a.state.thread t).id ≠ (getId a.state).1
  again : ∀ c b, IdsOk a c → WorldStep a c b → ∀ named released value,
    b.history = a.history ++ [(a.state.current, .joins named released value)] → IdLeft b

/-- **Thread IDs** in a run that meets the condition: those of the threads not joined are
distinct and in range, every index is in the tables, and after a join there is an ID left. -/
theorem ids_kept {a : World} (h : Reached IdsOk a) (hinit : a.state.init = true) : IdsKept a := by
  obtain ⟨hgood, hlink⟩ := linked_of_reached h
  have hinv := hgood.after hinit
  constructor
  case distinct => exact fun t ht u hu hid => hlink.distinct ht hu hid
  case range => exact fun t ht => hlink.range hinv ht
  case indices => exact fun c hok i hi => hlink.indices hinv hok (hok.ruled hgood hlink) hi
  case next =>
    intro hleft
    obtain ⟨id, n, l, hget, hid⟩ := hinv.core.tables.getId (hlink.placeLeft hinv hinit hleft)
    rw [hget]
    obtain ⟨hpos, hlim, _⟩ := hid.range
    refine ⟨hpos, hlim, ?_⟩
    intro t ht hsame
    have hentry := (hlink.member t ht).2
    rw [hsame, hid.new] at hentry
    cases hentry
  case again =>
    intro c b hok hstep named released value hhist
    have hlen := hlink.length_le hinv
    have hruled := hok.ruled hgood hlink
    obtain ⟨s, e, hexec, rfl⟩ := hstep
    have hids := hinv.idStep hinit hruled (exec_moves hexec)
    obtain ⟨_, rfl⟩ := Prod.mk.inj (List.singleton_inj.mp (List.append_cancel_left hhist))
    cases hids with
    | other hsame hcreates hjoins => exact absurd rfl (hjoins _ _ _)
    | @joins j u value hpc hu htable hplace hids =>
        have hwants : (a.state.stage a.state.current).wanted = some j := by
          rw [State.stage, hpc]
          rfl
        have hmem := hlink.table hinit j.id j.thread (hlink.named _ j hwants)
        have hpos := List.length_pos_of_mem hmem
        unfold IdLeft
        rw [unjoined_append]
        dsimp only
        rw [List.length_erase_of_mem hmem]
        omega

/-- The first creation meets the condition. -/
theorem started_ids : IdsOk blankWorld (.call (.create 1 .available)) :=
  ⟨trivial, fun h => by cases h⟩

/-- So does its end. -/
theorem created_ids : IdsOk startedWorld .advance := by
  refine ⟨?_, ?_⟩
  · intro t ht
    obtain ⟨rfl, _⟩ := Pc.creating.inj ht
    exact ⟨by decide, by decide, Or.inl rfl⟩
  · intro _ t _
    show ((unjoined startedWorld.history).length : Int) < threadLim - 1
    decide

section Calm

variable {a : World} {s s' : State} {calls : List Action}

/-- A step that joins nothing and touches no mutex, and creates a thread only with an object and
an ID that were never used. -/
def calm (s : State) : Action → Bool
  | .call (.join _ _) | .call (.mutexInit _ _) | .call (.destroy _) => false
  | .advance =>
    match s.pc s.current with
    | .creating t .available => decide (t ≠ 0 ∧ s.pc t = .unborn ∧ s.threadCount < threadLim)
    | _ => true
  | _ => true

/-- A thread is only created once there is a scheduler. -/
theorem Good.creating_init {t : Nat} {res : Resources} (hgood : Good s)
    (hpc : s.pc s.current = .creating t res) : s.init = true := by
  by_contra hoff
  have hb := hgood.before (Bool.not_eq_true _ ▸ hoff)
  rw [hb.current_eq] at hpc
  exact hb.starting _ _ hpc

/-- While IDs come from the counter, one is left below its limit. -/
theorem idLeft_of_count (hgood : Good a.state) (hlink : Linked a) (hinit : a.state.init = true)
    (hcount : a.state.threadCount < threadLim) : IdLeft a := by
  have hinv := hgood.after hinit
  have hlt := hlink.length_lt hinv hinv.core.tables.count fun u hu =>
    (hinv.core.tables.table _ u (hlink.member u hu).2).2.2.2.2.1
  unfold IdLeft
  omega

/-- Calls of few threads meet the condition. -/
theorem idsOk_of_calm {c : Action} (hgood : Good a.state) (hlink : Linked a)
    (hcalm : calm a.state c = true) : IdsOk a c := by
  cases c with
  | alarm => exact ⟨trivial, fun h => by cases h⟩
  | call c =>
      refine ⟨?_, fun h => by cases h⟩
      cases c with
      | join t v => cases hcalm
      | mutexInit m memory => cases hcalm
      | destroy m => cases hcalm
      | _ => trivial
  | advance =>
      have hnew : ∀ t, a.state.pc a.state.current = .creating t .available →
          t ≠ 0 ∧ a.state.pc t = .unborn ∧ a.state.threadCount < threadLim := by
        intro t hpc
        unfold calm at hcalm
        dsimp only at hcalm
        rw [hpc] at hcalm
        exact of_decide_eq_true hcalm
      refine ⟨?_, ?_⟩
      · intro t hpc
        obtain ⟨hmain, hunborn, _⟩ := hnew t hpc
        have hstage : a.state.stage t = .unborn := by
          rw [State.stage, hunborn]
          rfl
        refine ⟨hmain, ?_, Or.inl hstage⟩
        intro hmem
        obtain ⟨hon, hentry⟩ := hlink.member t hmem
        exact ((hgood.after hon).core.tables.table _ t hentry).1 hstage
      · intro _ t hpc
        exact idLeft_of_count hgood hlink (hgood.creating_init hpc) (hnew t hpc).2.2

/-- A calm run meets the condition. -/
theorem Visited.calm (h : Visited IdsOk s) (hcalm : Threads.allowed Threads.calm calls s = true)
    (hruns : Threads.runs calls s = some s') : Visited IdsOk s' := by
  refine h.allowed ?_ hcalm hruns
  intro u hist c hreach hc
  obtain ⟨hgood, hlink⟩ := linked_of_reached hreach
  exact idsOk_of_calm (a := ⟨u, hist⟩) hgood hlink hc

/-- In a calm run no thread joins another one. -/
theorem stays_calm (h : ∀ z, (s.stage z).wanted = none) (hcalm : allowed calm calls s = true)
    (hruns : runs calls s = some s') (z : Nat) : (s'.stage z).wanted = none := by
  induction calls generalizing s with
  | nil =>
      obtain rfl := Option.some.inj hruns
      exact h z
  | cons c rest ih =>
      obtain ⟨out, hout, hrest⟩ := Option.bind_eq_some_iff.mp hruns
      unfold allowed at hcalm
      rw [hout, Option.any_some, Bool.and_eq_true] at hcalm
      refine ih ?_ hcalm.2 hrest
      intro y
      by_contra hsome
      obtain ⟨j, hj⟩ := Option.ne_none_iff_exists'.mp hsome
      rcases (exec_moves hout).wants hj with hold | ⟨t, v, rfl, _⟩
      · rw [h y] at hold
        cases hold
      · cases hcalm.1

/-- A call joins a thread of the table while no thread joins another one, and its scan finds
nothing. -/
theorem Visited.joins {t : Nat} {v : Bool} (h : Visited IdsOk s)
    (hidle : ∀ z, (s.stage z).wanted = none) (hinit : s.init = true)
    (htable : s.threadTable (s.thread t).id = some t) (hs : Threads.scanned t v s = some s') :
    Visited IdsOk s' := by
  refine h.scanned ?_ ?_ hs
  · intro hist hreach
    have hmem := (linked_of_reached hreach).2.table hinit _ t htable
    refine ⟨⟨hmem, ?_⟩, fun h => by cases h⟩
    intro z j hz
    rw [hidle z] at hz
    cases hz
  · intro u j i hist hpc
    have hout : ∀ t, u.pc u.current ≠ .creating t .available := by
      intro t ht
      cases hpc.symm.trans ht
    exact ⟨fun t ht => absurd ht (hout t), fun _ t ht => absurd ht (hout t)⟩

end Calm

/-- `main` creates threads 1, 2 and 3; thread 1 exits, the other two give the processor up. -/
def staffing : List Action :=
  [.call (.create 1 .available), .advance, .call (.create 2 .available), .advance,
    .call (.create 3 .available), .advance, .call .yield, .advance, .call (.exit 5),
    .call .yield, .advance, .call .yield, .advance]

/-- The end of the join of thread 1, and a new thread, which gets its ID. -/
def replacing : List Action :=
  [.advance, .advance, .advance, .call (.create 4 .available), .advance]

/-- Threads 2, 3 and 4 are not joined, and thread 4 has the ID of thread 1, which is. -/
theorem ids_kept_replaced : ∃ a, 1 ∉ unjoined a.history ∧ 2 ∈ unjoined a.history ∧
    3 ∈ unjoined a.history ∧ 4 ∈ unjoined a.history ∧ (a.state.thread 4).id = 1 ∧ IdsKept a := by
  have hsome : ((runs staffing blankWorld.state).map fun s =>
      (decide (s.init = true ∧ s.threadTable (s.thread 1).id = some 1),
        (scanned 1 true s).map fun u => (allowed calm replacing u,
          (runs replacing u).map fun s' => decide (s'.init = true ∧ (s'.thread 1).id = 1 ∧
            (s'.thread 4).id = 1 ∧ s'.threadTable 1 = some 4 ∧ s'.threadTable 2 = some 2 ∧
              s'.threadTable 3 = some 3)))) = some (true, some (true, some true)) := by
    decide +kernel
  obtain ⟨s, hruns, hseen⟩ := Option.map_eq_some_iff.mp hsome
  obtain ⟨hready, hseen⟩ := Prod.mk.inj hseen
  obtain ⟨hon, htable⟩ := of_decide_eq_true hready
  obtain ⟨u, hscanned, hseen⟩ := Option.map_eq_some_iff.mp hseen
  obtain ⟨hcalm, hseen⟩ := Prod.mk.inj hseen
  obtain ⟨s', hruns', hseen⟩ := Option.map_eq_some_iff.mp hseen
  obtain ⟨hinit, hgone, hid, hfourth, hsecond, hthird⟩ := of_decide_eq_true hseen
  have hstaffing : allowed calm staffing blankWorld.state = true := by decide +kernel
  have hidle := stays_calm ((linked_of_reached reached_blankWorld).1.idle rfl) hstaffing hruns
  have hvisit := (visited_blank.calm hstaffing hruns).joins hidle hon htable hscanned
  obtain ⟨hist, hreach⟩ := hvisit.calm hcalm hruns'
  obtain ⟨_, hlink⟩ := linked_of_reached hreach
  have hjoined : 1 ∉ unjoined hist := by
    intro hmem
    have hentry := (hlink.member 1 hmem).2
    rw [show (World.state ⟨s', hist⟩).thread 1 = s'.thread 1 from rfl, hgone, hfourth] at hentry
    cases hentry
  exact ⟨⟨s', hist⟩, hjoined, hlink.table hinit 2 2 hsecond, hlink.table hinit 3 3 hthird,
    hlink.table hinit 1 4 hfourth, hid, ids_kept hreach hinit⟩

/-- `main` has created `n` threads and is about to create the next one. -/
structure Creating (n : Nat) (a : World) : Prop where
  reached : Reached JoinedOnce a
  init : a.state.init = true
  running : a.state.running = some 0
  pc : a.state.pc 0 = .creating (n + 1) .available
  count : a.state.threadCount = n + 1
  list : a.state.tidList = []
  unborn : ∀ t, n < t → a.state.pc t = .unborn
  created : ∀ t ∈ unjoined a.history, t ≤ n

section Full

variable {n : Nat} {a : World}

/-- The next creation is allowed. -/
theorem Creating.allowed (h : Creating n a) : JoinedOnce a .advance := by
  intro t hpc
  rw [current_of_running h.running, h.pc] at hpc
  obtain ⟨rfl, _⟩ := Pc.creating.inj hpc
  refine ⟨by omega, fun ht => ?_, Or.inl ?_⟩
  · have hle := h.created _ ht
    omega
  · rw [State.stage, h.unborn (n + 1) (by omega)]
    rfl

/-- A thread more is created. -/
theorem Creating.next (h : Creating n a) (hn : n < 999) : ∃ b, Creating (n + 1) b := by
  have hcur := current_of_running h.running
  have hget : getId a.state.pauseTimer = (((n + 1 : Nat) : Int),
      { a.state.pauseTimer with threadCount := ((n + 2 : Nat) : Int), tidList := [] }) := by
    have hlist : a.state.pauseTimer.tidList = [] := h.list
    have hcount : a.state.pauseTimer.threadCount = ((n : Int) + 1) := h.count
    unfold getId
    rw [hlist]
    dsimp only
    rw [hcount, if_neg (by simp only [threadLim]; omega)]
    push_cast
    rw [add_assoc]
    rfl
  have hfirst : exec a.state .advance =
      some ((createThread (n + 1) a.state.pauseTimer).resumeTimer.goto .own, .creates (n + 1)) := by
    show advance a.state = _
    unfold advance
    rw [hcur, h.pc]
    rfl
  rw [createThread_eq hget] at hfirst
  generalize hs : State.goto .own _ = s at hfirst
  have hrun : s.running = some 0 := by
    rw [← hs]
    exact h.running
  have hpc : s.pc = Function.update (Function.update a.state.pc (n + 1) .own) 0 .own := by
    rw [← hcur, ← hs]
    rfl
  have hsecond : exec s (.call (.create (n + 2) .available)) =
      some (s.goto (.creating (n + 2) .available), .silent) := by
    have hinit : s.init = true := by
      rw [← hs]
      exact h.init
    have hown : s.pc s.current = .own := by
      rw [current_of_running hrun, hpc, Function.update_self]
    simp [exec, call, myPthreadCreate, hown, hinit]
  refine ⟨⟨s.goto (.creating (n + 2) .available),
    a.history ++ [(a.state.current, .creates (n + 1))] ++ [(s.current, .silent)]⟩, ?_⟩
  have hgoto : (s.goto (.creating (n + 2) .available)).pc =
      Function.update s.pc 0 (.creating (n + 2) .available) := by
    rw [← current_of_running hrun]
    rfl
  constructor
  case reached =>
    have hok : JoinedOnce ⟨s, a.history ++ [(a.state.current, .creates (n + 1))]⟩
        (.call (.create (n + 2) .available)) := trivial
    exact (h.reached.next ⟨h.allowed, _, _, hfirst, rfl⟩).next ⟨hok, _, _, hsecond, rfl⟩
  case init =>
    show s.init = true
    rw [← hs]
    exact h.init
  case running => exact hrun
  case pc =>
    dsimp only
    rw [hgoto, Function.update_self]
  case count =>
    show s.threadCount = _
    rw [← hs]
    push_cast
    rw [add_assoc]
    rfl
  case list =>
    show s.tidList = []
    rw [← hs]
    rfl
  case unborn =>
    intro t ht
    dsimp only
    rw [hgoto, hpc, Function.update_of_ne (by omega), Function.update_of_ne (by omega),
      Function.update_of_ne (by omega)]
    exact h.unborn t (by omega)
  case created =>
    intro t ht
    rw [unjoined_append, unjoined_append] at ht
    dsimp only at ht
    rcases List.mem_append.mp ht with ht | ht
    · have hle := h.created t ht
      omega
    · obtain rfl := List.mem_singleton.mp ht
      exact le_rfl

/-- `main` creates up to 999 threads. -/
theorem creating_all (hn : n ≤ 999) : ∃ a, Creating n a := by
  induction n with
  | zero =>
      refine ⟨startedWorld, ⟨reached_startedWorld trivial, rfl, rfl, rfl, rfl, rfl, ?_, ?_⟩⟩
      · intro t ht
        have hne : t ≠ 0 := by omega
        show Function.update (Function.update (fun _ => Pc.unborn) 0 .own) 0 _ t = _
        rw [Function.update_of_ne hne, Function.update_of_ne hne]
      · intro t ht
        cases ht
  | succ n ih =>
      obtain ⟨a, ha⟩ := ih (by omega)
      exact ha.next (by omega)

end Full

/-- With 999 threads not joined the next one is entered at index -1. -/
theorem ids_run_out : ¬ ∀ a, Reached JoinedOnce a → a.state.init = true → ∀ c, JoinedOnce a c →
    ∀ i ∈ indices a.state c, 0 ≤ i ∧ i < threadLim := by
  intro hclaim
  obtain ⟨a, ha⟩ := creating_all (n := 999) le_rfl
  have hget : (getId a.state).1 = -1 := by
    unfold getId
    rw [ha.list]
    dsimp only
    rw [ha.count]
    rfl
  have hmem : (-1 : Int) ∈ indices a.state .advance := by
    unfold indices
    rw [current_of_running ha.running, ha.pc]
    dsimp only
    rw [hget]
    exact List.mem_cons_self
  obtain ⟨hpos, _⟩ := hclaim a ha.reached ha.init .advance ha.allowed _ hmem
  exact absurd hpos (by decide)

end Threads
