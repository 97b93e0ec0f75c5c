import CS416.Paging.Undisturbed

/-!
# Reading back what was written

The threads call `page_malloc`, read and write their addresses, and are
dispatched by the scheduler.  A page that is in the frame that its address
stands for is at home.  As long as all accesses are made at home, those of the
scheduler to the nodes of its queues included, what a thread wrote stays where
it is; after the first fault the contents of two frames have changed places,
and the page tables do not know.
-/

namespace Paging

open CInt Chain Runs

/-- The access goes through in the end, in the state `m'`. -/
def Proceeds (k : Page) (m m' : Machine) : Prop := ∃ n, settle [k] n m = some m'

/-- The frame that address `memory + x` lies in. -/
def frameOf (x : Nat) : Page := Fin.ofNat numPages (x / pageSize)

def writeByte (k : Page) (j : Nat) (v : UInt8) (m : Machine) : Machine :=
  { m with frames := Function.update m.frames k (Function.update (m.frames k) j v) }

/-- What the threads and the timer do. -/
inductive Action
  | malloc (size : Nat)
  | alarm
  | yield
  | read (x : Nat)
  | write (x : Nat) (v : UInt8)

/-- The machine, and the byte that each thread last wrote at each of its addresses. -/
structure World where
  machine : Machine
  written : Nat → Nat → Option UInt8

/-- The addresses of the running thread. -/
def InRange (m : Machine) (x : Nat) : Prop :=
  (x : Int) < (m.pages.owner m.running).numPages * pageSize

instance (m : Machine) (x : Nat) : Decidable (InRange m x) := inferInstanceAs (Decidable (_ < _))

/-- `my_pthread_yield` sets the status, and raises the signal of the timer. -/
def yielding (m : Machine) : Machine :=
  setSched m.running (fun s => { s with status := .yield }) m

/-- One action of the running thread. -/
def ActionStep (a : World) : Action → World → Prop
  | .malloc size, b => ∃ p m, malloc size a.machine = some (p, m) ∧ b = ⟨m, a.written⟩
  | .alarm, b => ∃ m, schedulerAlarmHandler a.machine = some m ∧ b = ⟨m, a.written⟩
  | .yield, b => ∃ m, schedulerAlarmHandler (yielding a.machine) = some m ∧ b = ⟨m, a.written⟩
  | .read x, b => InRange a.machine x ∧
      ∃ m, Proceeds (frameOf x) a.machine m ∧ b = ⟨m, a.written⟩
  | .write x v, b => InRange a.machine x ∧ ∃ m, Proceeds (frameOf x) a.machine m ∧
      b = ⟨writeByte (frameOf x) (x % pageSize) v m,
        Function.update a.written a.machine.running
          (Function.update (a.written a.machine.running) x (some v))⟩

/-- An access at `x` goes through, and finds what its thread wrote there. -/
def ReadsBack (a : World) (x : Nat) : Prop :=
  ∃ m, Proceeds (frameOf x) a.machine m ∧
    ∀ v, a.written a.machine.running x = some v → m.frames (frameOf x) (x % pageSize) = v

/-- The caller's page for `x` is the frame that `x` lies in, and it is not locked. -/
def AtHome (m : Machine) (x : Nat) : Prop :=
  (∃ i, (pagesOf m.pages m.running)[x / pageSize]? = some i ∧
    (m.pages.pageData i).page = m.pages.memory + x / pageSize * pageSize) ∧
    m.locked (frameOf x) = false

/-- A byte of the pointer `next` of the last node of a queue. -/
def LinkByte (m : Machine) (address : Nat) : Prop :=
  ∃ p, (m.queue p).size ≠ 0 ∧ (m.queue p).back + 8 ≤ address ∧ address < (m.queue p).back + 16

/-- The condition on a call of the scheduler: none of its accesses to queue nodes meets a
locked frame, and no thread has written over the link of the last node of a queue. -/
def DispatchOk (m : Machine) (written : Nat → Nat → Option UInt8) : Prop :=
  (∃ m', alarmHandler undisturbed m = some m') ∧
    ∀ t x, LinkByte m (m.pages.memory + x) → written t x = none

/-- The condition on an action: accesses are made to frames that are at home. -/
def AccessOk (a : World) : Action → Prop
  | .malloc _ => True
  | .alarm => DispatchOk a.machine a.written
  | .yield => DispatchOk (yielding a.machine) a.written
  | .read x | .write x _ => AtHome a.machine x

/-- The page of thread `t` for address `x` is the frame that `x` lies in. -/
def Home (s : Pages) (t x : Nat) : Prop :=
  ∃ i, (pagesOf s t)[x / pageSize]? = some i ∧
    (s.pageData i).page = s.memory + x / pageSize * pageSize

section Lists

variable {m m' : Machine} {s u : Pages} {runs : Nat → List (List Page)} {t x : Nat}

/-- A thread that is at home at `x` owns the frame. -/
theorem Home.mem (h : Owned s runs) (hx : Home s t x) :
    frameOf x ∈ pagesOf s t ∧ x / pageSize = (frameOf x : Nat) := by
  obtain ⟨i, hi, hpage⟩ := hx
  have hval : (i : Nat) = x / pageSize := by
    rw [h.page i] at hpage
    simp only [pageSize] at hpage ⊢
    omega
  have hframe : frameOf x = i := by
    apply Fin.ext
    have hlt := i.isLt
    simp only [frameOf, Fin.val_ofNat]
    rw [← hval]
    exact Nat.mod_eq_of_lt hlt
  rw [hframe]
  exact ⟨List.mem_of_getElem? hi, hval.symm⟩

/-- A page that a thread got stays at its place in the thread's list. -/
theorem Home.malloc {r size p : Nat} {pages : List Page} (h : Owned s runs)
    (hs : Served s r size runs p u pages) (hx : Home s t x) : Home u t x := by
  obtain ⟨i, hi, hpage⟩ := hx
  refine ⟨i, ?_, ?_⟩
  · by_cases ht : t = r
    · subst ht
      rw [hs.pagesOf_self h, List.getElem?_append_left]
      · exact hi
      · exact (List.getElem?_eq_some_iff.mp hi).1
    · rw [hs.pagesOf_ne h ht]
      exact hi
  · rw [hs.owned.page, hs.memory, ← h.page]
    exact hpage

/-- The lists have grown at the end of the list of `r`. -/
structure Grown (r : Nat) (s u : Pages) : Prop where
  held : Held u
  memory : u.memory = s.memory
  home : ∀ t x, Home s t x → Home u t x
  others : ∀ t, t ≠ r → pagesOf u t = pagesOf s t

theorem Grown.refl (h : Held s) (r : Nat) : Grown r s s :=
  ⟨h, rfl, fun _ _ hx => hx, fun _ _ => rfl⟩

/-- One growth after another. -/
theorem Grown.trans {r : Nat} {v : Pages} (h : Grown r s u) (h' : Grown r u v) : Grown r s v :=
  ⟨h'.held, h'.memory.trans h.memory, fun t x hx => h'.home t x (h.home t x hx),
    fun t ht => (h'.others t ht).trans (h.others t ht)⟩

/-- A request of the thread `r` fails, or gets a page behind its list. -/
theorem grown_malloc {r size p : Nat} (h : Held s) (hcall : pageMalloc r size s = some (p, u)) :
    Grown r s u ∧ (p = 0 ∨ p = s.memory + (pagesOf s r).length * pageSize + 1 ∧
      (pagesOf s r).length < numPages) := by
  obtain ⟨hinit, runs, howned⟩ := h
  have hpos : 0 < pagesNeeded size := by
    by_contra hle
    rw [pageMalloc, if_pos hinit] at hcall
    simp [not_lt.mp hle] at hcall
  rcases pageMalloc_spec howned hinit hpos r with ⟨_, hfail⟩ | ⟨_, q, v, pages, hok, hs⟩
  · obtain ⟨rfl, rfl⟩ := Prod.mk.inj (Option.some.inj (hcall.symm.trans hfail))
    exact ⟨.refl ⟨hinit, runs, howned⟩ r, Or.inl rfl⟩
  · obtain ⟨rfl, rfl⟩ := Prod.mk.inj (Option.some.inj (hcall.symm.trans hok))
    refine ⟨⟨⟨hs.init, _, hs.owned⟩, hs.memory, fun t x hx => hx.malloc howned hs,
      fun t ht => hs.pagesOf_ne howned ht⟩, Or.inr ⟨?_, ?_⟩⟩
    · rw [howned.pagesOf_eq]
      exact hs.result
    · have hroom := List.Nodup.length_le_card (hs.owned.nodup r)
      rw [withRun_self, ← howned.pagesOf_eq, List.length_append, Fintype.card_fin] at hroom
      have hlength := hs.length
      omega

/-- What every queue operation that meets no locked frame leaves behind. -/
structure Quiet (m m' : Machine) : Prop where
  running : m'.running = m.running
  locked : m'.locked = m.locked
  lists : Held m.pages → Grown m.running m.pages m'.pages

/-- Queue operations that meet no locked frame write to new pages and to links only. -/
theorem keeps_quiet : Keeps undisturbed Quiet := by
  constructor
  case refl => exact fun m => ⟨rfl, rfl, fun h => .refl h _⟩
  case trans =>
    intro m m' m'' h h'
    refine ⟨h'.running.trans h.running, h'.locked.trans h.locked, fun hm => ?_⟩
    have hgrown := h.lists hm
    have hmore := h'.lists hgrown.held
    rw [h.running] at hmore
    exact hgrown.trans hmore
  case reach =>
    intro a m m' h
    obtain ⟨rfl, _⟩ := reach_undisturbed h
    exact ⟨rfl, rfl, fun hm => .refl hm _⟩
  case free =>
    intro a m m' h
    obtain ⟨rfl, _⟩ := free_undisturbed h
    exact ⟨rfl, rfl, fun hm => .refl hm _⟩
  case malloc =>
    intro size r m m' h
    obtain ⟨s, hcall, rfl⟩ := malloc_rest h
    exact ⟨rfl, rfl, fun hm => (grown_malloc hm hcall).1⟩
  case put => exact fun a v m => ⟨rfl, rfl, fun hm => .refl hm _⟩
  case queue => exact fun p q m => ⟨rfl, rfl, fun hm => .refl hm _⟩

end Lists

section Bytes

variable {m m' u w : Machine} {t new : Nat} {p : Int} {f : Page} {j : Nat}

private theorem putWord_frames {a v : Nat}
    (h : ¬ (a ≤ addressOf m.pages f j ∧ addressOf m.pages f j < a + 8)) :
    (putWord a v m).frames f j = m.frames f j := if_neg fun hin => h hin.2

private theorem addressOf_congr {s u : Pages} (h : u.memory = s.memory) (f : Page) (j : Nat) :
    addressOf u f j = addressOf s f j := by
  rw [addressOf, addressOf, h]

/-- Nothing is mapped at `NULL`. -/
theorem wordAt_null (m : Machine) : ¬ (wordAt m 0).isSome := by
  intro hmapped
  obtain ⟨v, hv⟩ := Option.isSome_iff_exists.mp hmapped
  obtain ⟨hall, _⟩ := Option.ite_none_right_eq_some.mp hv
  have hzero := hall 0
  rw [byteAt, if_pos (by decide)] at hzero
  cases hzero

/-- The new node lies on the page behind the list of the running thread, in a frame that is
not locked. -/
theorem Enqueued.new_node (h : Enqueued t p new m m') (hm : Held m.pages) :
    new = m.pages.memory + (pagesOf m.pages m.running).length * pageSize + 1 ∧
      (pagesOf m.pages m.running).length < numPages ∧
      m.locked (Fin.ofNat numPages (pagesOf m.pages m.running).length) = false := by
  obtain ⟨u, v, hmalloc, hopen, hmapped, _, _⟩ := h.call
  obtain ⟨s, hcall, rfl⟩ := malloc_rest hmalloc
  obtain ⟨hgrown, hnull | ⟨hnew, hlt⟩⟩ := grown_malloc hm hcall
  · rw [hnull] at hmapped
    exact absurd hmapped (wordAt_null _)
  · refine ⟨hnew, hlt, ?_⟩
    have hin : InMemory s new := by
      rw [InMemory, hgrown.memory, hnew]
      simp only [pageSize, numPages] at hlt ⊢
      omega
    have hmem : frameAt s new ∈ touched s new := by
      apply List.mem_map_of_mem
      rw [List.mem_filter]
      exact ⟨List.mem_cons_self, decide_eq_true hin⟩
    have hframe : frameAt s new = Fin.ofNat numPages (pagesOf m.pages m.running).length := by
      apply Fin.ext
      rw [frameAt, hgrown.memory, hnew]
      simp only [Fin.val_ofNat, pageSize, numPages]
      omega
    rw [← hframe]
    exact hopen _ hmem

/-- **`enqueue`** stores into the new node and into the link of the last one. -/
theorem Enqueued.frames (h : Enqueued t p new m m') (hm : Held m.pages)
    (hnew : ¬ (new ≤ addressOf m.pages f j ∧ addressOf m.pages f j < new + 16))
    (hlink : ¬ LinkByte m (addressOf m.pages f j)) : m'.frames f j = m.frames f j := by
  obtain ⟨u, v, hmalloc, _, _, hlinks, rfl⟩ := h.call
  obtain ⟨s, hcall, rfl⟩ := malloc_rest hmalloc
  have haddr := addressOf_congr (grown_malloc hm hcall).1.memory f j
  -- the bytes behind the node's first pointer, and the ones of the first pointer
  have hsecond : ¬ (new + 8 ≤ addressOf s f j ∧ addressOf s f j < new + 8 + 8) := by
    rw [haddr]
    omega
  have hfirst : ¬ (new ≤ addressOf s f j ∧ addressOf s f j < new + 8) := by
    rw [haddr]
    omega
  have hthread : (putWord new t { m with pages := s }).frames f j = m.frames f j :=
    putWord_frames (m := { m with pages := s }) hfirst
  by_cases hsize : (m.queue p).size = 0
  · rw [hlinks.first hsize]
    exact (putWord_frames (m := putWord new t { m with pages := s }) hsecond).trans hthread
  · obtain ⟨next, _, hv⟩ := hlinks.later hsize
    have hback : ¬ ((m.queue p).back + 8 ≤ addressOf s f j ∧
        addressOf s f j < (m.queue p).back + 8 + 8) := by
      rw [haddr]
      exact fun hin => hlink ⟨p, hsize, hin.1, hin.2⟩
    rw [hv]
    refine (putWord_frames (m := putWord (new + 8) next (putWord new t { m with pages := s }))
      hback).trans ?_
    exact (putWord_frames (m := putWord new t { m with pages := s }) hsecond).trans hthread

/-- The queues after it: the last node of one of them is new. -/
theorem Enqueued.linkByte (h : Enqueued t p new m m') {a : Nat} (ha : LinkByte m' a) :
    LinkByte m a ∨ new ≤ a ∧ a < new + 16 := by
  obtain ⟨u, v, hmalloc, _, _, hlinks, rfl⟩ := h.call
  obtain ⟨s, _, rfl⟩ := malloc_rest hmalloc
  have hqueue : v.queue = m.queue := by
    by_cases hsize : (m.queue p).size = 0
    · rw [hlinks.first hsize]
      rfl
    · obtain ⟨next, _, hv⟩ := hlinks.later hsize
      rw [hv]
      rfl
  obtain ⟨q, hsize, hle, hlt⟩ := ha
  simp only [setQueue, hqueue] at hsize hle hlt
  by_cases hq : q = p
  · subst hq
    simp only [Function.update_self] at hle hlt
    exact Or.inr ⟨by omega, hlt⟩
  · rw [Function.update_of_ne hq] at hsize hle hlt
    exact Or.inl ⟨q, hsize, hle, hlt⟩

/-- **`get_next`** stores into the link of the last node. -/
theorem Took.frames (h : Took p m t m') (hlink : ¬ LinkByte m (addressOf m.pages f j)) :
    m'.frames f j = m.frames f j := by
  cases h with
  | empty _ => rfl
  | last _ _ => rfl
  | first hsize _ _ _ =>
      refine putWord_frames (m := m) fun hin => hlink ⟨p, hsize.1, hin.1, hin.2⟩

end Bytes

section Runs

variable {a b : World} {m m' u w : Machine} {x t : Nat}

/-- What was written is still in the frame of its writer. -/
def Remembers (m : Machine) (written : Nat → Nat → Option UInt8) : Prop :=
  ∀ t x v, written t x = some v → Home m.pages t x ∧ m.frames (frameOf x) (x % pageSize) = v

/-- The pages of the threads that do not run are locked. -/
def Shut (m : Machine) : Prop :=
  ∀ t, t ≠ m.running → ∀ i ∈ pagesOf m.pages t, m.locked i = true

/-- What holds in every state of a run under the condition. -/
structure Kept (m : Machine) (written : Nat → Nat → Option UInt8) : Prop where
  held : Held m.pages
  remembers : Remembers m written
  shut : Shut m

/-- The address of a byte that a thread wrote at home. -/
theorem Home.address {s : Pages} (h : Held s) (hx : Home s t x) :
    addressOf s (frameOf x) (x % pageSize) = s.memory + x := by
  obtain ⟨_, runs, howned⟩ := h
  have hval := (hx.mem howned).2
  rw [addressOf, ← hval]
  simp only [pageSize]
  omega

/-- **A queue operation keeps what was written**, if it changes no byte that a thread wrote. -/
theorem Kept.quiet {written : Nat → Nat → Option UInt8} (hm : Kept m written)
    (hquiet : Quiet m m') (hbytes : ∀ t x v, written t x = some v → Home m.pages t x →
      m'.frames (frameOf x) (x % pageSize) = m.frames (frameOf x) (x % pageSize)) :
    Kept m' written := by
  have hgrown := hquiet.lists hm.held
  constructor
  case held => exact hgrown.held
  case remembers =>
    intro t x v hv
    obtain ⟨hhome, hbyte⟩ := hm.remembers t x v hv
    exact ⟨hgrown.home t x hhome, (hbytes t x v hv hhome).trans hbyte⟩
  case shut =>
    intro t ht i hi
    rw [hquiet.running] at ht
    rw [hgrown.others t ht] at hi
    rw [hquiet.locked]
    exact hm.shut t ht i hi

/-- No byte that a thread wrote lies in the new node. -/
theorem Kept.not_new {written : Nat → Nat → Option UInt8} {new : Nat} {p : Int}
    (hm : Kept m written) (h : Enqueued t p new m m') {r : Nat} (hx : Home m.pages r x) :
    ¬ (new ≤ m.pages.memory + x ∧ m.pages.memory + x < new + 16) := by
  intro hin
  obtain ⟨hnew, hlt, hopen⟩ := h.new_node hm.held
  obtain ⟨_, runs, howned⟩ := hm.held
  have hplace : x / pageSize = (pagesOf m.pages m.running).length := by
    rw [hnew] at hin
    simp only [pageSize] at hin ⊢
    omega
  by_cases hr : r = m.running
  · -- its page would be behind the end of the list
    obtain ⟨i, hi, _⟩ := hx
    rw [hplace, hr, List.getElem?_eq_none (le_refl _)] at hi
    cases hi
  · -- its page would be locked
    have hlocked := hm.shut r hr _ (hx.mem howned).1
    rw [frameOf, hplace, hopen] at hlocked
    cases hlocked

/-- **The thread is put back** without touching what was written. -/
theorem Kept.enqueued {written : Nat → Nat → Option UInt8} {new : Nat} {p : Int}
    (hm : Kept m written) (hput : enqueue undisturbed t p m = some m')
    (h : Enqueued t p new m m')
    (hlinks : ∀ t x, LinkByte m (m.pages.memory + x) → written t x = none) :
    Kept m' written ∧ ∀ t x, LinkByte m' (m'.pages.memory + x) → written t x = none := by
  have hquiet := keeps_quiet.enqueue hput
  have hgrown := hquiet.lists hm.held
  have hnot : ∀ {r x v}, written r x = some v → ¬ LinkByte m (m.pages.memory + x) := by
    intro r x v hv hlink
    rw [hlinks r x hlink] at hv
    cases hv
  constructor
  · refine hm.quiet hquiet fun r x v hv hhome => ?_
    have haddr := hhome.address hm.held
    refine h.frames hm.held ?_ ?_
    · rw [haddr]
      exact hm.not_new h hhome
    · rw [haddr]
      exact hnot hv
  · intro r x hlink
    rw [hgrown.memory] at hlink
    cases hv : written r x with
    | none => rfl
    | some v =>
        exfalso
        rcases h.linkByte hlink with hold | hnew
        · exact hnot hv hold
        · exact hm.not_new h (hm.remembers r x v hv).1 hnew

/-- The fields of threads and the counters matter to nothing of this. -/
theorem Kept.sched {written : Nat → Nat → Option UInt8} (hm : Kept m written)
    (h : m' = { m with sched := m'.sched, currentPriority := m'.currentPriority,
                       runAtPriority := m'.runAtPriority }) : Kept m' written := by
  rw [h]
  exact ⟨hm.held, hm.remembers, hm.shut⟩

/-- The `switch` keeps what the threads have written. -/
theorem Kept.switch {written : Nat → Nat → Option UInt8} {resume : Bool} (hm : Kept m written)
    (hlinks : ∀ t x, LinkByte m (m.pages.memory + x) → written t x = none)
    (h : switchStatus undisturbed m = some (u, resume)) :
    Kept u written ∧ u.running = m.running ∧
      ∀ t x, LinkByte u (u.pages.memory + x) → written t x = none := by
  obtain ⟨sched, rfl | ⟨v, q, _, hput⟩⟩ := switchStatus_cases h
  · exact ⟨hm.sched rfl, rfl, hlinks⟩
  · obtain ⟨new, hnew⟩ := enqueue_undisturbed hput
    have hm' : Kept { m with sched := sched } written := hm.sched rfl
    obtain ⟨hkept, hafter⟩ := hm'.enqueued hput hnew hlinks
    exact ⟨hkept, (keeps_quiet.enqueue hput).running, hafter⟩

/-- `mprotect` of all pages of a thread, which are in their own frames. -/
theorem protect_at (h : Held m.pages) (t : Nat) (lock : Bool) (i : Page) :
    (protect m t lock).locked i = if i ∈ pagesOf m.pages t then lock else m.locked i := by
  obtain ⟨_, runs, howned⟩ := h
  have hframe : ∀ j : Page, frameAt m.pages (m.pages.pageData j).page = j := by
    intro j
    apply Fin.ext
    have hj := j.isLt
    simp only [frameAt, Fin.val_ofNat, howned.page, pageSize, numPages] at hj ⊢
    omega
  unfold protect
  dsimp only
  simp only [hframe, exists_eq_right]

/-- **The protections of a dispatch** leave the pages of all other threads locked. -/
theorem Kept.protect {written : Nat → Nat → Option UInt8} {r : Nat} (hm : Kept m written)
    (hr : r = m.running) (h : m' = protect (protect { m with running := t } r true) t false) :
    Kept m' written := by
  have hfirst := protect_only { m with running := t } r true
  have honly := hfirst.trans (protect_only _ t false)
  rw [← h] at honly
  have hpages : m'.pages = m.pages := honly.pages
  have hframes : m'.frames = m.frames := honly.frames
  have hrun : m'.running = t := honly.running
  constructor
  case held =>
    rw [hpages]
    exact hm.held
  case remembers =>
    intro v x b hb
    rw [hpages, hframes]
    exact hm.remembers v x b hb
  case shut =>
    intro v hv i hi
    rw [hrun] at hv
    rw [hpages] at hi
    have hheld : Held (Paging.protect { m with running := t } r true).pages := by
      rw [hfirst.pages]
      exact hm.held
    have hheld' : Held ({ m with running := t } : Machine).pages := hm.held
    have hlists : pagesOf (Paging.protect { m with running := t } r true).pages t =
        pagesOf m.pages t := by rw [hfirst.pages]
    have hapart : i ∉ pagesOf m.pages t := by
      obtain ⟨_, runs, howned⟩ := hm.held
      rw [howned.pagesOf_eq] at hi ⊢
      exact howned.apart v t hv hi
    rw [h, protect_at hheld, hlists, if_neg hapart, protect_at hheld']
    by_cases hvr : v = r
    · rw [if_pos (hvr ▸ hi)]
    · split
      · rfl
      · exact hm.shut v (hr ▸ hvr) i hi

/-- **A dispatch keeps what was written.** -/
theorem Kept.dispatch {written : Nat → Nat → Option UInt8} (hm : Kept m written)
    (hok : DispatchOk m written) (hcall : schedulerAlarmHandler m = some m') :
    Kept m' written := by
  obtain ⟨⟨v, hv⟩, hlinks⟩ := hok
  obtain rfl := Option.some.inj ((alarmHandler_below m v hv).symm.trans hcall)
  rcases undisturbed_cases hv with hresume | ⟨u, t, w, h⟩
  · exact (hm.switch hlinks hresume).1
  · obtain ⟨hkept, _, hafter⟩ := hm.switch hlinks h.switch
    have hcount : Kept (updateCounters u) written := by
      apply hkept.sched
      conv_lhs => rw [updateCounters_rest]
      rw [updateCounters_rest]
    have htook := getNext_undisturbed h.next
    have hquiet := keeps_quiet.getNext h.next
    have hnext : Kept w written := by
      refine hcount.quiet hquiet fun r x b hb hhome => htook.frames fun hlink => ?_
      rw [hhome.address hcount.held, updateCounters_rest] at hlink
      rw [hafter r x hlink] at hb
      cases hb
    refine hnext.protect ?_ h.result
    rw [hquiet.running, updateCounters_rest]

/-- So does `page_malloc`. -/
theorem Kept.malloc {written : Nat → Nat → Option UInt8} {size p : Nat} (hm : Kept m written)
    (hcall : malloc size m = some (p, m')) : Kept m' written := by
  refine hm.quiet (keeps_quiet.malloc hcall) fun _ _ _ _ _ => ?_
  obtain ⟨s, _, rfl⟩ := malloc_rest hcall
  rfl

/-- **A write at home touches no other thread's bytes.** -/
theorem Kept.write {written : Nat → Nat → Option UInt8} {v : UInt8} (hm : Kept m written)
    (hx : Home m.pages m.running x) :
    Kept (writeByte (frameOf x) (x % pageSize) v m)
      (Function.update written m.running
        (Function.update (written m.running) x (some v))) := by
  refine ⟨hm.held, ?_, hm.shut⟩
  obtain ⟨_, runs, howned⟩ := hm.held
  intro t y w hw
  obtain ⟨hmem, hval⟩ := hx.mem howned
  by_cases hself : t = m.running ∧ y = x
  · obtain ⟨rfl, rfl⟩ := hself
    have hvw : v = w := by simpa using hw
    refine ⟨hx, ?_⟩
    simp [writeByte, hvw]
  · have hold : written t y = some w := by
      by_cases ht : t = m.running
      · have hy : y ≠ x := fun heq => hself ⟨ht, heq⟩
        subst ht
        simpa [hy] using hw
      · simpa [ht] using hw
    obtain ⟨hhome, hbyte⟩ := hm.remembers t y w hold
    obtain ⟨hmem', hval'⟩ := hhome.mem howned
    refine ⟨hhome, ?_⟩
    -- another frame, or another byte of this one
    by_cases hframe : frameOf y = frameOf x
    · have ht : t = m.running := by
        by_contra hne
        rw [howned.pagesOf_eq] at hmem hmem'
        exact howned.apart t m.running hne hmem' (hframe ▸ hmem)
      have hoff : y % pageSize ≠ x % pageSize := by
        intro heq
        apply hself
        refine ⟨ht, ?_⟩
        rw [hframe] at hval'
        have hdiv : y / pageSize = x / pageSize := hval'.trans hval.symm
        simp only [pageSize] at hdiv heq
        omega
      simp only [writeByte, hframe, Function.update_self, Function.update_of_ne hoff]
      rw [← hframe]
      exact hbyte
    · simp only [writeByte, Function.update_of_ne hframe]
      exact hbyte

/-- An access to a frame that is not locked goes straight to it. -/
theorem proceeds_unlocked {k : Page} (hlock : m.locked k = false) :
    Proceeds k m m' ↔ m' = m := by
  have hopen : ∀ f ∈ [k], m.locked f = false := by
    intro f hf
    rw [List.mem_singleton.mp hf]
    exact hlock
  constructor
  · intro h
    obtain ⟨n, hn⟩ := h
    cases n with
    | zero => cases hn
    | succ n =>
        rw [settle_open hopen n] at hn
        exact (Option.some.inj hn).symm
  · intro h
    exact ⟨1, by rw [h]; exact settle_open hopen 0⟩

/-- **One action** at home keeps what the threads have written. -/
theorem Kept.step (ha : Kept a.machine a.written) {c : Action} (hok : AccessOk a c)
    (hstep : ActionStep a c b) : Kept b.machine b.written := by
  cases c with
  | malloc size =>
      obtain ⟨p, m, hcall, rfl⟩ := hstep
      exact ha.malloc hcall
  | alarm =>
      obtain ⟨m, hm, rfl⟩ := hstep
      exact ha.dispatch hok hm
  | yield =>
      obtain ⟨m, hm, rfl⟩ := hstep
      have hyield : Kept (yielding a.machine) a.written := ha.sched rfl
      exact hyield.dispatch hok hm
  | read x =>
      obtain ⟨_, m, hm, rfl⟩ := hstep
      rw [(proceeds_unlocked hok.2).mp hm]
      exact ha
  | write x v =>
      obtain ⟨_, m, hm, rfl⟩ := hstep
      rw [(proceeds_unlocked hok.2).mp hm]
      exact ha.write hok.1

/-- An action, with at most one fault for an access. -/
def World.exec (a : World) : Action → Option World
  | .malloc size => (malloc size a.machine).map fun r => ⟨r.2, a.written⟩
  | .alarm => (schedulerAlarmHandler a.machine).map fun m => ⟨m, a.written⟩
  | .yield => (schedulerAlarmHandler (yielding a.machine)).map fun m => ⟨m, a.written⟩
  | .read x =>
    if InRange a.machine x then
      (settle [frameOf x] 2 a.machine).map fun m => ⟨m, a.written⟩
    else none
  | .write x v =>
    if InRange a.machine x then
      (settle [frameOf x] 2 a.machine).map fun m =>
        ⟨writeByte (frameOf x) (x % pageSize) v m,
          Function.update a.written a.machine.running
            (Function.update (a.written a.machine.running) x (some v))⟩
    else none

def World.execAll : List Action → World → Option World
  | [], a => some a
  | c :: rest, a => (a.exec c).bind (execAll rest)

end Runs

end Paging
