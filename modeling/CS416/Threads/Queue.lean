import CS416.Lib.CInt
import CS416.Lib.Reach
import CS416.Lib.Ring
import CS416.Threads.Machine

/-!
# The nodes of a queue

`make_queue`, `enqueue` and `get_next` keep a queue as a ring of nodes that is
held at its last node, with a count of the nodes.  An address of a node is a
number, `NULL` is `none`, and the heap maps the addresses of the nodes that are
allocated to what is stored there.  The address that `malloc` returns is an
argument, so that a freed address may be used again.

`none` is a call that goes through `NULL` or through a node that is not
allocated.
-/

namespace Queues

open CInt Rings Runs

/-- `Node` -/
structure Node where
  thread : Nat
  next : Option Nat
  deriving DecidableEq

/-- `Queue` -/
structure Queue where
  back : Option Nat
  size : Int
  deriving DecidableEq

/-- The nodes that are allocated. -/
abbrev Heap := Nat → Option Node

/-- `make_queue`, where `found` says whether `malloc` returned memory. -/
def makeQueue (found : Bool) : Option Queue :=
  if found then some { back := none, size := 0 } else none

/-- What `get_next` returns, with the nodes that it frees. -/
structure Taken where
  ret : Option Nat
  freed : List Nat
  heap : Heap
  queue : Queue

/-- `get_next` -/
def getNext (h : Heap) (q : Queue) : Option Taken :=
  if q.size = 0 then some ⟨none, [], h, q⟩
  else do
    let back ← q.back
    let last ← h back
    if q.size = 1 then
      return ⟨some last.thread, [back], Function.update h back none, none, toInt (q.size - 1)⟩
    else
      let temp ← last.next
      let first ← h temp
      let next := if q.size = 2 then some back else first.next
      let h := Function.update h back (some { last with next := next })
      return ⟨some first.thread, [temp], Function.update h temp none, some back,
        toInt (q.size - 1)⟩

/-- `enqueue`, where `malloc` returns `new`. -/
def enqueue (thread new : Nat) (h : Heap) (q : Queue) : Option (Heap × Queue) := do
  let h ←
    if q.size ≠ 0 then do
      let back ← q.back
      let last ← h back
      let h := Function.update h new (some ⟨thread, last.next⟩)
      some (Function.update h back (some { last with next := some new }))
    else some (Function.update h new (some ⟨thread, some new⟩))
  return (h, { back := some new, size := toInt (q.size + 1) })

/-- The pointers between nodes. -/
def nextIn (h : Heap) (n : Nat) : Option Nat := (h n).bind Node.next

/-- The queue holds `threads`, front first, in the nodes `nodes`. -/
structure Holds (h : Heap) (q : Queue) (nodes threads : List Nat) : Prop where
  ring : IsRing (nextIn h) nodes
  back : q.back = nodes.getLast?
  size : q.size = nodes.length
  threads : nodes.map (fun n => (h n).map Node.thread) = threads.map some

section Operations

variable {h h' : Heap} {q : Queue} {nodes front threads : List Nat} {t n z new : Nat}

private theorem holds_makeQueue (h : Heap) : ∃ q, makeQueue true = some q ∧ Holds h q [] [] :=
  ⟨_, rfl, isRing_nil _, rfl, rfl, rfl⟩

/-- There is one node for each thread. -/
theorem Holds.length (hq : Holds h q nodes threads) : nodes.length = threads.length := by
  have hlen := congrArg List.length hq.threads
  simpa only [List.length_map] using hlen

/-- The threads are read off the nodes alone. -/
theorem Holds.threads_congr (hq : Holds h q nodes threads)
    (hsame : ∀ n ∈ nodes, (h' n).map Node.thread = (h n).map Node.thread) :
    nodes.map (fun n => (h' n).map Node.thread) = threads.map some :=
  (List.map_congr_left hsame).trans hq.threads

/-- A node of the queue is allocated. -/
theorem Holds.allocated (hq : Holds h q nodes threads) (hn : n ∈ nodes) : ∃ x, h n = some x := by
  have hmem : (h n).map Node.thread ∈ threads.map some := by
    rw [← hq.threads]
    exact List.mem_map_of_mem hn
  obtain ⟨t, _, ht⟩ := List.mem_map.mp hmem
  obtain ⟨x, hx, _⟩ := Option.map_eq_some_iff.mp ht.symm
  exact ⟨x, hx⟩

/-- A new node is none of them. -/
theorem Holds.fresh (hq : Holds h q nodes threads) (hnew : h new = none) : new ∉ nodes := by
  intro hmem
  obtain ⟨x, hx⟩ := hq.allocated hmem
  rw [hnew] at hx
  cases hx

/-- The node `z` at the back of a queue that is not empty. -/
theorem Holds.last (hq : Holds h q (front ++ [z]) threads) :
    q.back = some z ∧ q.size ≠ 0 ∧ (∃ last, h z = some last) ∧ ∀ m ∈ front, m ≠ z := by
  refine ⟨?_, ?_, hq.allocated (by simp), ?_⟩
  · rw [hq.back, List.getLast?_concat]
  · rw [hq.size, List.length_append, List.length_singleton]
    omega
  · intro m hm
    exact (List.nodup_append.mp hq.ring.nodup).2.2 m hm z (by simp)

/-- **`enqueue`** puts the thread behind the others and touches no other node. -/
theorem enqueue_spec (hq : Holds h q nodes threads) (hnew : h new = none)
    (hroom : nodes.length < 2147483647) (t : Nat) :
    ∃ h' q', enqueue t new h q = some (h', q') ∧
      Holds h' q' (nodes ++ [new]) (threads ++ [t]) ∧
      ∀ m, m ∉ nodes → m ≠ new → h' m = h m := by
  have hfresh := hq.fresh hnew
  have hsize : toInt (q.size + 1) = ((nodes ++ [new]).length : Int) := by
    rw [hq.size, List.length_append, List.length_singleton]
    exact toInt_of_range (by omega) (by omega)
  rcases List.eq_nil_or_concat nodes with rfl | ⟨front, z, rfl⟩
  · have hzero : q.size = 0 := hq.size
    have hnone : threads = [] := List.eq_nil_of_length_eq_zero hq.length.symm
    refine ⟨_, _, by simp [enqueue, hzero]; exact ⟨rfl, rfl⟩, ?_, ?_⟩
    · refine ⟨isRing_singleton (by simp [nextIn]), rfl, ?_, by simp [hnone]⟩
      rw [hzero] at hsize
      exact hsize
    · intro m _ hm
      exact Function.update_of_ne hm _ _
  · rw [List.concat_eq_append] at *
    obtain ⟨hback, hpos, ⟨last, hlast⟩, hfront⟩ := hq.last
    have hz : z ≠ new := by
      intro heq
      exact hfresh (by simp [heq])
    refine ⟨_, _, by simp [enqueue, hpos, hback, hlast]; exact ⟨rfl, rfl⟩, ?_, ?_⟩
    · have hother : ∀ m ∈ front, Function.update (Function.update h new
          (some ⟨t, last.next⟩)) z (some { last with next := some new }) m = h m := by
        intro m hm
        have hmn : m ≠ new := by
          intro heq
          exact hfresh (by simp [← heq, hm])
        rw [Function.update_of_ne (hfront m hm), Function.update_of_ne hmn]
      refine ⟨hq.ring.push hfresh ?_ ?_ ?_, by rw [List.getLast?_concat], hsize, ?_⟩
      · intro m hm
        simp only [nextIn]
        rw [hother m hm]
      · simp [nextIn]
      · simp [nextIn, Function.update_of_ne hz.symm, hlast]
      · have hnode : Function.update (Function.update h new (some ⟨t, last.next⟩)) z
            (some { last with next := some new }) new = some ⟨t, last.next⟩ := by
          rw [Function.update_of_ne hz.symm, Function.update_self]
        refine List.map_append.trans ((congrArg₂ (· ++ ·) (hq.threads_congr ?_) ?_).trans
          List.map_append.symm)
        · intro m hm
          rcases List.mem_append.mp hm with hm | hm
          · rw [hother m hm]
          · rw [List.mem_singleton.mp hm, hlast, Function.update_self]
            rfl
        · rw [List.map_singleton, hnode]
          rfl
    · intro m hm hmn
      have hmz : m ≠ z := by
        intro heq
        exact hm (by simp [heq])
      rw [Function.update_of_ne hmz, Function.update_of_ne hmn]

/-- `get_next` of an empty queue. -/
theorem getNext_empty (hq : Holds h q [] threads) : getNext h q = some ⟨none, [], h, q⟩ :=
  if_pos hq.size

/-- **`get_next`** takes the first thread, frees its node and touches none outside the queue. -/
theorem getNext_spec (hq : Holds h q (n :: nodes) (t :: threads))
    (hroom : (n :: nodes).length ≤ 2147483647) :
    ∃ h' q', getNext h q = some ⟨some t, [n], h', q'⟩ ∧ Holds h' q' nodes threads ∧
      h' n = none ∧ ∀ m, m ∉ n :: nodes → h' m = h m := by
  have hsize : q.size = nodes.length + 1 := by
    rw [hq.size, List.length_cons]
    push_cast
    rfl
  have hpos : q.size ≠ 0 := by omega
  have hless : toInt (q.size - 1) = (nodes.length : Int) := by
    rw [List.length_cons] at hroom
    rw [hsize, add_sub_cancel_right]
    exact toInt_of_range (by omega) (by omega)
  obtain ⟨hthread, hthreads⟩ := List.cons.inj hq.threads
  obtain ⟨first, hfirst, hthread⟩ := Option.map_eq_some_iff.mp hthread
  rcases List.eq_nil_or_concat nodes with rfl | ⟨front, z, rfl⟩
  · have hone : q.size = 1 := hsize
    have hback : q.back = some n := hq.back
    refine ⟨_, _, by simp [getNext, hone, hback, hfirst, hthread]; exact ⟨rfl, rfl⟩, ?_, ?_, ?_⟩
    · refine ⟨isRing_nil _, rfl, ?_, hthreads⟩
      rw [hone] at hless
      exact hless
    · exact Function.update_self _ _ _
    · intro m hm
      exact Function.update_of_ne (fun heq => hm (by simp [heq])) _ _
  · rw [List.concat_eq_append] at *
    have hwhole : Holds h q ((n :: front) ++ [z]) (t :: threads) := hq
    obtain ⟨hback, _, ⟨last, hlast⟩, hfront⟩ := hwhole.last
    have hn := hfront n List.mem_cons_self
    have htemp : last.next = some n := by
      have hclosed := hq.ring.next_last (hq.back.symm.trans hback)
      simpa [nextIn, hlast] using hclosed
    have htwo : q.size ≠ 1 := by
      rw [hsize, List.length_append, List.length_singleton]
      omega
    -- the second node, which is the last one where there are two
    have hsecond : (if q.size = 2 then some z else first.next) = (front ++ [z]).head? := by
      cases front with
      | nil => rw [if_pos (by rw [hsize]; rfl)]; rfl
      | cons b front =>
          rw [if_neg]
          · have hchain := hq.ring.next_first
            simpa [nextIn, hfirst] using hchain
          · rw [hsize, List.cons_append, List.length_cons, List.length_append]
            simp only [List.length_singleton]
            omega
    refine ⟨Function.update (Function.update h z (some { last with next :=
      (front ++ [z]).head? })) n none, ⟨some z, toInt (q.size - 1)⟩, ?_, ?_, ?_, ?_⟩
    · simp [getNext, hpos, htwo, hback, hlast, htemp, hfirst, hsecond, hthread]
    · have hother : ∀ m ∈ front, Function.update (Function.update h z (some { last with next :=
          (front ++ [z]).head? })) n none m = h m := by
        intro m hm
        have hmn : m ≠ n := by
          intro heq
          exact (List.nodup_cons.mp hq.ring.nodup).1 (by simp [← heq, hm])
        rw [Function.update_of_ne hmn, Function.update_of_ne (hfront m (by simp [hm]))]
      refine ⟨hq.ring.pop ?_ ?_, by rw [List.getLast?_concat], hless, ?_⟩
      · intro m hm
        simp only [nextIn]
        rw [hother m hm]
      · simp [nextIn, Function.update_of_ne hn.symm]
      · refine Eq.trans (List.map_congr_left ?_) hthreads
        intro m hm
        rcases List.mem_append.mp hm with hm | hm
        · rw [hother m hm]
        · rw [List.mem_singleton.mp hm, hlast, Function.update_of_ne hn.symm, Function.update_self]
          rfl
    · exact Function.update_self _ _ _
    · intro m hm
      have hmn : m ≠ n := fun heq => hm (by simp [heq])
      have hmz : m ≠ z := fun heq => hm (by simp [heq])
      rw [Function.update_of_ne hmn, Function.update_of_ne hmz]

/-- A queue does not notice what happens to other nodes. -/
theorem Holds.frame (hq : Holds h q nodes threads) (hsame : ∀ n ∈ nodes, h' n = h n) :
    Holds h' q nodes threads := by
  refine ⟨hq.ring.congr ?_, hq.back, hq.size, hq.threads_congr ?_⟩
  · intro n hn
    unfold nextIn
    rw [hsame n hn]
  · intro n hn
    rw [hsame n hn]

end Operations

section Levels

variable {h : Heap} {qs : Int → Queue} {nodes level : Int → List Nat} {s : Threads.State}
  {p : Int} {new : Nat}

/-- `priority_level`: the queues of all levels, in separate nodes. -/
structure HoldsLevels (h : Heap) (qs : Int → Queue) (nodes level : Int → List Nat) : Prop where
  holds : ∀ p, Holds h (qs p) (nodes p) (level p)
  apart : ∀ p r, p ≠ r → (nodes p).Disjoint (nodes r)

/-- A call on the queue of one level leaves the other levels alone. -/
theorem HoldsLevels.update {h' : Heap} {q : Queue} {list threads : List Nat}
    (hl : HoldsLevels h qs nodes level) (hq : Holds h' q list threads)
    (hlist : ∀ r, r ≠ p → list.Disjoint (nodes r))
    (hsame : ∀ r, r ≠ p → ∀ n ∈ nodes r, h' n = h n) :
    HoldsLevels h' (Function.update qs p q) (Function.update nodes p list)
      (Function.update level p threads) := by
  constructor
  case holds =>
    intro r
    by_cases hr : r = p
    · subst hr
      simp only [Function.update_self]
      exact hq
    · simp only [Function.update_of_ne hr]
      exact (hl.holds r).frame (hsame r hr)
  case apart =>
    intro r v hrv
    by_cases hr : r = p
    · subst hr
      rw [Function.update_self, Function.update_of_ne hrv.symm]
      exact hlist v hrv.symm
    · by_cases hv : v = p
      · subst hv
        rw [Function.update_self, Function.update_of_ne hr]
        exact (hlist r hr).symm
      · rw [Function.update_of_ne hr, Function.update_of_ne hv]
        exact hl.apart r v hrv

/-- `enqueue` on the queue of a level. -/
theorem HoldsLevels.push (hl : HoldsLevels h qs nodes level) (hnew : h new = none)
    (hroom : (level p).length < 2147483647) (t : Nat) :
    ∃ h' q', Queues.enqueue t new h (qs p) = some (h', q') ∧
      HoldsLevels h' (Function.update qs p q') (Function.update nodes p (nodes p ++ [new]))
        (Function.update level p (level p ++ [t])) := by
  obtain ⟨h', q', hcall, hq, hother⟩ :=
    enqueue_spec (hl.holds p) hnew (by rw [(hl.holds p).length]; exact hroom) t
  refine ⟨h', q', hcall, hl.update hq ?_ ?_⟩
  · intro r hr n hn hnr
    rcases List.mem_append.mp hn with hn | hn
    · exact hl.apart p r (Ne.symm hr) hn hnr
    · exact (hl.holds r).fresh hnew (List.mem_singleton.mp hn ▸ hnr)
  · intro r hr n hn
    refine hother n (fun hnp => hl.apart p r (Ne.symm hr) hnp hn) ?_
    intro heq
    exact (hl.holds r).fresh hnew (heq ▸ hn)

/-- `get_next` on the queue of a level. -/
theorem HoldsLevels.pull (hl : HoldsLevels h qs nodes level)
    (hroom : (level p).length ≤ 2147483647) :
    ∃ x, Queues.getNext h (qs p) = some x ∧ x.ret = (level p).head? ∧
      HoldsLevels x.heap (Function.update qs p x.queue)
        (Function.update nodes p (nodes p).tail) (Function.update level p (level p).tail) := by
  have hp := hl.holds p
  have hlength := hp.length
  have hapart := hl.apart p
  generalize hlist : nodes p = list at *
  generalize hlevel : level p = threads at *
  cases list with
  | nil =>
      obtain rfl := List.eq_nil_of_length_eq_zero hlength.symm
      refine ⟨_, getNext_empty hp, rfl, ?_⟩
      dsimp only [List.tail_nil]
      have hempty : Function.update level p [] = level := by
        rw [← hlevel, Function.update_eq_self]
      rw [Function.update_eq_self, hempty, ← hlist, Function.update_eq_self]
      exact hl
  | cons n list =>
      cases threads with
      | nil => cases hlength
      | cons t threads =>
          obtain ⟨h', q', hcall, hq, _, hother⟩ := getNext_spec hp (by rw [hlength]; exact hroom)
          refine ⟨_, hcall, rfl, hl.update hq ?_ ?_⟩
          · intro r hr m hm
            exact hapart r (Ne.symm hr) (List.mem_cons_of_mem _ hm)
          · intro r hr m hm
            exact hother m fun hmp => hapart r (Ne.symm hr) hmp hm

/-- **The lists of the scheduler's model are these queues**: `enqueue` on the nodes does what it
does on the list of the level. -/
theorem HoldsLevels.enqueue (hl : HoldsLevels h qs nodes s.level) (hnew : h new = none)
    (hroom : (s.level p).length < 2147483647) (t : Nat) :
    ∃ h' q', Queues.enqueue t new h (qs p) = some (h', q') ∧
      HoldsLevels h' (Function.update qs p q') (Function.update nodes p (nodes p ++ [new]))
        (Threads.enqueue t p s).level :=
  hl.push hnew hroom t

/-- `get_next` on the nodes returns what it returns on the list of the level. -/
theorem HoldsLevels.getNext (hl : HoldsLevels h qs nodes s.level)
    (hroom : (s.level p).length ≤ 2147483647) :
    ∃ x, Queues.getNext h (qs p) = some x ∧ x.ret = (Threads.getNext p s).1 ∧
      HoldsLevels x.heap (Function.update qs p x.queue)
        (Function.update nodes p (nodes p).tail) (Threads.getNext p s).2.level := by
  obtain ⟨x, hcall, hret, hafter⟩ := hl.pull hroom
  refine ⟨x, hcall, ?_, ?_⟩
  · rw [hret, Threads.getNext]
    cases s.level p <;> rfl
  · unfold Threads.getNext
    cases hlevel : s.level p with
    | nil =>
        rw [hlevel, List.tail_nil, ← hlevel, Function.update_eq_self] at hafter
        exact hafter
    | cons t rest =>
        rw [hlevel] at hafter
        exact hafter

end Levels

/-- A queue in use, with the threads given to `enqueue` and returned by `get_next`, and the
nodes returned by `malloc` and passed to `free`, oldest first. -/
structure Session where
  heap : Heap
  queue : Queue
  sent : List Nat
  got : List Nat
  made : List Nat
  freed : List Nat

inductive Call
  | enqueue (thread new : Nat)
  | getNext

/-- A call; `malloc` returns a node that is not allocated. -/
def Session.call (a : Session) : Call → Option Session
  | .enqueue t new => do
    if (a.heap new).isSome then none
    else
      let (h, q) ← enqueue t new a.heap a.queue
      return { a with heap := h, queue := q, sent := a.sent ++ [t], made := a.made ++ [new] }
  | .getNext => do
    let x ← getNext a.heap a.queue
    return { a with heap := x.heap, queue := x.queue, got := a.got ++ x.ret.toList,
                    freed := a.freed ++ x.freed }

/-- After `make_queue`. -/
def Session.IsNew (a : Session) : Prop :=
  ∃ q, makeQueue true = some q ∧ a = ⟨fun _ => none, q, [], [], [], []⟩

/-- Sessions reached by calls that satisfy `ok` when made. -/
def Called (ok : Session → Call → Prop) : Session → Prop :=
  Reach Session.IsNew fun a c b => ok a c ∧ a.call c = some b

/-- The queue holds fewer threads than its `size` can count. -/
def RoomFor (a : Session) : Call → Prop
  | .enqueue _ _ => a.sent.length < a.got.length + 2147483647
  | .getNext => True

/-- The nodes `nodes` hold the threads `waiting`, which are sent and not yet returned. -/
structure InOrder (a : Session) (nodes waiting : List Nat) : Prop where
  holds : Holds a.heap a.queue nodes waiting
  reached : ∀ n, (∃ z ∈ a.queue.back, Reaches (nextIn a.heap) z n) ↔ n ∈ nodes
  sent : a.sent = a.got ++ waiting
  made : a.made = a.freed ++ nodes
  allocated : ∀ n, a.heap n ≠ none ↔ n ∈ nodes
  enqueues : ∀ t new, a.heap new = none → ∃ b, a.call (.enqueue t new) = some b
  takes : ∃ b, a.call .getNext = some b ∧ b.got = a.got ++ waiting.head?.toList

/-- The queue is a first-in first-out list. -/
def Fifo (a : Session) : Prop := ∃ nodes waiting, InOrder a nodes waiting

section Sessions

variable {a b : Session} {nodes waiting : List Nat} {t new : Nat}

/-- What every call keeps. -/
structure Kept (a : Session) (nodes waiting : List Nat) : Prop where
  holds : Holds a.heap a.queue nodes waiting
  sent : a.sent = a.got ++ waiting
  made : a.made = a.freed ++ nodes
  allocated : ∀ n, a.heap n ≠ none ↔ n ∈ nodes
  room : waiting.length ≤ 2147483647

private theorem kept_new (h : a.IsNew) : Kept a [] [] := by
  obtain ⟨q, hq, rfl⟩ := h
  obtain ⟨q', hq', hholds⟩ := holds_makeQueue fun _ => none
  obtain rfl := Option.some.inj (hq.symm.trans hq')
  exact ⟨hholds, rfl, rfl, by simp, Nat.zero_le _⟩

private theorem call_enqueue {h' : Heap} {q' : Queue} (hnew : a.heap new = none)
    (hstep : enqueue t new a.heap a.queue = some (h', q')) :
    a.call (.enqueue t new) = some { a with
      heap := h', queue := q', sent := a.sent ++ [t], made := a.made ++ [new] } := by
  simp [Session.call, hnew, hstep]

private theorem call_getNext {x : Taken} (hstep : getNext a.heap a.queue = some x) :
    a.call .getNext = some { a with
      heap := x.heap, queue := x.queue, got := a.got ++ x.ret.toList,
      freed := a.freed ++ x.freed } := by
  simp [Session.call, hstep]

private theorem heap_of_call (hcall : a.call (.enqueue t new) = some b) : a.heap new = none := by
  by_contra hsome
  simp [Session.call, Option.isSome_iff_ne_none.mpr hsome] at hcall

/-- **`enqueue`** keeps the queue a list. -/
theorem Kept.enqueue (h : Kept a nodes waiting) (hok : RoomFor a (.enqueue t new))
    (hcall : a.call (.enqueue t new) = some b) : Kept b (nodes ++ [new]) (waiting ++ [t]) := by
  have hlt : a.sent.length < a.got.length + 2147483647 := hok
  rw [h.sent, List.length_append] at hlt
  have hnew := heap_of_call hcall
  obtain ⟨h', q', hstep, hq, hother⟩ :=
    enqueue_spec h.holds hnew (by rw [h.holds.length]; omega) t
  rw [call_enqueue hnew hstep] at hcall
  obtain rfl := Option.some.inj hcall
  constructor
  case holds => exact hq
  case sent =>
    dsimp only
    rw [h.sent, List.append_assoc]
  case made =>
    dsimp only
    rw [h.made, List.append_assoc]
  case allocated =>
    intro n
    dsimp only
    constructor
    · intro hn
      by_contra hnot
      have hnodes : n ∉ nodes := fun hmem => hnot (List.mem_append_left _ hmem)
      have hne : n ≠ new := fun heq => hnot (by simp [heq])
      rw [hother n hnodes hne] at hn
      exact hnodes ((h.allocated n).mp hn)
    · intro hn
      obtain ⟨x, hx⟩ := hq.allocated hn
      rw [hx]
      exact Option.some_ne_none x
  case room =>
    rw [List.length_append, List.length_singleton]
    omega

/-- `get_next` returns the thread that waits longest, or `NULL`. -/
theorem Kept.getNext (h : Kept a nodes waiting) : ∃ b, a.call .getNext = some b ∧
    b.got = a.got ++ waiting.head?.toList ∧ Kept b nodes.tail waiting.tail := by
  have hlength := h.holds.length
  have hroom := h.room
  cases nodes with
  | nil =>
      obtain rfl := List.eq_nil_of_length_eq_zero hlength.symm
      refine ⟨_, call_getNext (getNext_empty h.holds), rfl, h.holds, ?_, ?_, h.allocated, hroom⟩
      · simpa using h.sent
      · simpa using h.made
  | cons n nodes =>
      cases waiting with
      | nil => cases hlength
      | cons t waiting =>
          obtain ⟨h', q', hstep, hq, hfree, hother⟩ :=
            getNext_spec h.holds (by rw [hlength]; exact hroom)
          refine ⟨_, call_getNext hstep, rfl, hq, ?_, ?_, ?_, ?_⟩
          · simpa using h.sent
          · simpa using h.made
          · intro m
            dsimp only [List.tail_cons]
            constructor
            · intro hm
              by_contra hnot
              have hne : m ≠ n := by
                intro heq
                rw [heq] at hm
                exact hm hfree
              have hnodes : m ∉ n :: nodes := fun hmem =>
                (List.mem_cons.mp hmem).elim hne hnot
              rw [hother m hnodes] at hm
              exact hnodes ((h.allocated m).mp hm)
            · intro hm
              obtain ⟨x, hx⟩ := hq.allocated hm
              rw [hx]
              exact Option.some_ne_none x
          · rw [List.length_cons] at hroom
            dsimp only [List.tail_cons]
            omega

/-- `enqueue` returns, and counts the thread. -/
theorem Kept.enqueue_returns (h : Kept a nodes waiting) (hnew : a.heap new = none) (t : Nat) :
    ∃ b, a.call (.enqueue t new) = some b ∧ b.sent = a.sent ++ [t] ∧ b.got = a.got ∧
      b.queue.size = toInt (a.queue.size + 1) := by
  rcases List.eq_nil_or_concat nodes with rfl | ⟨front, z, rfl⟩
  · have hzero : a.queue.size = 0 := h.holds.size
    exact ⟨_, call_enqueue hnew (by simp [Queues.enqueue, hzero]; exact ⟨rfl, rfl⟩), rfl, rfl,
      by rw [hzero]; rfl⟩
  · have hholds := h.holds
    rw [List.concat_eq_append] at hholds
    obtain ⟨hback, hpos, ⟨last, hlast⟩, _⟩ := hholds.last
    exact ⟨_, call_enqueue hnew (by simp [Queues.enqueue, hpos, hback, hlast]; exact ⟨rfl, rfl⟩),
      rfl, rfl, rfl⟩

/-- What a run keeps. -/
theorem kept_of_called (h : Called RoomFor a) : ∃ nodes waiting, Kept a nodes waiting := by
  refine h.invariant (I := fun a => ∃ nodes waiting, Kept a nodes waiting) ?_ ?_
  · intro a ha
    exact ⟨[], [], kept_new ha⟩
  · intro a c b _ hkept hstep
    obtain ⟨nodes, waiting, hkept⟩ := hkept
    obtain ⟨hok, hcall⟩ := hstep
    cases c with
    | enqueue t new => exact ⟨_, _, hkept.enqueue hok hcall⟩
    | getNext =>
        obtain ⟨b', hcall', _, hkept'⟩ := hkept.getNext
        obtain rfl := Option.some.inj (hcall.symm.trans hcall')
        exact ⟨_, _, hkept'⟩

/-- The nodes reached from `back`. -/
theorem Holds.reached {h : Heap} {q : Queue} (hq : Holds h q nodes waiting) (n : Nat) :
    (∃ z ∈ q.back, Reaches (nextIn h) z n) ↔ n ∈ nodes := by
  rw [hq.back]
  constructor
  · intro hreach
    obtain ⟨z, hz, hzn⟩ := hreach
    exact (hq.ring.reaches_iff hz).mp hzn
  · intro hn
    have hne : nodes ≠ [] := List.ne_nil_of_mem hn
    have hz : nodes.getLast hne ∈ nodes.getLast? := List.getLast?_eq_getLast_of_ne_nil hne
    exact ⟨_, hz, (hq.ring.reaches_iff hz).mpr hn⟩

end Sessions

/-- **The queue is a FIFO list** as long as it never holds more than 2147483647 threads.  Its
nodes are one ring of `size` nodes, threads come out in the order in which they were put in, and
the nodes freed are the nodes made, without those in the ring. -/
theorem queue_is_fifo {a : Session} (h : Called RoomFor a) : Fifo a := by
  obtain ⟨nodes, waiting, hkept⟩ := kept_of_called h
  refine ⟨nodes, waiting, hkept.holds, hkept.holds.reached, hkept.sent, hkept.made,
    hkept.allocated, ?_, ?_⟩
  · intro t new hnew
    obtain ⟨b, hcall, _⟩ := hkept.enqueue_returns hnew t
    exact ⟨b, hcall⟩
  · obtain ⟨b, hcall, hgot, _⟩ := hkept.getNext
    exact ⟨b, hcall, hgot⟩

/-- After `make_queue`, with nothing else on the heap. -/
def newSession : Session := ⟨fun _ => none, ⟨none, 0⟩, [], [], [], []⟩

private theorem called_newSession {ok : Session → Call → Prop} : Called ok newSession :=
  Reach.start ⟨_, rfl, rfl⟩

instance (a : Session) : (c : Call) → Decidable (RoomFor a c)
  | .enqueue _ _ => inferInstanceAs (Decidable (_ < _))
  | .getNext => inferInstanceAs (Decidable True)

/-- A run of calls that have room. -/
def Session.callAll : List Call → Session → Option Session
  | [], a => some a
  | c :: rest, a => if RoomFor a c then (a.call c).bind (callAll rest) else none

private theorem Called.callAll {a b : Session} {calls : List Call} (ha : Called RoomFor a)
    (hrun : Session.callAll calls a = some b) : Called RoomFor b := by
  induction calls generalizing a with
  | nil => exact Option.some.inj hrun ▸ ha
  | cons c rest ih =>
      unfold Session.callAll at hrun
      split at hrun
      · next hok =>
          obtain ⟨a', hcall, hrest⟩ := Option.bind_eq_some_iff.mp hrun
          exact ih (ha.next ⟨hok, hcall⟩) hrest
      · cases hrun

/-- Three threads, where the node of the first is used again for the third. -/
theorem queue_is_fifo_reused :
    ∃ a : Session, a.made = [10, 11, 10] ∧ a.freed = [10] ∧ a.got = [5] ∧ Fifo a := by
  have hsome : (newSession.callAll [.enqueue 5 10, .enqueue 6 11, .getNext, .enqueue 7 10]).map
      (fun a => (a.made, a.freed, a.got)) = some ([10, 11, 10], [10], [5]) := by decide +kernel
  obtain ⟨a, hrun, hsees⟩ := Option.map_eq_some_iff.mp hsome
  simp only [Prod.mk.injEq] at hsees
  obtain ⟨hmade, hfreed, hgot⟩ := hsees
  exact ⟨a, hmade, hfreed, hgot, queue_is_fifo (called_newSession.callAll hrun)⟩

/-- A queue that threads were only put into. -/
theorem exists_filled {k : Nat} (hk : k ≤ 2147483647) :
    ∃ a, Called RoomFor a ∧ a.sent.length = k ∧ a.got = [] := by
  induction k with
  | zero => exact ⟨newSession, called_newSession, rfl, rfl⟩
  | succ k ih =>
      obtain ⟨a, ha, hsent, hgot⟩ := ih (by omega)
      obtain ⟨nodes, waiting, hkept⟩ := kept_of_called ha
      obtain ⟨new, hnew⟩ := Infinite.exists_notMem_finset nodes.toFinset
      rw [List.mem_toFinset, ← hkept.allocated, not_not] at hnew
      obtain ⟨b, hcall, hsent', hgot', _⟩ := hkept.enqueue_returns hnew 0
      have hok : RoomFor a (.enqueue 0 new) := by
        have hlt : a.sent.length < a.got.length + 2147483647 := by omega
        exact hlt
      refine ⟨b, ha.next ⟨hok, hcall⟩, ?_, hgot'.trans hgot⟩
      rw [hsent', List.length_append, hsent]
      rfl

/-- The thread after the 2147483647th turns `size` negative. -/
theorem size_overflows : ¬ ∀ a, Called (fun _ _ => True) a → Fifo a := by
  intro hclaim
  obtain ⟨a, ha, hsent, hgot⟩ := exists_filled (k := 2147483647) le_rfl
  obtain ⟨nodes, waiting, hkept⟩ := kept_of_called ha
  obtain ⟨new, hnew⟩ := Infinite.exists_notMem_finset nodes.toFinset
  rw [List.mem_toFinset, ← hkept.allocated, not_not] at hnew
  obtain ⟨b, hcall, _, _, hsize⟩ := hkept.enqueue_returns hnew 0
  have hb : Called (fun _ _ => True) b :=
    (ha.mono fun _ _ _ h => ⟨trivial, h.2⟩).next ⟨trivial, hcall⟩
  obtain ⟨nodes', waiting', hfifo⟩ := hclaim b hb
  have hfull : a.queue.size = 2147483647 := by
    have hlen := congrArg List.length hkept.sent
    rw [hsent, hgot, List.nil_append] at hlen
    rw [hkept.holds.size, hkept.holds.length, ← hlen]
    rfl
  rw [hfull] at hsize
  have hneg : toInt (2147483647 + 1) = -2147483648 := by decide
  have hcount := hfifo.holds.size
  rw [hsize, hneg] at hcount
  omega

end Queues
