import CS416.Paging.Faults
import CS416.Threads.Queue

/-!
# Queue nodes in memory

Where no access meets a locked frame, `enqueue` and `get_next` do to the bytes
of the nodes what they do to nodes that are kept apart from everything else.
So a queue whose nodes do not overlap, and do not overlap the next node either,
is the first-in first-out list that it is meant to be.
-/

namespace Paging

open CInt Queues

/-- A pointer, `NULL` being 0. -/
def ptr (a : Nat) : Option Nat := if a = 0 then none else some a

/-- The queue with its pointer. -/
def toQueue (q : Queue) : Queues.Queue := ⟨ptr q.back, q.size⟩

/-- The nodes `h` lie in memory, and no two of them overlap. -/
structure Shows (m : Machine) (h : Heap) : Prop where
  thread : ∀ n x, h n = some x → wordAt m n = some x.thread
  next : ∀ n x, h n = some x → ∃ w, wordAt m (n + 8) = some w ∧ x.next = ptr w
  apart : ∀ n k x y, h n = some x → h k = some y → n ≠ k → n + 16 ≤ k ∨ k + 16 ≤ n
  bound : ∀ n x, h n = some x → n < 2 ^ 64

/-- What the pointer `next` of a node says. -/
def nextOf (m : Machine) (n : Nat) : Nat := (wordAt m (n + 8)).getD 0

/-- The nodes from a pointer on. -/
def nodesFrom (m : Machine) : Nat → Nat → List Nat
  | 0, _ => []
  | k + 1, n => n :: nodesFrom m k (nextOf m n)

/-- The threads of a queue as its nodes lie in memory, front first. -/
def threadsOf (m : Machine) (p : Int) : List Nat :=
  (nodesFrom m (m.queue p).size.toNat (nextOf m (m.queue p).back)).map fun n =>
    (wordAt m n).getD 0

section Listing

variable {m m' : Machine} {h : Heap} {nodes threads : List Nat} {a n : Nat} {p : Int}

private theorem ptr_eq {w b : Nat} (hw : some b = ptr w) : w = b := by
  unfold ptr at hw
  split at hw
  · cases hw
  · exact (Option.some.inj hw).symm

/-- The link of a node is read off memory. -/
theorem Shows.nextOf_eq (hs : Shows m h) {b : Nat} (hn : nextIn h n = some b) :
    nextOf m n = b := by
  obtain ⟨x, hx, hb⟩ := Option.bind_eq_some_iff.mp hn
  obtain ⟨w, hw, hptr⟩ := hs.next n x hx
  rw [nextOf, hw, Option.getD_some]
  exact ptr_eq (hb.symm.trans hptr)

/-- A chain of nodes is read off memory. -/
theorem Shows.nodesFrom_chain (hs : Shows m h) {l : List Nat}
    (hl : (a :: l).IsChain fun a b => nextIn h a = some b) :
    nodesFrom m (l.length + 1) a = a :: l := by
  induction l generalizing a with
  | nil => rfl
  | cons b l ih =>
      obtain ⟨hab, hrest⟩ := List.isChain_cons_cons.mp hl
      rw [List.length_cons, nodesFrom, hs.nextOf_eq hab, ih hrest]

/-- **The threads of a queue** are read off its nodes. -/
theorem Shows.threadsOf_eq (hs : Shows m h)
    (hq : Holds h (toQueue (m.queue p)) nodes threads) : threadsOf m p = threads := by
  have hsize : (m.queue p).size = nodes.length := hq.size
  have hwords : ∀ n ∈ nodes, some ((wordAt m n).getD 0) = (h n).map Node.thread := by
    intro n hn
    obtain ⟨x, hx⟩ := hq.allocated hn
    rw [hs.thread n x hx, hx]
    rfl
  have hlist : nodes.map (fun n => (wordAt m n).getD 0) = threads := by
    apply List.map_injective_iff.mpr (Option.some_injective Nat)
    rw [← hq.threads, List.map_map]
    exact List.map_congr_left hwords
  unfold threadsOf
  rw [hsize, Int.toNat_natCast]
  cases nodes with
  | nil => exact hlist
  | cons a l =>
      have hlast : ∃ z, (a :: l).getLast? = some z := by
        rw [← Option.isSome_iff_exists]
        simp
      obtain ⟨z, hz⟩ := hlast
      have hback : some z = ptr (m.queue p).back := hz.symm.trans hq.back.symm
      rw [ptr_eq hback, hs.nextOf_eq (hq.ring.next_last hz), List.length_cons,
        hs.nodesFrom_chain hq.ring.chain]
      exact hlist

private theorem wordAt_congr (hmem : m'.pages.memory = m.pages.memory)
    (hframes : m'.frames = m.frames)
    (houtside : m'.outside = m.outside) (b : Nat) : wordAt m' b = wordAt m b := by
  have hbyte : ∀ c, byteAt m' c = byteAt m c := by
    intro c
    have hin : InMemory m'.pages c ↔ InMemory m.pages c := by
      rw [InMemory, InMemory, hmem]
    unfold byteAt
    by_cases hc : InMemory m.pages c
    · rw [if_pos (hin.mpr hc), if_pos hc, frameAt, frameAt, hmem, hframes]
    · rw [if_neg (fun hc' => hc (hin.mp hc')), if_neg hc, houtside]
  unfold wordAt
  simp only [hbyte]

/-- The nodes depend on the words of memory only. -/
theorem Shows.congr (hs : Shows m h) (hwords : ∀ b, wordAt m' b = wordAt m b) : Shows m' h := by
  refine ⟨?_, ?_, hs.apart, hs.bound⟩
  · intro n x hx
    rw [hwords]
    exact hs.thread n x hx
  · intro n x hx
    rw [hwords]
    exact hs.next n x hx

private theorem threadsOf_congr (hwords : ∀ b, wordAt m' b = wordAt m b)
    (hqueue : m'.queue = m.queue)
    (p : Int) : threadsOf m' p = threadsOf m p := by
  have hnext : ∀ n, nextOf m' n = nextOf m n := fun n => by rw [nextOf, nextOf, hwords]
  have hnodes : ∀ k n, nodesFrom m' k n = nodesFrom m k n := by
    intro k
    induction k with
    | zero => exact fun _ => rfl
    | succ k ih => exact fun n => by rw [nodesFrom, nodesFrom, hnext, ih]
  unfold threadsOf
  rw [hqueue, hnext, hnodes]
  simp only [hwords]

/-- The threads of the queues depend on the memory and the queues alone. -/
theorem threadsOf_same (hmem : m'.pages.memory = m.pages.memory) (hframes : m'.frames = m.frames)
    (houtside : m'.outside = m.outside) (hqueue : m'.queue = m.queue) :
    threadsOf m' = threadsOf m :=
  funext (threadsOf_congr (wordAt_congr hmem hframes houtside) hqueue)

end Listing

section Stores

variable {m m' u : Machine} {h h' : Heap} {x : Node} {n t new w : Nat} {p : Int}

/-- `NULL` is no node. -/
theorem Shows.ne_zero (hs : Shows m h) (hn : h n = some x) : n ≠ 0 := by
  intro hzero
  subst hzero
  have hword := hs.thread 0 x hn
  exact wordAt_null m (by rw [hword]; rfl)

/-- A node less. -/
theorem Shows.remove (hs : Shows m h) (n : Nat) : Shows m (Function.update h n none) := by
  have hold : ∀ k y, Function.update h n none k = some y → h k = some y := by
    intro k y hk
    by_cases hkn : k = n
    · subst hkn
      rw [Function.update_self] at hk
      cases hk
    · rwa [Function.update_of_ne hkn] at hk
  exact ⟨fun k y hk => hs.thread k y (hold k y hk), fun k y hk => hs.next k y (hold k y hk),
    fun k l y z hk hl => hs.apart k l y z (hold k y hk) (hold l z hl),
    fun k y hk => hs.bound k y (hold k y hk)⟩

/-- **The pointer `next` of a node is set.** -/
theorem Shows.link (hs : Shows m h) (hn : h n = some x) (hw : w < 2 ^ 64) :
    Shows (putWord (n + 8) w m) (Function.update h n (some { x with next := ptr w })) := by
  have hother : ∀ k y, k ≠ n → Function.update h n (some { x with next := ptr w }) k = some y →
      h k = some y ∧ (n + 16 ≤ k ∨ k + 16 ≤ n) := by
    intro k y hkn hk
    rw [Function.update_of_ne hkn] at hk
    exact ⟨hk, hs.apart n k x y hn hk (Ne.symm hkn)⟩
  constructor
  case thread =>
    intro k y hk
    by_cases hkn : k = n
    · subst hkn
      rw [Function.update_self] at hk
      obtain rfl := Option.some.inj hk
      rw [wordAt_putWord_of_apart (by omega)]
      exact hs.thread k x hn
    · obtain ⟨hk, hap⟩ := hother k y hkn hk
      rw [wordAt_putWord_of_apart (by omega)]
      exact hs.thread k y hk
  case next =>
    intro k y hk
    by_cases hkn : k = n
    · subst hkn
      rw [Function.update_self] at hk
      obtain rfl := Option.some.inj hk
      obtain ⟨v, hv, _⟩ := hs.next k x hn
      refine ⟨w, ?_, rfl⟩
      rw [wordAt_putWord_self (by rw [hv]; rfl), Nat.mod_eq_of_lt hw]
    · obtain ⟨hk, hap⟩ := hother k y hkn hk
      rw [wordAt_putWord_of_apart (by omega)]
      exact hs.next k y hk
  case apart =>
    intro k l y z hk hl hkl
    by_cases hkn : k = n
    · subst hkn
      exact (hother l z (Ne.symm hkl) hl).2
    · by_cases hln : l = n
      · subst hln
        exact (hother k y hkn hk).2.symm
      · exact hs.apart k l y z (hother k y hkn hk).1 (hother l z hln hl).1 hkl
  case bound =>
    intro k y hk
    by_cases hkn : k = n
    · subst hkn
      exact hs.bound k x hn
    · exact hs.bound k y (hother k y hkn hk).1

/-- **A new node** away from the others. -/
theorem Shows.add (hs : Shows u h) (hthread : (wordAt u new).isSome) (hnew : new < 2 ^ 64)
    (hnext : (wordAt (putWord new t u) (new + 8)).isSome) (ht : t < 2 ^ 64) (hw : w < 2 ^ 64)
    (hfree : ∀ k y, h k = some y → k + 16 ≤ new ∨ new + 16 ≤ k) :
    Shows (putWord (new + 8) w (putWord new t u))
      (Function.update h new (some ⟨t, ptr w⟩)) := by
  have hother : ∀ k y, k ≠ new → Function.update h new (some ⟨t, ptr w⟩) k = some y →
      h k = some y ∧ (k + 16 ≤ new ∨ new + 16 ≤ k) := by
    intro k y hkn hk
    rw [Function.update_of_ne hkn] at hk
    exact ⟨hk, hfree k y hk⟩
  constructor
  case thread =>
    intro k y hk
    by_cases hkn : k = new
    · subst hkn
      rw [Function.update_self] at hk
      obtain rfl := Option.some.inj hk
      rw [wordAt_putWord_of_apart (by omega), wordAt_putWord_self hthread, Nat.mod_eq_of_lt ht]
    · obtain ⟨hk, hap⟩ := hother k y hkn hk
      rw [wordAt_putWord_of_apart (by omega), wordAt_putWord_of_apart (by omega)]
      exact hs.thread k y hk
  case next =>
    intro k y hk
    by_cases hkn : k = new
    · subst hkn
      rw [Function.update_self] at hk
      obtain rfl := Option.some.inj hk
      exact ⟨w, by rw [wordAt_putWord_self hnext, Nat.mod_eq_of_lt hw], rfl⟩
    · obtain ⟨hk, hap⟩ := hother k y hkn hk
      rw [wordAt_putWord_of_apart (by omega), wordAt_putWord_of_apart (by omega)]
      exact hs.next k y hk
  case apart =>
    intro k l y z hk hl hkl
    by_cases hkn : k = new
    · subst hkn
      exact (hother l z (Ne.symm hkl) hl).2.symm
    · by_cases hln : l = new
      · subst hln
        exact (hother k y hkn hk).2
      · exact hs.apart k l y z (hother k y hkn hk).1 (hother l z hln hl).1 hkl
  case bound =>
    intro k y hk
    by_cases hkn : k = new
    · subst hkn
      exact hnew
    · exact hs.bound k y (hother k y hkn hk).1

end Stores

section Operations

variable {m m' : Machine} {h h' : Heap} {q' : Queues.Queue} {nodes threads : List Nat}
  {t new : Nat} {p : Int}

private theorem ptr_of_ne {a : Nat} (h : a ≠ 0) : ptr a = some a := if_neg h

/-- **`enqueue` does to the nodes in memory what it does to nodes kept apart.** -/
theorem Shows.enqueue (hs : Shows m h) (hm : Held m.pages) (he : Enqueued t p new m m')
    (hfree : ∀ k y, h k = some y → k + 16 ≤ new ∨ new + 16 ≤ k) (ht : t < 2 ^ 64)
    (hnew : new < 2 ^ 64) (hq : Holds h (toQueue (m.queue p)) nodes threads)
    (hcall : Queues.enqueue t new h (toQueue (m.queue p)) = some (h', q')) :
    Shows m' h' ∧ toQueue (m'.queue p) = q' ∧ ∀ r, r ≠ p → m'.queue r = m.queue r := by
  obtain ⟨u, v, hmalloc, _, hthread, hlinks, rfl⟩ := he.call
  obtain ⟨s, hcall', rfl⟩ := malloc_rest hmalloc
  have hwords : ∀ b, wordAt { m with pages := s } b = wordAt m b :=
    wordAt_congr (grown_malloc hm hcall').1.memory rfl rfl
  have hs' : Shows { m with pages := s } h := hs.congr hwords
  have hptr : ptr new = some new := by
    apply ptr_of_ne
    intro hzero
    rw [hzero] at hthread
    exact wordAt_null _ hthread
  have hqueue : v.queue = m.queue := by
    by_cases hsize : (m.queue p).size = 0
    · rw [hlinks.first hsize]
      rfl
    · obtain ⟨next, _, hv⟩ := hlinks.later hsize
      rw [hv]
      rfl
  have hafter : toQueue ((setQueue p ⟨new, toInt ((m.queue p).size + 1)⟩ v).queue p) =
      ⟨some new, toInt ((m.queue p).size + 1)⟩ := by
    simp only [setQueue, Function.update_self, toQueue, hptr]
  have hothers : ∀ r, r ≠ p →
      (setQueue p ⟨new, toInt ((m.queue p).size + 1)⟩ v).queue r = m.queue r := by
    intro r hr
    simp only [setQueue, Function.update_of_ne hr, hqueue]
  rw [hafter]
  rcases List.eq_nil_or_concat nodes with rfl | ⟨front, z, rfl⟩
  · have hzero : (m.queue p).size = 0 := hq.size
    have hadd := hs'.add hthread hnew hlinks.mapped ht hnew hfree
    rw [← hlinks.first hzero, hptr] at hadd
    simp only [Queues.enqueue, toQueue, hzero, ne_eq, not_true_eq_false, if_false] at hcall
    obtain ⟨rfl, rfl⟩ := Prod.mk.inj (Option.some.inj hcall)
    refine ⟨hadd.congr fun _ => rfl, by rw [hzero], hothers⟩
  · rw [List.concat_eq_append] at hq
    obtain ⟨hback, hpos, ⟨last, hlast⟩, _⟩ := hq.last
    have hz : (m.queue p).back = z := ptr_eq hback.symm
    have hpos' : (m.queue p).size ≠ 0 := hpos
    obtain ⟨next, hnext, hv⟩ := hlinks.later hpos'
    have hne : z ≠ new := by
      intro heq
      have hap := hfree z last hlast
      omega
    -- the link that is read is that of the old last node
    have hap := hfree z last hlast
    rw [hz, wordAt_putWord_of_apart (by omega), hwords] at hnext
    obtain ⟨w, hw, hlink⟩ := hs.next z last hlast
    obtain rfl := Option.some.inj (hnext.symm.trans hw)
    have hadd := hs'.add hthread hnew hlinks.mapped ht (wordAt_lt hnext) hfree
    have hold : Function.update h new (some ⟨t, ptr next⟩) z = some last := by
      rw [Function.update_of_ne hne]
      exact hlast
    have hshows := hadd.link hold hnew
    rw [← hz, ← hv, hptr, hz, ← hlink] at hshows
    have hbackq : (toQueue (m.queue p)).back = some z := hback
    simp only [Queues.enqueue, ne_eq, hpos, not_false_eq_true, if_true, hbackq, hlast,
      Option.bind_eq_bind, Option.bind_some] at hcall
    obtain ⟨rfl, rfl⟩ := Prod.mk.inj (Option.some.inj hcall)
    exact ⟨hshows.congr fun _ => rfl, rfl, hothers⟩

/-- **`get_next` does to the nodes in memory what it does to nodes kept apart.** -/
theorem Shows.getNext (hs : Shows m h) (htook : Took p m t m') {x : Taken}
    (hcall : Queues.getNext h (toQueue (m.queue p)) = some x) :
    Shows m' x.heap ∧ (x.ret = none ∧ t = 0 ∨ x.ret = some t) ∧
      toQueue (m'.queue p) = x.queue ∧ ∀ r, r ≠ p → m'.queue r = m.queue r := by
  cases htook with
  | empty hsize =>
      have hzero : (toQueue (m.queue p)).size = 0 := hsize
      simp only [Queues.getNext, hzero, if_true] at hcall
      obtain rfl := Option.some.inj hcall
      exact ⟨hs, Or.inl ⟨rfl, rfl⟩, rfl, fun _ _ => rfl⟩
  | last hsize hret =>
      have hone : (toQueue (m.queue p)).size = 1 := hsize
      unfold Queues.getNext at hcall
      rw [if_neg (by rw [hone]; decide)] at hcall
      obtain ⟨back, hback, hcall⟩ := Option.bind_eq_some_iff.mp hcall
      obtain ⟨last, hlast, hcall⟩ := Option.bind_eq_some_iff.mp hcall
      rw [if_pos hone] at hcall
      obtain rfl := Option.some.inj hcall
      have hz : (m.queue p).back = back := ptr_eq hback.symm
      rw [hz] at hret
      obtain rfl := Option.some.inj (hret.symm.trans (hs.thread back last hlast))
      refine ⟨(hs.remove back).congr fun _ => rfl, Or.inr rfl, ?_, fun r hr => ?_⟩
      · simp only [setQueue, Function.update_self, toQueue]
        rfl
      · simp only [setQueue, Function.update_of_ne hr]
  | @first _ next second hsize hnext hret hsecond =>
      unfold Queues.getNext at hcall
      have hpos : (toQueue (m.queue p)).size ≠ 0 := hsize.1
      have hmore : (toQueue (m.queue p)).size ≠ 1 := hsize.2
      rw [if_neg hpos] at hcall
      obtain ⟨back, hback, hcall⟩ := Option.bind_eq_some_iff.mp hcall
      obtain ⟨last, hlast, hcall⟩ := Option.bind_eq_some_iff.mp hcall
      rw [if_neg hmore] at hcall
      obtain ⟨temp, htemp, hcall⟩ := Option.bind_eq_some_iff.mp hcall
      obtain ⟨first, hfirst, hcall⟩ := Option.bind_eq_some_iff.mp hcall
      obtain rfl := Option.some.inj hcall
      have hz : (m.queue p).back = back := ptr_eq hback.symm
      rw [hz] at hnext
      obtain ⟨w, hw, hlink⟩ := hs.next back last hlast
      obtain rfl := Option.some.inj (hnext.symm.trans hw)
      obtain rfl := ptr_eq (htemp.symm.trans hlink)
      obtain rfl := Option.some.inj (hret.symm.trans (hs.thread next first hfirst))
      have hnew : second < 2 ^ 64 ∧
          ptr second = if (toQueue (m.queue p)).size = 2 then some back else first.next := by
        have htwo : (toQueue (m.queue p)).size = (m.queue p).size := rfl
        rw [htwo]
        split at hsecond
        case isTrue heq =>
          rw [if_pos heq, hsecond, hz]
          exact ⟨hs.bound back last hlast, ptr_of_ne (hs.ne_zero hlast)⟩
        case isFalse heq =>
          rw [if_neg heq]
          obtain ⟨w, hw, hlink⟩ := hs.next next first hfirst
          obtain rfl := Option.some.inj (hsecond.symm.trans hw)
          exact ⟨wordAt_lt hsecond, hlink.symm⟩
      have hshows := (hs.link hlast hnew.1).remove next
      rw [hnew.2] at hshows
      refine ⟨?_, Or.inr rfl, ?_, fun r hr => ?_⟩
      · rw [hz]
        exact hshows.congr fun _ => rfl
      · simp only [setQueue, Function.update_self, toQueue, hz, ptr_of_ne (hs.ne_zero hlast)]
      · simp only [setQueue, Function.update_of_ne hr]
        rfl

end Operations

section Counters

/-- The queue operations leave the counters alone. -/
theorem keeps_counters : Keeps undisturbed fun m m' =>
    m'.currentPriority = m.currentPriority ∧ m'.runAtPriority = m.runAtPriority := by
  constructor
  case refl => exact fun _ => ⟨rfl, rfl⟩
  case trans => exact fun h h' => ⟨h'.1.trans h.1, h'.2.trans h.2⟩
  case reach =>
    intro a m m' h
    obtain ⟨rfl, _⟩ := reach_undisturbed h
    exact ⟨rfl, rfl⟩
  case free =>
    intro a m m' h
    obtain ⟨rfl, _⟩ := free_undisturbed h
    exact ⟨rfl, rfl⟩
  case malloc =>
    intro size r m m' h
    obtain ⟨s, _, rfl⟩ := malloc_rest h
    exact ⟨rfl, rfl⟩
  case put => exact fun _ _ _ => ⟨rfl, rfl⟩
  case queue => exact fun _ _ _ => ⟨rfl, rfl⟩

end Counters

section Levels

variable {m m' u : Machine} {h : Heap} {nodes : Int → List Nat} {t new : Nat} {p : Int}

/-- The queues of all levels, with their nodes in memory. -/
structure Levels (m : Machine) (h : Heap) (nodes : Int → List Nat) : Prop where
  shows : Shows m h
  queues : HoldsLevels h (fun p => toQueue (m.queue p)) nodes (threadsOf m)

/-- One queue has changed, and its threads are known. -/
theorem threadsOf_update {h' : Heap} {q' : Queues.Queue} {list : Int → List Nat}
    {threads : Int → List Nat} (hs : Shows m' h') (hq : toQueue (m'.queue p) = q')
    (hothers : ∀ r, r ≠ p → m'.queue r = m.queue r)
    (hl : HoldsLevels h' (Function.update (fun p => toQueue (m.queue p)) p q') list threads) :
    Levels m' h' list ∧ threadsOf m' = threads := by
  have hqueues : (fun r => toQueue (m'.queue r)) =
      Function.update (fun p => toQueue (m.queue p)) p q' := by
    funext r
    by_cases hr : r = p
    · subst hr
      rw [Function.update_self]
      exact hq
    · rw [Function.update_of_ne hr, hothers r hr]
  rw [← hqueues] at hl
  have hthreads : threadsOf m' = threads := funext fun r => hs.threadsOf_eq (hl.holds r)
  refine ⟨⟨hs, ?_⟩, hthreads⟩
  rw [hthreads]
  exact hl

/-- **A thread is put behind the queue of its level.** -/
theorem Levels.enqueue (hl : Levels m h nodes) (hm : Held m.pages) (he : Enqueued t p new m m')
    (hfree : ∀ k y, h k = some y → k + 16 ≤ new ∨ new + 16 ≤ k) (ht : t < 2 ^ 64)
    (hnew : new < 2 ^ 64) (hroom : (threadsOf m p).length < 2147483647) :
    ∃ h' nodes', Levels m' h' nodes' ∧
      threadsOf m' = Function.update (threadsOf m) p (threadsOf m p ++ [t]) := by
  have hnone : h new = none := by
    cases hn : h new with
    | none => rfl
    | some y =>
        have hap := hfree new y hn
        omega
  obtain ⟨h', q', hcall, hlevels⟩ := hl.queues.push hnone hroom t
  obtain ⟨hs, hq, hothers⟩ :=
    hl.shows.enqueue hm he hfree ht hnew (hl.queues.holds p) hcall
  exact ⟨h', _, threadsOf_update hs hq hothers hlevels⟩

/-- **The first thread of a level is taken.** -/
theorem Levels.getNext (hl : Levels m h nodes) (htook : Took p m t m') (ht : t ≠ 0)
    (hroom : (threadsOf m p).length ≤ 2147483647) :
    threadsOf m p = t :: threadsOf m' p ∧ ∀ r, r ≠ p → threadsOf m' r = threadsOf m r := by
  obtain ⟨x, hcall, hret, hlevels⟩ := hl.queues.pull hroom
  obtain ⟨hs, hthread, hq, hothers⟩ := hl.shows.getNext htook hcall
  obtain ⟨_, hthreads⟩ := threadsOf_update hs hq hothers hlevels
  rw [hthreads]
  have hhead : (threadsOf m p).head? = some t := by
    rw [← hret]
    exact hthread.resolve_left fun hnull => ht hnull.2
  constructor
  · rw [Function.update_self]
    exact (List.cons_head?_tail hhead).symm
  · intro r hr
    exact Function.update_of_ne hr _ _

/-- The address of the node that the running thread would put into a queue next. -/
def nodeAddress (m : Machine) : Nat :=
  m.pages.memory + (pagesOf m.pages m.running).length * pageSize + 1

/-- The condition on a call of the scheduler: the queues lie in memory as rings of nodes that do
not overlap, nor overlap the next node, and no access of the call meets a locked frame. -/
structure QueuesOk (m : Machine) : Prop where
  lists : Held m.pages
  levels : ∃ h nodes, Levels m h nodes ∧
    ∀ k y, h k = some y → k + 16 ≤ nodeAddress m ∨ nodeAddress m + 16 ≤ k
  short : ∀ p, (threadsOf m p).length < 2147483647
  address : m.pages.memory + numPages * pageSize ≤ 2 ^ 64
  threads : m.running < 2 ^ 64 ∧ ∀ i w, m.waiting i = some w → w < 2 ^ 64
  quiet : ∃ m', alarmHandler undisturbed m = some m'

/-- The `switch` adds at most one thread, behind a queue. -/
theorem QueuesOk.switch {resume : Bool} (hm : QueuesOk m)
    (h : switchStatus undisturbed m = some (u, resume)) :
    (∃ h nodes, Levels u h nodes) ∧ (∀ p, threadsOf m p <+: threadsOf u p) ∧
      (∀ p, (threadsOf u p).length ≤ 2147483647) ∧
      u.currentPriority = m.currentPriority ∧ u.runAtPriority = m.runAtPriority := by
  obtain ⟨heap, nodes, hlevels, hfree⟩ := hm.levels
  have hsched : ∀ f, (∀ r, threadsOf { m with sched := f } r = threadsOf m r) ∧
      Levels { m with sched := f } heap nodes := by
    intro f
    have hsame : ∀ r, threadsOf { m with sched := f } r = threadsOf m r :=
      threadsOf_congr (fun _ => rfl) rfl
    refine ⟨hsame, hlevels.shows.congr fun _ => rfl, ?_⟩
    rw [funext hsame]
    exact hlevels.queues
  obtain ⟨f, rfl | ⟨v, q, hv, hput⟩⟩ := switchStatus_cases h
  · obtain ⟨hsame, hafter⟩ := hsched f
    refine ⟨⟨heap, nodes, hafter⟩, ?_, ?_, rfl, rfl⟩
    · intro p
      rw [hsame]
    · intro p
      rw [hsame]
      exact (hm.short p).le
  · obtain ⟨hsame, hbefore⟩ := hsched f
    obtain ⟨new, hnew⟩ := enqueue_undisturbed hput
    obtain ⟨haddress, hlt, _⟩ := hnew.new_node hm.lists
    have hthread : v < 2 ^ 64 := by
      rcases hv with rfl | ⟨i, hi⟩
      · exact hm.threads.1
      · exact hm.threads.2 i v hi
    have hplace : new = nodeAddress m := haddress
    have hbound : new < 2 ^ 64 := by
      have hfits := hm.address
      have hroom : (pagesOf m.pages m.running).length < numPages := hlt
      rw [hplace, nodeAddress]
      simp only [numPages, pageSize] at hfits hroom ⊢
      omega
    obtain ⟨heap', nodes', hafter, hthreads⟩ := hbefore.enqueue hm.lists hnew
      (by rw [hplace]; exact hfree) hthread hbound (by rw [hsame]; exact hm.short q)
    have hcounters := keeps_counters.enqueue hput
    refine ⟨⟨heap', nodes', hafter⟩, ?_, ?_, hcounters.1, hcounters.2⟩
    · intro p
      rw [hthreads]
      by_cases hp : p = q
      · subst hp
        rw [Function.update_self, hsame]
        exact List.prefix_append _ _
      · rw [Function.update_of_ne hp, hsame]
    · intro p
      rw [hthreads]
      by_cases hp : p = q
      · subst hp
        rw [Function.update_self, hsame, List.length_append, List.length_singleton]
        exact hm.short p
      · rw [Function.update_of_ne hp, hsame]
        exact (hm.short p).le

end Levels

end Paging
