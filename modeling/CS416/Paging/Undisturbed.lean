import CS416.Paging.Scheduler

/-!
# Calls that meet no locked frame

Where no access of a queue operation meets a locked frame, memory is what it
would be without protections: a pointer is read where it lies, and a store
changes its eight bytes.  What the scheduler does then is a few stores, to the
node of the thread that it puts back and to the last nodes of two queues.
-/

namespace Paging

open CInt

/-- The frames of a pointer can be accessed. -/
def Open (m : Machine) (a : Nat) : Prop := ∀ k ∈ touched m.pages a, m.locked k = false

section Library

variable {m m' : Machine} {a : Nat}

/-- A pointer that is reached without a fault. -/
theorem reach_undisturbed (h : undisturbed.reach a m = some m') : m' = m ∧ Open m a := by
  simp only [undisturbed] at h
  split at h
  case isTrue hopen => exact ⟨(Option.some.inj h).symm, hopen⟩
  case isFalse => cases h

/-- An address that `page_free` does not find. -/
theorem free_undisturbed (h : undisturbed.free a m = some m') :
    m' = m ∧ m.running ≠ 0 ∧ SetsEinval m.running a m.pages := by
  simp only [undisturbed] at h
  split at h
  case isTrue hfree => exact ⟨(Option.some.inj h).symm, hfree⟩
  case isFalse => cases h

end Library

section Below

variable {α β : Type} {x y : Option α} {L L' : Library} {m m' : Machine} {t : Nat} {p : Int}

/-- What `x` returns, `y` returns. -/
def Below (x y : Option α) : Prop := ∀ v, x = some v → y = some v

theorem Below.refl (x : Option α) : Below x x := fun _ h => h

theorem Below.none (y : Option α) : Below none y := fun _ h => by cases h

/-- A partial call that returns less, followed by one that returns less. -/
theorem Below.bind {f g : α → Option β} (h : Below x y) (hf : ∀ v, Below (f v) (g v)) :
    Below (x.bind f) (y.bind g) := by
  intro w hw
  obtain ⟨v, hx, hv⟩ := Option.bind_eq_some_iff.mp hw
  exact Option.bind_eq_some_iff.mpr ⟨v, h v hx, hf v w hv⟩

private theorem Below.ite {c : Prop} [Decidable c] {x' y' : Option α} (h : Below x y)
    (h' : Below x' y') : Below (if c then x else x') (if c then y else y') := by
  split
  · exact h
  · exact h'

/-- One library does what another does, where it does anything. -/
structure Library.Below (L L' : Library) : Prop where
  reach : ∀ a m, Paging.Below (L.reach a m) (L'.reach a m)
  free : ∀ a m, Paging.Below (L.free a m) (L'.free a m)

/-- Accesses that meet no locked frame go straight through, and `page_free` returns where it
does not find the address. -/
theorem undisturbed_below : undisturbed.Below paged := by
  constructor
  case reach =>
    intro a m v h
    obtain ⟨rfl, hopen⟩ := reach_undisturbed h
    exact settle_open hopen 2
  case free =>
    intro a m v h
    obtain ⟨rfl, hrun, hnone⟩ := free_undisturbed h
    simp only [paged, if_neg hrun, pageFree_einval hnone, Option.map_some]

theorem Library.Below.load (hL : L.Below L') (a : Nat) (m : Machine) :
    Paging.Below (load L a m) (load L' a m) :=
  (hL.reach a m).bind fun _ => .refl _

theorem Library.Below.store (hL : L.Below L') (a v : Nat) (m : Machine) :
    Paging.Below (store L a v m) (store L' a v m) :=
  (hL.reach a m).bind fun _ => .refl _

theorem Library.Below.linkNode (hL : L.Below L') (q : Queue) (new : Nat) (m : Machine) :
    Paging.Below (linkNode L q new m) (linkNode L' q new m) := by
  unfold Paging.linkNode
  refine Below.ite ?_ (hL.store _ _ _)
  refine (hL.load _ _).bind fun r => ?_
  exact (hL.store _ _ _).bind fun _ => hL.store _ _ _

/-- **`enqueue`** over the library that returns less returns less. -/
theorem Library.Below.enqueue (hL : L.Below L') (t : Nat) (p : Int) (m : Machine) :
    Paging.Below (enqueue L t p m) (enqueue L' t p m) := by
  refine (Below.refl _).bind fun r => ?_
  refine (hL.store _ _ _).bind fun m => ?_
  exact (hL.linkNode _ _ _).bind fun _ => .refl _

theorem Library.Below.unlinkFirst (hL : L.Below L') (q : Queue) (m : Machine) :
    Paging.Below (unlinkFirst L q m) (unlinkFirst L' q m) := by
  unfold Paging.unlinkFirst
  refine Below.ite (hL.store _ _ _) ?_
  refine (hL.load _ _).bind fun r => ?_
  exact (hL.load _ _).bind fun _ => hL.store _ _ _

/-- **`get_next`** likewise. -/
theorem Library.Below.getNext (hL : L.Below L') (p : Int) (m : Machine) :
    Paging.Below (getNext L p m) (getNext L' p m) := by
  refine Below.ite (.refl _) (Below.ite ?_ ?_)
  · refine (hL.load _ _).bind fun r => ?_
    exact (hL.free _ _).bind fun _ => .refl _
  · refine (hL.load _ _).bind fun r => ?_
    refine (hL.load _ _).bind fun r => ?_
    refine (hL.load _ _).bind fun r => ?_
    refine (hL.unlinkFirst _ _).bind fun m => ?_
    exact (hL.free _ _).bind fun _ => .refl _

/-- The `switch` likewise. -/
theorem Library.Below.switchStatus (hL : L.Below L') (m : Machine) :
    Paging.Below (switchStatus L m) (switchStatus L' m) := by
  unfold Paging.switchStatus
  dsimp only
  split
  · exact Below.ite (.refl _) ((hL.enqueue _ _ _).bind fun _ => .refl _)
  · exact (hL.enqueue _ _ _).bind fun _ => .refl _
  · split
    · exact .refl _
    · exact (hL.enqueue _ _ _).bind fun _ => .refl _
  · exact .refl _
  · exact .refl _

/-- The loop likewise. -/
theorem Library.Below.findThread (hL : L.Below L') (n : Nat) (m : Machine) :
    Paging.Below (findThread L n m) (findThread L' n m) := by
  induction n generalizing m with
  | zero => exact .refl _
  | succ n ih => exact Below.ite (.refl _) ((hL.getNext _ _).bind fun r => ih _)

/-- **A call that meets no locked frame** is what the code does there. -/
theorem alarmHandler_below (m : Machine) :
    Below (alarmHandler undisturbed m) (schedulerAlarmHandler m) := by
  have hL := undisturbed_below
  unfold schedulerAlarmHandler alarmHandler
  refine Below.ite (.refl _) ((hL.switchStatus m).bind fun r => ?_)
  refine Below.ite (.refl _) ((hL.getNext _ _).bind fun r => ?_)
  exact hL.findThread 5 _

/-- The loop finds nobody here either. -/
theorem undisturbed_cases (h : alarmHandler undisturbed m = some m') :
    switchStatus undisturbed m = some (m', true) ∨ ∃ u t w, Dispatches undisturbed m u t w m' := by
  refine alarmHandler_cases (fun n m hm => ?_) h
  cases hfind : findThread undisturbed n m with
  | none => rfl
  | some m' =>
      have hpaged := undisturbed_below.findThread n m m' hfind
      rw [findThread_null hm n] at hpaged
      cases hpaged

end Below

section Stores

variable {m m' : Machine} {a v t new : Nat} {p : Int} {q : Queue}

private theorem load_reach {L : Library} (h : load L a m = some (v, m')) :
    L.reach a m = some m' ∧ wordAt m' a = some v := by
  obtain ⟨m₁, hreach, h⟩ := Option.bind_eq_some_iff.mp h
  obtain ⟨w, hw, h⟩ := Option.bind_eq_some_iff.mp h
  obtain ⟨rfl, rfl⟩ := Prod.mk.inj (Option.some.inj h)
  exact ⟨hreach, hw⟩

private theorem store_reach {L : Library} (h : store L a v m = some m') :
    ∃ u, L.reach a m = some u ∧ (wordAt u a).isSome ∧ m' = putWord a v u := by
  obtain ⟨u, hreach, h⟩ := Option.bind_eq_some_iff.mp h
  obtain ⟨w, hw, h⟩ := Option.bind_eq_some_iff.mp h
  exact ⟨u, hreach, by rw [hw]; rfl, (Option.some.inj h).symm⟩

/-- A load that meets no locked frame changes nothing. -/
theorem load_undisturbed (h : load undisturbed a m = some (v, m')) :
    m' = m ∧ wordAt m a = some v := by
  obtain ⟨hreach, hw⟩ := load_reach h
  obtain ⟨rfl, _⟩ := reach_undisturbed hreach
  exact ⟨rfl, hw⟩

/-- A store that meets no locked frame puts a word. -/
theorem store_undisturbed (h : store undisturbed a v m = some m') :
    m' = putWord a v m ∧ Open m a ∧ (wordAt m a).isSome := by
  obtain ⟨u, hreach, hmapped, hm⟩ := store_reach h
  obtain ⟨rfl, hopen⟩ := reach_undisturbed hreach
  exact ⟨hm, hopen, hmapped⟩

/-- The stores that link a new node behind the last one. -/
structure NodeLinks (q : Queue) (new : Nat) (m m' : Machine) : Prop where
  first : q.size = 0 → m' = putWord (new + 8) new m
  later : q.size ≠ 0 → ∃ next, wordAt m (q.back + 8) = some next ∧
    m' = putWord (q.back + 8) new (putWord (new + 8) next m)
  mapped : (wordAt m (new + 8)).isSome

private theorem linkNode_undisturbed (h : linkNode undisturbed q new m = some m') :
    NodeLinks q new m m' := by
  unfold linkNode at h
  split at h
  case isTrue hsize =>
    obtain ⟨⟨next, m₁⟩, hload, h⟩ := Option.bind_eq_some_iff.mp h
    obtain ⟨m₂, hnext, hback⟩ := Option.bind_eq_some_iff.mp h
    obtain ⟨rfl, hword⟩ := load_undisturbed hload
    obtain ⟨rfl, _, hmapped⟩ := store_undisturbed hnext
    obtain ⟨rfl, _, _⟩ := store_undisturbed hback
    exact ⟨fun hzero => absurd hzero hsize, fun _ => ⟨next, hword, rfl⟩, hmapped⟩
  case isFalse hsize =>
    obtain ⟨rfl, _, hmapped⟩ := store_undisturbed h
    exact ⟨fun _ => rfl, fun hne => absurd hne hsize, hmapped⟩

/-- What `enqueue` does where nothing is locked: the node `new` is on the page that the
running thread gets. -/
structure Enqueued (t : Nat) (p : Int) (new : Nat) (m m' : Machine) : Prop where
  call : ∃ u v, malloc 16 m = some (new, u) ∧ Open u new ∧ (wordAt u new).isSome ∧
    NodeLinks (m.queue p) new (putWord new t u) v ∧
    m' = setQueue p ⟨new, toInt ((m.queue p).size + 1)⟩ v

/-- `page_malloc` changes the page tables only. -/
theorem malloc_rest {size r : Nat} (h : malloc size m = some (r, m')) :
    ∃ s, pageMalloc m.running size m.pages = some (r, s) ∧ m' = { m with pages := s } := by
  obtain ⟨x, hx, hr⟩ := Option.map_eq_some_iff.mp h
  obtain ⟨rfl, rfl⟩ := Prod.mk.inj hr
  exact ⟨x.2, hx, rfl⟩

/-- **What `enqueue` does** where it meets no locked frame. -/
theorem enqueue_undisturbed (h : enqueue undisturbed t p m = some m') :
    ∃ new, Enqueued t p new m m' := by
  obtain ⟨⟨new, u⟩, hmalloc, h⟩ := Option.bind_eq_some_iff.mp h
  obtain ⟨m₁, hthread, h⟩ := Option.bind_eq_some_iff.mp h
  obtain ⟨v, hlink, h⟩ := Option.bind_eq_some_iff.mp h
  obtain rfl := Option.some.inj h
  obtain ⟨rfl, hopen, hmapped⟩ := store_undisturbed hthread
  have hlinked := linkNode_undisturbed hlink
  obtain ⟨s, _, rfl⟩ := malloc_rest hmalloc
  have hv : v.queue p = m.queue p := by
    by_cases hsize : (m.queue p).size = 0
    · rw [hlinked.first hsize]
      rfl
    · obtain ⟨next, _, hv⟩ := hlinked.later hsize
      rw [hv]
      rfl
  refine ⟨new, ⟨_, v, hmalloc, hopen, hmapped, hlinked, ?_⟩⟩
  rw [← hv]

/-- What `get_next` does where nothing is locked. -/
inductive Took (p : Int) (m : Machine) : Nat → Machine → Prop
  | empty (hsize : (m.queue p).size = 0) : Took p m 0 m
  | last {t : Nat} (hsize : (m.queue p).size = 1)
      (ht : wordAt m (m.queue p).back = some t) :
      Took p m t (setQueue p ⟨0, toInt ((m.queue p).size - 1)⟩ m)
  | first {t next second : Nat} (hsize : (m.queue p).size ≠ 0 ∧ (m.queue p).size ≠ 1)
      (hnext : wordAt m ((m.queue p).back + 8) = some next) (ht : wordAt m next = some t)
      (hsecond : if (m.queue p).size = 2 then second = (m.queue p).back
        else wordAt m (next + 8) = some second) :
      Took p m t (setQueue p { m.queue p with size := toInt ((m.queue p).size - 1) }
        (putWord ((m.queue p).back + 8) second m))

/-- **What `get_next` does** where it meets no locked frame. -/
theorem getNext_undisturbed (h : getNext undisturbed p m = some (t, m')) : Took p m t m' := by
  unfold getNext at h
  dsimp only at h
  split at h
  case isTrue hzero =>
    obtain ⟨rfl, rfl⟩ := Prod.mk.inj (Option.some.inj h)
    exact .empty hzero
  case isFalse hzero =>
    split at h
    case isTrue hone =>
      obtain ⟨⟨ret, m₁⟩, hret, h⟩ := Option.bind_eq_some_iff.mp h
      obtain ⟨m₂, hfree, h⟩ := Option.bind_eq_some_iff.mp h
      obtain ⟨rfl, rfl⟩ := Prod.mk.inj (Option.some.inj h)
      obtain ⟨rfl, hword⟩ := load_undisturbed hret
      obtain ⟨rfl, _⟩ := free_undisturbed hfree
      exact .last hone hword
    case isFalse hone =>
      obtain ⟨⟨next, m₁⟩, hnext, h⟩ := Option.bind_eq_some_iff.mp h
      obtain ⟨⟨ret, m₂⟩, hret, h⟩ := Option.bind_eq_some_iff.mp h
      obtain ⟨⟨temp, m₃⟩, htemp, h⟩ := Option.bind_eq_some_iff.mp h
      obtain ⟨m₄, hlink, h⟩ := Option.bind_eq_some_iff.mp h
      obtain ⟨m₅, hfree, h⟩ := Option.bind_eq_some_iff.mp h
      obtain ⟨rfl, rfl⟩ := Prod.mk.inj (Option.some.inj h)
      obtain ⟨rfl, hfirst⟩ := load_undisturbed hnext
      obtain ⟨rfl, hword⟩ := load_undisturbed hret
      obtain ⟨rfl, _⟩ := load_undisturbed htemp
      obtain ⟨rfl, _⟩ := free_undisturbed hfree
      unfold unlinkFirst at hlink
      split at hlink
      case isTrue htwo =>
        obtain ⟨rfl, _, _⟩ := store_undisturbed hlink
        exact .first ⟨hzero, hone⟩ hfirst hword (by rw [if_pos htwo])
      case isFalse htwo =>
        obtain ⟨⟨again, m₆⟩, hagain, hlink⟩ := Option.bind_eq_some_iff.mp hlink
        obtain ⟨⟨second, m₇⟩, hsecond, hstore⟩ := Option.bind_eq_some_iff.mp hlink
        obtain ⟨rfl, hagain⟩ := load_undisturbed hagain
        obtain rfl := Option.some.inj (hfirst.symm.trans hagain)
        obtain ⟨rfl, hsecond⟩ := load_undisturbed hsecond
        obtain ⟨rfl, _, _⟩ := store_undisturbed hstore
        exact .first ⟨hzero, hone⟩ hfirst hword (by rw [if_neg htwo]; exact hsecond)

end Stores

end Paging
