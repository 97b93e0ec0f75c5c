import CS416.Paging.Ownership

/-!
# The addresses of allocations

`page_malloc` returns the address behind the caller's last page, and page `k`
of the caller's list is what address `memory + k * PAGE_SIZE` stands for.  The
addresses of live allocations stay apart, and keep standing for their pages,
until `page_free` cuts pages out of the middle of a list: the pages behind the
cut move down, and the next address handed out is one that is still in use.
-/

namespace Paging

open CInt Chain Runs

/-- An allocation: the address returned, the number of pages asked for, and the pages that
the address stood for when it was returned. -/
structure Alloc where
  thread : Nat
  address : Nat
  count : Nat
  pages : List Page
  deriving DecidableEq

/-- The page of a thread's list that an address lies in. -/
def listIndex (s : Pages) (address : Nat) : Nat := (address - s.memory) / pageSize

/-- The pages that the range of an allocation stands for. -/
def designated (s : Pages) (x : Alloc) : List Page :=
  ((pagesOf s x.thread).drop (listIndex s x.address)).take x.count

/-- The pages with the allocations not yet freed. -/
structure Session where
  pages : Pages
  live : List Alloc

inductive Call
  | malloc (t size : Nat)
  | free (t index : Nat)

/-- The allocation that a call of `page_malloc` returned. -/
def allocation (t p size : Nat) (s : Pages) : Alloc :=
  { thread := t, address := p, count := pageCount size,
    pages := designated s ⟨t, p, pageCount size, []⟩ }

/-- A call of a session.  `page_free` frees the allocation of its caller that the page at the
given address belongs to. -/
def Session.exec (a : Session) : Call → Option Session
  | .malloc t size => do
    let (p, s) ← pageMalloc t size a.pages
    return ⟨s, if p = 0 then a.live else allocation t p size s :: a.live⟩
  | .free t index => do
    let s ← pageFree t index a.pages
    return ⟨s, a.live.filter fun x =>
      ¬ (x.thread = t ∧ ∃ i ∈ x.pages, (a.pages.pageData i).page = index)⟩

/-- Sessions reached by calls that satisfy `ok` when made. -/
def Reached (ok : Session → Call → Prop) : Session → Prop :=
  Reach (fun a => InitialPages a.pages ∧ a.live = []) fun a c b => ok a c ∧ a.exec c = some b

/-- The ranges of a thread's live allocations are disjoint, and each range still stands for
the pages it was returned for. -/
def RangesKept (a : Session) : Prop :=
  a.live.Pairwise (fun x y => x.thread = y.thread →
    x.address + x.count * pageSize ≤ y.address ∨ y.address + y.count * pageSize ≤ x.address) ∧
    ∀ x ∈ a.live, designated a.pages x = x.pages ∧ x.pages.length = x.count

/-- The condition on a call: the number of pages of a request survives its conversion to
`int`, or is more than there is, and no page of the caller has the address that is freed. -/
def RangeOk (a : Session) : Call → Prop
  | .malloc _ size =>
      pagesNeeded size = pageCount size ∨ (freePages a.pages).length < pagesNeeded size
  | .free t index => ∀ i ∈ pagesOf a.pages t, (a.pages.pageData i).page ≠ index

section Lists

variable {s u : Pages} {runs : Nat → List (List Page)} {t size p : Nat} {pages : List Page}

/-- The list of a thread holds the pages of its allocations. -/
theorem Owned.pagesOf_eq (h : Owned s runs) (t : Nat) : pagesOf s t = (runs t).flatten := by
  have hlen : (runs t).flatten.length ≤ numPages := by
    have hcard := List.Nodup.length_le_card (h.nodup t)
    simpa using hcard
  rw [pagesOf, h.head t]
  exact (h.linked t).walk_eq hlen

/-- The new pages come behind those of the caller. -/
theorem Served.pagesOf_self (hs : Served s t size runs p u pages) (h : Owned s runs) :
    pagesOf u t = pagesOf s t ++ pages := by
  rw [hs.owned.pagesOf_eq, h.pagesOf_eq, withRun_self]

/-- The lists of the others stay as they are. -/
theorem Served.pagesOf_ne (hs : Served s t size runs p u pages) (h : Owned s runs) {v : Nat}
    (hv : v ≠ t) : pagesOf u v = pagesOf s v := by
  rw [hs.owned.pagesOf_eq, h.pagesOf_eq, withRun_ne hv]

/-- The search for an address that no page of the list has. -/
theorem findPage_none {d : Page → PageMeta} {index n : Nat} {before : Option Page}
    {l : List Page} (hl : Linked (fun i => (d i).next) (fun i => (d i).prev) before l)
    (hn : l.length < n) (hne : ∀ i ∈ l, (d i).page ≠ index) :
    findPage d index n l.head? = some none := by
  induction l generalizing before n with
  | nil =>
      cases n with
      | zero => simp at hn
      | succ n => rfl
  | cons i rest ih =>
      obtain ⟨_, hnext, hrest⟩ := hl
      cases n with
      | zero => simp at hn
      | succ n =>
          have hlt : rest.length < n := by simpa using hn
          simp only [List.head?_cons, findPage, hne i List.mem_cons_self, if_false, hnext]
          apply ih hrest hlt
          intro j hj
          exact hne j (List.mem_cons_of_mem _ hj)

/-- `page_free` of an address that is none of the caller's pages changes nothing. -/
theorem pageFree_of_not_mem (h : Owned s runs) {index : Nat}
    (hne : ∀ i ∈ pagesOf s t, (s.pageData i).page ≠ index) : pageFree t index s = some s := by
  rw [h.pagesOf_eq] at hne
  have hlen := List.Nodup.length_le_card (h.nodup t)
  have hfind := findPage_none (n := numPages + 1) (h.linked t) (by simpa using hlen) hne
  rw [pageFree, h.head t, hfind]
  rfl

end Lists

section Ranges

variable {a b : Session} {runs : Nat → List (List Page)} {t size p : Nat}

/-- The range of an allocation lies in its thread's list. -/
def Inside (s : Pages) (x : Alloc) : Prop :=
  ∃ k, x.address = s.memory + k * pageSize + 1 ∧ k + x.count ≤ (pagesOf s x.thread).length

/-- What holds of every session under the condition. -/
structure Sound (a : Session) : Prop where
  init : a.pages.pageInit = true
  owned : ∃ runs, Owned a.pages runs
  inside : ∀ x ∈ a.live, Inside a.pages x
  kept : RangesKept a

/-- The address that is returned stands for the first of the new pages. -/
theorem listIndex_eq (s : Pages) (k : Nat) : listIndex s (s.memory + k * pageSize + 1) = k := by
  simp only [listIndex, pageSize]
  omega

/-- A range inside a list does not notice that the list grows. -/
theorem designated_grow {s u : Pages} {x : Alloc} {new : List Page} (hx : Inside s x)
    (hmem : u.memory = s.memory) (hlist : pagesOf u x.thread = pagesOf s x.thread ++ new) :
    designated u x = designated s x := by
  obtain ⟨k, haddr, hroom⟩ := hx
  have hindex : listIndex u x.address = k := by
    rw [haddr, ← hmem]
    exact listIndex_eq u k
  have hindex' : listIndex s x.address = k := by
    rw [haddr]
    exact listIndex_eq s k
  have hdrop : x.count ≤ ((pagesOf s x.thread).drop k).length := by
    rw [List.length_drop]
    omega
  simp only [designated, hindex, hindex', hlist]
  rw [List.drop_append_of_le_length (by omega), List.take_append_of_le_length hdrop]

/-- An allocation stays within a list that grows. -/
theorem Inside.grow {s u : Pages} {x : Alloc} {new : List Page} (hx : Inside s x)
    (hmem : u.memory = s.memory) (hlist : pagesOf u x.thread = pagesOf s x.thread ++ new) :
    Inside u x := by
  obtain ⟨k, haddr, hroom⟩ := hx
  refine ⟨k, by rw [hmem, haddr], ?_⟩
  rw [hlist, List.length_append]
  omega

/-- **A request keeps the ranges.** -/
theorem Sound.malloc (ha : Sound a) (hok : RangeOk a (.malloc t size))
    (hexec : a.exec (.malloc t size) = some b) : Sound b := by
  obtain ⟨runs, howned⟩ := ha.owned
  simp only [Session.exec, Option.bind_eq_bind, Option.bind_eq_some_iff] at hexec
  obtain ⟨⟨p, u⟩, hcall, hb⟩ := hexec
  obtain rfl := Option.some.inj hb
  have hpos : 0 < pagesNeeded size := by
    by_contra hle
    rw [pageMalloc, if_pos ha.init] at hcall
    simp [not_lt.mp hle] at hcall
  rcases pageMalloc_spec howned ha.init hpos t with ⟨_, hfail⟩ | ⟨hroom, q, v, pages, hserve, hs⟩
  · obtain ⟨rfl, rfl⟩ := Prod.mk.inj (Option.some.inj (hcall.symm.trans hfail))
    exact ha
  · obtain ⟨rfl, rfl⟩ := Prod.mk.inj (Option.some.inj (hcall.symm.trans hserve))
    have hneed : pagesNeeded size = pageCount size := by
      rcases hok with heq | hfew
      · exact heq
      · omega
    have hlen : pages.length = pageCount size := by
      have hlength := hs.length
      omega
    have hp : p ≠ 0 := by
      rw [hs.result]
      omega
    have hgrow : ∀ x : Alloc, ∃ new, pagesOf u x.thread = pagesOf a.pages x.thread ++ new := by
      intro x
      by_cases hx : x.thread = t
      · exact ⟨pages, by rw [hx]; exact hs.pagesOf_self howned⟩
      · exact ⟨[], by rw [hs.pagesOf_ne howned hx, List.append_nil]⟩
    have hindex : listIndex u p = (pagesOf a.pages t).length := by
      rw [hs.result, howned.pagesOf_eq, ← hs.memory]
      exact listIndex_eq u _
    have hnew : designated u (allocation t p size u) = pages := by
      simp only [designated, allocation, hindex, hs.pagesOf_self howned, ← hlen]
      simp
    have hpages : (allocation t p size u).pages = pages := hnew
    have hinside : Inside u (allocation t p size u) := by
      refine ⟨(pagesOf a.pages t).length, ?_, ?_⟩
      · rw [hs.memory, howned.pagesOf_eq]
        exact hs.result
      · have hlist : pagesOf u t = pagesOf a.pages t ++ pages := hs.pagesOf_self howned
        simp only [allocation, hlist, List.length_append]
        omega
    simp only [if_neg hp]
    constructor
    case init => exact hs.init
    case owned => exact ⟨_, hs.owned⟩
    case inside =>
      intro x hx
      rcases List.mem_cons.mp hx with rfl | hx
      · exact hinside
      · obtain ⟨new, hlist⟩ := hgrow x
        exact (ha.inside x hx).grow hs.memory hlist
    case kept =>
      refine ⟨List.pairwise_cons.mpr ⟨?_, ha.kept.1⟩, ?_⟩
      · intro y hy hthread
        obtain ⟨k, haddr, hle⟩ := ha.inside y hy
        have hyt : y.thread = t := hthread.symm
        have hp' : (allocation t p size u).address =
            a.pages.memory + (pagesOf a.pages t).length * pageSize + 1 := by
          rw [howned.pagesOf_eq]
          exact hs.result
        rw [hyt] at hle
        refine Or.inr ?_
        rw [hp', haddr]
        simp only [pageSize]
        omega
      · intro x hx
        rcases List.mem_cons.mp hx with rfl | hx
        · rw [hpages]
          exact ⟨hnew, hlen⟩
        · obtain ⟨new, hlist⟩ := hgrow x
          obtain ⟨hsame, hcount⟩ := ha.kept.2 x hx
          exact ⟨(designated_grow (ha.inside x hx) hs.memory hlist).trans hsame, hcount⟩

/-- Under the condition a call of `page_free` frees nothing. -/
theorem Sound.free {index : Nat} (ha : Sound a) (hok : RangeOk a (.free t index))
    (hexec : a.exec (.free t index) = some b) : b = a := by
  obtain ⟨runs, howned⟩ := ha.owned
  simp only [Session.exec, pageFree_of_not_mem howned hok, Option.bind_eq_bind,
    Option.bind_some] at hexec
  obtain rfl := Option.some.inj hexec
  have hall : a.live.filter (fun x =>
      ¬ (x.thread = t ∧ ∃ i ∈ x.pages, (a.pages.pageData i).page = index)) = a.live := by
    apply List.filter_eq_self.mpr
    intro x hx
    simp only [decide_eq_true_eq]
    intro hfreed
    obtain ⟨rfl, i, hi, hpage⟩ := hfreed
    rw [← (ha.kept.2 x hx).1] at hi
    exact hok i (List.mem_of_mem_drop (List.mem_of_mem_take hi)) hpage
  rw [hall]

private theorem sound_initial (hinit : InitialPages a.pages) (hlive : a.live = []) : Sound a := by
  constructor
  case init =>
    obtain ⟨s₀, heq, _⟩ := hinit
    rw [heq]
  case owned => exact ⟨_, owned_initial hinit⟩
  case inside =>
    intro x hx
    simp [hlive] at hx
  case kept =>
    constructor
    · rw [hlive]
      exact List.Pairwise.nil
    · intro x hx
      simp [hlive] at hx

/-- **Live ranges stay apart and keep their pages.**  This holds in every session of a run
whose calls all meet the condition. -/
theorem ranges_kept (h : Reached RangeOk a) : RangesKept a := by
  have hsound : Sound a := by
    apply h.invariant (I := Sound)
    · intro s hs
      exact sound_initial hs.1 hs.2
    · intro s c u _ hs hstep
      cases c with
      | malloc t size => exact hs.malloc hstep.1 hstep.2
      | free t index => exact (hs.free hstep.1 hstep.2) ▸ hs
  exact hsound.kept

/-- `page_malloc_init` on blank tables, with `memory` at 8192. -/
def blankSession : Session where
  pages := { pageMallocInit ⟨8192, false, fun _ => ⟨0, none, none, 0, 0, 0⟩,
    fun t => ⟨t, none, 0⟩⟩ with pageInit := true }
  live := []

/-- A run of calls. -/
def Session.execAll : List Call → Session → Option Session
  | [], a => some a
  | c :: rest, a => (a.exec c).bind (execAll rest)

/-- A sequence of calls leads to a session that can be reached. -/
theorem Reached.execAll {calls : List Call} (ha : Reached (fun _ _ => True) a)
    (hexec : Session.execAll calls a = some b) : Reached (fun _ _ => True) b := by
  induction calls generalizing a with
  | nil =>
      obtain rfl := Option.some.inj hexec
      exact ha
  | cons c rest ih =>
      obtain ⟨s, hs, hrest⟩ := Option.bind_eq_some_iff.mp hexec
      exact ih (ha.next ⟨trivial, hs⟩) hrest

private theorem reached_blankSession {ok : Session → Call → Prop} : Reached ok blankSession :=
  Reach.start ⟨⟨_, rfl, fun _ => ⟨rfl, rfl⟩⟩, rfl⟩

/-- Two requests of a thread, one of two pages, and one of another thread. -/
theorem ranges_kept_threeLive :
    ∃ a : Session, a.live.map (fun x => (x.thread, x.address, x.count)) =
      [(1, 8193, 1), (0, 16385, 1), (0, 8193, 2)] ∧ RangesKept a := by
  have hsome : ((blankSession.exec (.malloc 0 5000)).bind fun a => (a.exec (.malloc 0 1)).bind
      fun b => (b.exec (.malloc 1 1)).map fun c => c.live.map fun x =>
        (x.thread, x.address, x.count)) =
      some [(1, 8193, 1), (0, 16385, 1), (0, 8193, 2)] := by decide +kernel
  obtain ⟨a, hfirst, hrest⟩ := Option.bind_eq_some_iff.mp hsome
  obtain ⟨b, hsecond, hrest⟩ := Option.bind_eq_some_iff.mp hrest
  obtain ⟨c, hthird, hlive⟩ := Option.map_eq_some_iff.mp hrest
  have hok : ∀ s t, RangeOk s (.malloc t 5000) := fun s t => Or.inl (by decide)
  have hok' : ∀ s t, RangeOk s (.malloc t 1) := fun s t => Or.inl (by decide)
  have hb := (reached_blankSession.next ⟨hok _ _, hfirst⟩).next ⟨hok' _ _, hsecond⟩
  exact ⟨c, hlive, ranges_kept (hb.next ⟨hok' _ _, hthird⟩)⟩

/-- Three pages, the second one freed by the address of its frame: the next request gets the
address of the third. -/
theorem freed_middle_overlaps : ¬ ∀ a, Reached (fun _ _ => True) a → RangesKept a := by
  intro hclaim
  have hsome : ((Session.execAll [.malloc 0 1, .malloc 0 1, .malloc 0 1, .free 0 12288,
      .malloc 0 1] blankSession).map fun a => a.live.map fun x => (x.thread, x.address, x.count)) =
      some [(0, 16385, 1), (0, 16385, 1), (0, 8193, 1)] := by decide +kernel
  obtain ⟨a, hexec, hlive⟩ := Option.map_eq_some_iff.mp hsome
  have hkept := (hclaim a (reached_blankSession.execAll hexec)).1
  generalize a.live = live at hlive hkept
  -- the first two allocations have the same address
  cases live with
  | nil => simp at hlive
  | cons x rest =>
      cases rest with
      | nil => simp at hlive
      | cons y rest =>
          simp only [List.map_cons, List.cons.injEq, Prod.mk.injEq] at hlive
          obtain ⟨⟨hxt, hxa, hxc⟩, ⟨hyt, hya, hyc⟩, _⟩ := hlive
          have hapart := (List.pairwise_cons.mp hkept).1 y List.mem_cons_self
            (hxt.trans hyt.symm)
          rw [hxa, hya, hxc, hyc] at hapart
          simp only [pageSize] at hapart
          omega

end Ranges

end Paging
