import CS416.Lib.Reach
import CS416.Paging.Pages

/-!
# Every page has one owner or none

The pages of a thread form a doubly linked list, cut into runs by the flags
`more`: one run for each allocation, in the order of the calls.  The lists of
two threads share no page, and a page is free exactly if no list has it.  The
search, link and append loops of `page_malloc` keep all of this.
-/

namespace Paging

open CInt Chain Runs

/-- The flags `more` mark the pages of `l` as one allocation. -/
def MoreRun (d : Page → PageMeta) : List Page → Prop
  | [] => False
  | [i] => (d i).more = 0
  | i :: j :: rest => (d i).more = 1 ∧ MoreRun d (j :: rest)

/-- `page_data` and the threads, where `runs t` lists the allocations of thread `t`. -/
structure Owned (s : Pages) (runs : Nat → List (List Page)) : Prop where
  page : ∀ i, (s.pageData i).page = s.memory + i * pageSize
  nodup : ∀ t, (runs t).flatten.Nodup
  apart : ∀ t u, t ≠ u → (runs t).flatten.Disjoint (runs u).flatten
  used : ∀ t, ∀ i ∈ (runs t).flatten, (s.pageData i).free = 0 ∧ (s.pageData i).TID = (s.owner t).id
  unused : ∀ i, (∀ t, i ∉ (runs t).flatten) → (s.pageData i).free = 1
  head : ∀ t, (s.owner t).pageList = (runs t).flatten.head?
  linked : ∀ t, Linked (fun i => (s.pageData i).next) (fun i => (s.pageData i).prev) none
    (runs t).flatten
  count : ∀ t, (s.owner t).numPages = (runs t).flatten.length
  more : ∀ t, ∀ run ∈ runs t, MoreRun s.pageData run

/-- The free pages, in the order in which the search finds them. -/
def freePages (s : Pages) : List Page :=
  (List.finRange numPages).filter fun i => (s.pageData i).free ≠ 0

section Search

variable {d : Page → PageMeta} {l : List Page} {n : Int}

/-- The search takes free pages from the front. -/
theorem searchFree_eq (hn : 0 < n) :
    searchFree d l n = if n ≤ (l.filter fun i => (d i).free ≠ 0).length
      then ((l.filter fun i => (d i).free ≠ 0).take n.toNat, 0)
      else (l.filter fun i => (d i).free ≠ 0,
        n - (l.filter fun i => (d i).free ≠ 0).length) := by
  induction l generalizing n with
  | nil => simp [searchFree, hn]
  | cons i rest ih =>
      by_cases hfree : (d i).free = 0
      · have hskip : (i :: rest).filter (fun i => (d i).free ≠ 0) =
            rest.filter fun i => (d i).free ≠ 0 := by simp [hfree]
        rw [hskip, ← ih hn]
        simp [searchFree, hfree]
      · have htake : (i :: rest).filter (fun i => (d i).free ≠ 0) =
            i :: rest.filter fun i => (d i).free ≠ 0 := by simp [hfree]
        rw [htake, searchFree, if_pos hfree]
        by_cases hone : n - 1 = 0
        · obtain rfl : n = 1 := by omega
          simp
        · have hpos : 0 < n - 1 := by omega
          have hnat : n.toNat = (n - 1).toNat + 1 := by omega
          rw [if_neg hone, ih hpos, hnat]
          by_cases hle : n - 1 ≤ (rest.filter fun i => (d i).free ≠ 0).length
          · have hle' : n ≤ (i :: rest.filter fun i => (d i).free ≠ 0).length := by
              simp only [List.length_cons]
              omega
            rw [if_pos hle, if_pos hle']
            simp
          · have hle' : ¬ n ≤ (i :: rest.filter fun i => (d i).free ≠ 0).length := by
              simp only [List.length_cons]
              omega
            rw [if_neg hle, if_neg hle']
            simp only [List.length_cons]
            congr 1
            omega

end Search

section Link

variable {d : Page → PageMeta} {l : List Page} {before : Option Page} {tid : Int} {i : Page}

private theorem linkPages_of_not_mem (h : i ∉ l) : linkPages tid before l d i = d i := by
  induction l generalizing before d with
  | nil => rfl
  | cons j rest ih =>
      simp only [List.mem_cons, not_or] at h
      simp [linkPages, ih h.2, h.1]

/-- The new pages are marked taken, with the caller's ID. -/
theorem linkPages_mem (hl : l.Nodup) (h : i ∈ l) :
    (linkPages tid before l d i).page = (d i).page ∧ (linkPages tid before l d i).free = 0 ∧
      (linkPages tid before l d i).TID = tid := by
  induction l generalizing before d with
  | nil => cases h
  | cons j rest ih =>
      obtain ⟨hj, hrest⟩ := List.nodup_cons.mp hl
      rcases List.mem_cons.mp h with rfl | hi
      · simp [linkPages, linkPages_of_not_mem hj]
      · have hne : i ≠ j := by
          intro heq
          exact hj (heq ▸ hi)
        obtain ⟨hpage, hfree, htid⟩ := ih hrest hi
        simp only [linkPages]
        refine ⟨?_, hfree, htid⟩
        rw [hpage, Function.update_of_ne hne]

private theorem linkPages_linked (hl : l.Nodup) :
    Linked (fun i => (linkPages tid before l d i).next)
      (fun i => (linkPages tid before l d i).prev) before l := by
  induction l generalizing before d with
  | nil => trivial
  | cons j rest ih =>
      obtain ⟨hj, hrest⟩ := List.nodup_cons.mp hl
      refine ⟨?_, ?_, ih hrest⟩
      · simp [linkPages, linkPages_of_not_mem hj]
      · simp [linkPages, linkPages_of_not_mem hj]

private theorem linkPages_more (hl : l.Nodup) (hne : l ≠ []) :
    MoreRun (linkPages tid before l d) l := by
  induction l generalizing before d with
  | nil => exact absurd rfl hne
  | cons j rest ih =>
      obtain ⟨hj, hrest⟩ := List.nodup_cons.mp hl
      cases rest with
      | nil => simp [MoreRun, linkPages]
      | cons k rest =>
          refine ⟨?_, ih hrest (by simp)⟩
          have hkeep : linkPages tid before (j :: k :: rest) d j =
              { d j with free := 0, TID := tid, more := 1, next := some k, prev := before } := by
            rw [linkPages, linkPages_of_not_mem hj, Function.update_self]
            simp
          rw [hkeep]

/-- A run depends on the flags `more` of its pages only. -/
theorem MoreRun.congr {d' : Page → PageMeta} (h : MoreRun d l)
    (hmore : ∀ i ∈ l, (d' i).more = (d i).more) : MoreRun d' l := by
  induction l with
  | nil => exact h
  | cons i rest ih =>
      cases rest with
      | nil => exact (hmore i (by simp)).trans h
      | cons j rest =>
          refine ⟨(hmore i (by simp)).trans h.1, ih h.2 ?_⟩
          intro k hk
          exact hmore k (List.mem_cons_of_mem _ hk)

end Link

section Append

variable {s u : Pages} {runs : Nat → List (List Page)} {t : Nat} {pages old : List Page}
  {first i : Page}

/-- What appending `pages` to the list of `t` leaves behind. -/
structure Appended (s : Pages) (t : Nat) (old pages : List Page) (u : Pages) : Prop where
  memory : u.memory = s.memory
  init : u.pageInit = s.pageInit
  owner : u.owner = Function.update s.owner t
    { s.owner t with pageList := (old ++ pages).head? }
  page : ∀ i, (u.pageData i).page = (s.pageData i).page
  other : ∀ i, i ∉ old → i ∉ pages → u.pageData i = s.pageData i
  kept : ∀ i ∈ old, (u.pageData i).free = (s.pageData i).free ∧
    (u.pageData i).TID = (s.pageData i).TID ∧ (u.pageData i).more = (s.pageData i).more
  taken : ∀ i ∈ pages, (u.pageData i).free = 0 ∧ (u.pageData i).TID = (s.owner t).id
  more : MoreRun u.pageData pages
  linked : Linked (fun i => (u.pageData i).next) (fun i => (u.pageData i).prev) none (old ++ pages)

/-- The first allocation of a thread. -/
theorem appendPages_first (hnone : (s.owner t).pageList = none) (hp : pages.Nodup)
    (hfirst : pages.head? = some first) :
    ∃ u, appendPages t first { s with pageData := linkPages (s.owner t).id none pages s.pageData } =
      some u ∧ Appended s t [] pages u := by
  have hne : pages ≠ [] := by
    intro hnil
    simp [hnil] at hfirst
  refine ⟨Pages.setOwner { s with pageData := linkPages (s.owner t).id none pages s.pageData } t
    { s.owner t with pageList := some first }, by simp only [appendPages, hnone], ?_⟩
  constructor
  · rfl
  · rfl
  · simp [Pages.setOwner, hfirst]
  · intro i
    by_cases hi : i ∈ pages
    · exact (linkPages_mem hp hi).1
    · simp [Pages.setOwner, linkPages_of_not_mem hi]
  · intro i _ hi
    exact linkPages_of_not_mem hi
  · intro i hi
    cases hi
  · intro i hi
    exact (linkPages_mem hp hi).2
  · exact linkPages_more hp hne
  · exact linkPages_linked hp

/-- The two links that join the lists. -/
def joinPages (z first : Page) (d : Page → PageMeta) : Page → PageMeta :=
  Function.update (Function.update d z { d z with next := some first }) first
    { Function.update d z { d z with next := some first } first with prev := some z }

section Join

variable {d : Page → PageMeta} {z : Page}

/-- The pages other than the last one and the first new one stay as they are. -/
theorem joinPages_other (hz : i ≠ z) (hfirst : i ≠ first) : joinPages z first d i = d i := by
  simp [joinPages, hz, hfirst]

/-- The last page of the list is linked to the new ones. -/
theorem joinPages_last (hne : z ≠ first) :
    joinPages z first d z = { d z with next := some first } := by
  simp [joinPages, hne]

private theorem joinPages_first (hne : z ≠ first) :
    joinPages z first d first = { d first with prev := some z } := by
  simp [joinPages, Ne.symm hne]

/-- Joining touches no flag. -/
theorem joinPages_flags (hne : z ≠ first) (i : Page) :
    (joinPages z first d i).page = (d i).page ∧ (joinPages z first d i).free = (d i).free ∧
      (joinPages z first d i).TID = (d i).TID ∧ (joinPages z first d i).more = (d i).more := by
  by_cases hz : i = z
  · simp [hz, joinPages_last hne]
  · by_cases hf : i = first
    · simp [hf, joinPages_first hne]
    · simp [joinPages_other hz hf]

/-- The second list hangs behind the last page of the first one. -/
theorem joinPages_linked {rest : List Page} {before : Option Page}
    (hnodup : (first :: rest).Nodup) (hz : z ∉ first :: rest)
    (h : Linked (fun i => (d i).next) (fun i => (d i).prev) before (first :: rest)) :
    Linked (fun i => (joinPages z first d i).next) (fun i => (joinPages z first d i).prev)
      (some z) (first :: rest) := by
  obtain ⟨_, hnext, hrest⟩ := h
  obtain ⟨hfirst, _⟩ := List.nodup_cons.mp hnodup
  have hne : z ≠ first := by
    intro heq
    exact hz (heq ▸ List.mem_cons_self)
  have hsame : ∀ j ∈ rest, joinPages z first d j = d j := by
    intro j hj
    apply joinPages_other
    · intro heq
      exact hz (heq ▸ List.mem_cons_of_mem _ hj)
    · intro heq
      exact hfirst (heq ▸ hj)
  refine ⟨?_, ?_, ?_⟩
  · simp [joinPages_first hne]
  · simpa [joinPages_first hne] using hnext
  · apply hrest.congr
    · intro j hj
      simp [hsame j hj]
    · intro j hj
      simp [hsame j hj]

end Join

/-- A later allocation of a thread, behind the page `z`. -/
theorem appendPages_later {old : List Page} {z : Page}
    (hhead : (s.owner t).pageList = (old ++ [z]).head?)
    (hlinked : Linked (fun i => (s.pageData i).next) (fun i => (s.pageData i).prev) none
      (old ++ [z]))
    (hold : (old ++ [z]).Nodup) (hp : pages.Nodup) (hapart : ∀ i ∈ pages, i ∉ old ++ [z])
    (hfirst : pages.head? = some first) :
    ∃ u, appendPages t first { s with pageData := linkPages (s.owner t).id none pages s.pageData } =
      some u ∧ Appended s t (old ++ [z]) pages u := by
  generalize hd : linkPages (s.owner t).id none pages s.pageData = d
  have hsame : ∀ i ∈ old ++ [z], d i = s.pageData i := by
    intro i hi
    rw [← hd]
    exact linkPages_of_not_mem fun hmem => hapart i hmem hi
  have hlist : Linked (fun i => (d i).next) (fun i => (d i).prev) none (old ++ [z]) := by
    apply hlinked.congr
    · intro i hi
      simp [hsame i hi]
    · intro i hi
      simp [hsame i hi]
  obtain ⟨rest, rfl⟩ : ∃ rest, pages = first :: rest := by
    cases pages with
    | nil => simp at hfirst
    | cons i rest => exact ⟨rest, by simpa using hfirst⟩
  have hzp : z ∉ first :: rest := by
    intro hmem
    exact hapart z hmem (by simp)
  have hne : z ≠ first := by
    intro heq
    exact hzp (heq ▸ List.mem_cons_self)
  -- the walk to the end of the old list
  have hwalk : ∀ head, (old ++ [z]).head? = some head →
      walkLast (fun i => (d i).next) numPages head = some z := by
    intro head hhead
    have hlen := List.Nodup.length_le_card hold
    generalize hl : old ++ [z] = l at hhead hlist hlen
    cases l with
    | nil => simp at hhead
    | cons j rest =>
        obtain rfl : j = head := by simpa using hhead
        rw [hlist.walkLast_eq (by simpa using hlen)]
        simp [← hl]
  obtain ⟨head, hsome⟩ : ∃ head, (old ++ [z]).head? = some head := by
    cases old <;> simp
  refine ⟨{ s with pageData := joinPages z first d }, ?_, ?_⟩
  · simp only [appendPages, hhead, hsome, hwalk head hsome]
    rfl
  have hlinks : Linked (fun i => (joinPages z first d i).next)
      (fun i => (joinPages z first d i).prev) (some z) (first :: rest) := by
    apply joinPages_linked hp hzp
    rw [← hd]
    exact linkPages_linked hp
  have hkeep : ∀ i, i ∉ first :: rest → i ≠ z → joinPages z first d i = s.pageData i := by
    intro i hi hz
    rw [joinPages_other hz (fun heq => hi (heq ▸ List.mem_cons_self)), ← hd]
    exact linkPages_of_not_mem hi
  have hold' : ∀ j ∈ old, joinPages z first d j = s.pageData j := by
    intro j hj
    apply hkeep
    · intro hmem
      exact hapart j hmem (by simp [hj])
    · intro heq
      exact (List.nodup_append.mp hold).2.2 j hj z (by simp) heq
  constructor
  · rfl
  · rfl
  · have hboth : (old ++ [z] ++ first :: rest).head? = (s.owner t).pageList := by
      rw [hhead]
      cases old <;> simp
    rw [hboth]
    exact (Function.update_eq_self t s.owner).symm
  · intro i
    rw [(joinPages_flags hne i).1, ← hd]
    by_cases hi : i ∈ first :: rest
    · exact (linkPages_mem hp hi).1
    · rw [linkPages_of_not_mem hi]
  · intro i hi hip
    apply hkeep i hip
    intro heq
    exact hi (by simp [heq])
  · intro i hi
    obtain ⟨_, hfree, htid, hmore⟩ := joinPages_flags (d := d) hne i
    rw [hfree, htid, hmore, hsame i hi]
    exact ⟨rfl, rfl, rfl⟩
  · intro i hi
    obtain ⟨_, hfree, htid, _⟩ := joinPages_flags (d := d) hne i
    rw [hfree, htid, ← hd]
    exact (linkPages_mem hp hi).2
  · have hmore : MoreRun d (first :: rest) := by
      rw [← hd]
      exact linkPages_more hp (by simp)
    apply hmore.congr
    intro i _
    exact (joinPages_flags hne i).2.2.2
  · rw [List.append_assoc]
    apply hlinked.append hlinks
    · simp [joinPages_last hne]
    · intro j hj
      simp [hold' j hj]
    · intro j hj
      rcases List.mem_append.mp hj with hj | hj
      · simp [hold' j hj]
      · obtain rfl : j = z := by simpa using hj
        simp [joinPages_last hne, hsame j (by simp)]

/-- Both ways of appending. -/
theorem appendPages_spec (h : Owned s runs) (hp : pages.Nodup)
    (hapart : ∀ i ∈ pages, i ∉ (runs t).flatten) (hfirst : pages.head? = some first) :
    ∃ u, appendPages t first { s with pageData := linkPages (s.owner t).id none pages s.pageData } =
      some u ∧ Appended s t (runs t).flatten pages u := by
  have hhead := h.head t
  have hlinked := h.linked t
  have hnodup := h.nodup t
  generalize (runs t).flatten = old at hhead hlinked hnodup hapart ⊢
  rcases List.eq_nil_or_concat old with rfl | ⟨l, z, rfl⟩
  · exact appendPages_first hhead hp hfirst
  · rw [List.concat_eq_append] at *
    exact appendPages_later hhead hlinked hnodup hp hapart hfirst

/-- The state after the pages of a request have been appended and counted. -/
def counted (u : Pages) (t : Nat) (n : Int) : Pages :=
  u.setOwner t { u.owner t with numPages := (u.owner t).numPages + n }

/-- The allocations of each thread after thread `t` got `pages`. -/
def withRun (runs : Nat → List (List Page)) (t : Nat) (pages : List Page) :
    Nat → List (List Page) :=
  Function.update runs t (runs t ++ [pages])

/-- The new pages come behind those of the thread. -/
theorem withRun_self : (withRun runs t pages t).flatten = (runs t).flatten ++ pages := by
  simp [withRun]

/-- The runs of the others stay as they are. -/
theorem withRun_ne {v : Nat} (hv : v ≠ t) : withRun runs t pages v = runs v := by
  simp [withRun, hv]

private theorem Appended.owner_self (ha : Appended s t old pages u) :
    u.owner t = { s.owner t with pageList := (old ++ pages).head? } := by
  simp [ha.owner]

/-- **Appending keeps the ownership of pages.** -/
theorem Owned.append (h : Owned s runs) (hp : pages.Nodup)
    (hapart : ∀ i ∈ pages, ∀ v, i ∉ (runs v).flatten)
    (ha : Appended s t (runs t).flatten pages u) :
    Owned (counted u t pages.length) (withRun runs t pages) := by
  have hother : ∀ v, v ≠ t → ∀ i ∈ (runs v).flatten, u.pageData i = s.pageData i := by
    intro v hv i hi
    apply ha.other i
    · intro hmem
      exact h.apart v t hv hi hmem
    · intro hmem
      exact hapart i hmem v hi
  have howner : ∀ v, v ≠ t → (counted u t pages.length).owner v = s.owner v := by
    intro v hv
    simp [counted, Pages.setOwner, hv, ha.owner]
  constructor
  case page =>
    intro i
    exact (ha.page i).trans ((h.page i).trans (by simp [counted, Pages.setOwner, ha.memory]))
  case nodup =>
    intro v
    by_cases hv : v = t
    · subst hv
      rw [withRun_self]
      apply List.nodup_append.mpr ⟨h.nodup v, hp, ?_⟩
      intro i hi j hj heq
      exact hapart j hj v (heq ▸ hi)
    · rw [withRun_ne hv]
      exact h.nodup v
  case apart =>
    intro v w hvw
    by_cases hv : v = t
    · subst hv
      rw [withRun_self, withRun_ne (Ne.symm hvw)]
      intro i hi hw
      rcases List.mem_append.mp hi with hi | hi
      · exact h.apart v w hvw hi hw
      · exact hapart i hi w hw
    · by_cases hw : w = t
      · subst hw
        rw [withRun_self, withRun_ne hv]
        intro i hi hw
        rcases List.mem_append.mp hw with hw | hw
        · exact h.apart v w hvw hi hw
        · exact hapart i hw v hi
      · rw [withRun_ne hv, withRun_ne hw]
        exact h.apart v w hvw
  case used =>
    intro v i hi
    by_cases hv : v = t
    · subst hv
      have hid : ((counted u v pages.length).owner v).id = (s.owner v).id := by
        simp [counted, Pages.setOwner, ha.owner_self]
      rw [hid]
      rw [withRun_self] at hi
      rcases List.mem_append.mp hi with hi | hi
      · obtain ⟨hfree, htid, _⟩ := ha.kept i hi
        obtain ⟨hfree', htid'⟩ := h.used v i hi
        exact ⟨hfree.trans hfree', htid.trans htid'⟩
      · exact ha.taken i hi
    · rw [withRun_ne hv] at hi
      rw [howner v hv]
      have hsame : (counted u t pages.length).pageData i = s.pageData i := hother v hv i hi
      rw [hsame]
      exact h.used v i hi
  case unused =>
    intro i hi
    have hold : ∀ v, i ∉ (runs v).flatten := by
      intro v hmem
      by_cases hv : v = t
      · subst hv
        apply hi v
        rw [withRun_self]
        exact List.mem_append_left _ hmem
      · apply hi v
        rw [withRun_ne hv]
        exact hmem
    have hnew : i ∉ pages := by
      intro hmem
      apply hi t
      rw [withRun_self]
      exact List.mem_append_right _ hmem
    have hsame : (counted u t pages.length).pageData i = s.pageData i :=
      ha.other i (hold t) hnew
    rw [hsame]
    exact h.unused i hold
  case head =>
    intro v
    by_cases hv : v = t
    · subst hv
      rw [withRun_self]
      simp [counted, Pages.setOwner, ha.owner_self]
    · rw [withRun_ne hv, howner v hv]
      exact h.head v
  case linked =>
    intro v
    by_cases hv : v = t
    · subst hv
      rw [withRun_self]
      exact ha.linked
    · rw [withRun_ne hv]
      apply (h.linked v).congr
      · intro i hi
        exact congrArg PageMeta.next (hother v hv i hi)
      · intro i hi
        exact congrArg PageMeta.prev (hother v hv i hi)
  case count =>
    intro v
    by_cases hv : v = t
    · subst hv
      rw [withRun_self]
      have hcount := h.count v
      simp only [counted, Pages.setOwner, Function.update_self, ha.owner_self, hcount,
        List.length_append]
      push_cast
      rfl
    · rw [withRun_ne hv, howner v hv]
      exact h.count v
  case more =>
    intro v run hrun
    have hkept : ∀ i ∈ (runs v).flatten, (u.pageData i).more = (s.pageData i).more := by
      intro i hi
      by_cases hv : v = t
      · subst hv
        exact (ha.kept i hi).2.2
      · rw [hother v hv i hi]
    have hold : run ∈ runs v → MoreRun u.pageData run := by
      intro hmem
      apply (h.more v run hmem).congr
      intro i hi
      exact hkept i (List.mem_flatten.mpr ⟨run, hmem, hi⟩)
    by_cases hv : v = t
    · subst hv
      have hmem : run ∈ runs v ++ [pages] := by simpa [withRun] using hrun
      rcases List.mem_append.mp hmem with hmem | hmem
      · exact hold hmem
      · obtain rfl : run = pages := by simpa using hmem
        exact ha.more
    · rw [withRun_ne hv] at hrun
      exact hold hrun

end Append

section Malloc

variable {s : Pages} {runs : Nat → List (List Page)} {t size : Nat}

/-- No page is counted twice. -/
theorem freePages_nodup : (freePages s).Nodup := (List.nodup_finRange _).filter _

/-- A free page is on nobody's list. -/
theorem Owned.not_mem_of_free (h : Owned s runs) {i : Page} (hi : i ∈ freePages s) (v : Nat) :
    i ∉ (runs v).flatten := by
  intro hmem
  have hfree := (h.used v i hmem).1
  simp [freePages, hfree] at hi

/-- A request that finds its pages. -/
structure Served (s : Pages) (t size : Nat) (runs : Nat → List (List Page)) (p : Nat)
    (u : Pages) (pages : List Page) : Prop where
  result : p = s.memory + (runs t).flatten.length * pageSize + 1
  pages_eq : pages = (freePages s).take (pagesNeeded size).toNat
  length : (pages.length : Int) = pagesNeeded size
  owned : Owned u (withRun runs t pages)
  memory : u.memory = s.memory
  init : u.pageInit = true
  id : ∀ v, (u.owner v).id = (s.owner v).id

/-- **`page_malloc`.**  A request is served, or fails for lack of free pages and changes
nothing. -/
theorem pageMalloc_spec (h : Owned s runs) (hinit : s.pageInit = true)
    (hn : 0 < pagesNeeded size) (t : Nat) :
    ((freePages s).length < pagesNeeded size ∧ pageMalloc t size s = some (0, s)) ∨
      pagesNeeded size ≤ (freePages s).length ∧
        ∃ p u pages, pageMalloc t size s = some (p, u) ∧ Served s t size runs p u pages := by
  have hsearch := searchFree_eq (d := s.pageData) (l := List.finRange numPages) hn
  have hlist : (List.finRange numPages).filter (fun i => (s.pageData i).free ≠ 0) = freePages s :=
    rfl
  rw [hlist] at hsearch
  unfold pageMalloc
  rw [if_pos hinit]
  dsimp only
  rw [if_neg (not_le.mpr hn)]
  by_cases hroom : pagesNeeded size ≤ (freePages s).length
  · rw [if_pos hroom] at hsearch
    refine Or.inr ⟨hroom, ?_⟩
    generalize hpages : (freePages s).take (pagesNeeded size).toNat = pages at hsearch
    have hlength : (pages.length : Int) = pagesNeeded size := by
      rw [← hpages, List.length_take]
      omega
    have hfree : ∀ i ∈ pages, i ∈ freePages s := by
      intro i hi
      rw [← hpages] at hi
      exact List.mem_of_mem_take hi
    have hnodup : pages.Nodup := by
      rw [← hpages]
      exact freePages_nodup.sublist (List.take_sublist _ _)
    obtain ⟨first, hfirst⟩ : ∃ first, pages.head? = some first := by
      cases pages with
      | nil => simp at hlength; omega
      | cons i rest => exact ⟨i, rfl⟩
    obtain ⟨u, happend, ha⟩ := appendPages_spec h hnodup
      (fun i hi => h.not_mem_of_free (hfree i hi) t) hfirst
    have howned := h.append hnodup (fun i hi v => h.not_mem_of_free (hfree i hi) v) ha
    refine ⟨((u.memory : Int) + (u.owner t).numPages * pageSize + 1).toNat,
      counted u t pages.length, pages, ?_, ?_⟩
    · rw [hsearch]
      simp only [ne_eq, not_true_eq_false, if_false, hfirst, Option.bind_eq_bind,
        Option.bind_some, happend, hlength]
      rfl
    · constructor
      case result =>
        have hcount := h.count t
        simp only [ha.memory, ha.owner_self, hcount]
        omega
      case pages_eq => exact hpages.symm
      case length => exact hlength
      case owned => exact howned
      case memory => exact ha.memory
      case init => exact ha.init.trans hinit
      case id =>
        intro v
        by_cases hv : v = t
        · subst hv
          simp [counted, Pages.setOwner, ha.owner_self]
        · simp [counted, Pages.setOwner, hv, ha.owner]
  · rw [if_neg hroom] at hsearch
    refine Or.inl ⟨not_le.mp hroom, ?_⟩
    rw [hsearch]
    simp only
    rw [if_pos (by omega)]

end Malloc

/-- `ceil(size / PAGE_SIZE)` -/
def pageCount (size : Nat) : Nat := (size + pageSize - 1) / pageSize

private theorem pagesNeeded_eq {size : Nat} (hsize : size ≤ 8796093014016) :
    pagesNeeded size = pageCount size := by
  obtain ⟨q, hq⟩ : ∃ q, q = size / 4096 := ⟨_, rfl⟩
  have hint : toInt (q : Int) = q := toInt_of_range (by omega) (by omega)
  have hnext : toInt ((q : Int) + 1) = q + 1 := toInt_of_range (by omega) (by omega)
  simp only [pagesNeeded, pageCount, pageSize, ← hq, hint, hnext]
  split <;> omega

/-- The pages, and the sizes of the requests of each thread that were served. -/
structure Requests where
  pages : Pages
  served : Nat → List Nat

/-- Threads without pages, after `page_malloc_init`. -/
def InitialPages (s : Pages) : Prop :=
  ∃ s₀ : Pages, s = { pageMallocInit s₀ with pageInit := true } ∧
    ∀ t, (s₀.owner t).pageList = none ∧ (s₀.owner t).numPages = 0

/-- A call of `page_malloc` by the thread `c.1` for `c.2` bytes. -/
def RequestStep (a : Requests) (c : Nat × Nat) (b : Requests) : Prop :=
  1 ≤ c.2 ∧ c.2 ≤ numPages * pageSize ∧ ∃ p, pageMalloc c.1 c.2 a.pages = some (p, b.pages) ∧
    b.served = if p = 0 then a.served
      else Function.update a.served c.1 (a.served c.1 ++ [c.2])

def RequestsReached : Requests → Prop :=
  Reach (fun a => InitialPages a.pages ∧ a.served = fun _ => []) RequestStep

/-- The runs of pages are the requests that were served, in their order. -/
def Matches (runs : Nat → List (List Page)) (served : Nat → List Nat) : Prop :=
  ∀ t, (runs t).map List.length = (served t).map pageCount

section Requests

variable {a b : Requests} {t size : Nat}

/-- At first no page is owned. -/
theorem owned_initial {s : Pages} (h : InitialPages s) : Owned s (fun _ => []) := by
  obtain ⟨s₀, rfl, hempty⟩ := h
  constructor
  case page =>
    intro i
    rfl
  case nodup =>
    intro t
    simp
  case apart =>
    intro t u _
    simp
  case used =>
    intro t i hi
    simp at hi
  case unused =>
    intro i _
    rfl
  case head =>
    intro t
    exact (hempty t).1
  case linked =>
    intro t
    trivial
  case count =>
    intro t
    exact (hempty t).2
  case more =>
    intro t run hrun
    simp at hrun

private theorem pagesNeeded_request (h₁ : 1 ≤ size) (h₂ : size ≤ numPages * pageSize) :
    pagesNeeded size = pageCount size ∧ 0 < pagesNeeded size := by
  have heq : pagesNeeded size = pageCount size := by
    apply pagesNeeded_eq
    simp only [numPages, pageSize] at h₂
    omega
  refine ⟨heq, ?_⟩
  rw [heq]
  simp only [pageCount, pageSize]
  omega

private theorem reached_owned (h : RequestsReached a) :
    a.pages.pageInit = true ∧ ∃ runs, Owned a.pages runs ∧ Matches runs a.served := by
  apply h.invariant (I := fun a => a.pages.pageInit = true ∧
    ∃ runs, Owned a.pages runs ∧ Matches runs a.served)
  · intro s hs
    obtain ⟨hinit, hserved⟩ := hs
    refine ⟨?_, _, owned_initial hinit, ?_⟩
    · obtain ⟨s₀, heq, _⟩ := hinit
      rw [heq]
    · intro t
      simp [hserved]
  · intro s c u _ hI hstep
    obtain ⟨hinit, runs, howned, hmatch⟩ := hI
    obtain ⟨h₁, h₂, p, hcall, hserved⟩ := hstep
    obtain ⟨hneed, hpos⟩ := pagesNeeded_request h₁ h₂
    rcases pageMalloc_spec howned hinit hpos c.1 with ⟨_, hfail⟩ | ⟨_, q, v, pages, hok, hs⟩
    · obtain ⟨rfl, hsame⟩ := Prod.mk.inj (Option.some.inj (hcall.symm.trans hfail))
      rw [hsame, hserved, if_pos rfl]
      exact ⟨hinit, runs, howned, hmatch⟩
    · obtain ⟨rfl, rfl⟩ := Prod.mk.inj (Option.some.inj (hcall.symm.trans hok))
      have hp : p ≠ 0 := by
        rw [hs.result]
        omega
      rw [hserved, if_neg hp]
      refine ⟨hs.init, _, hs.owned, ?_⟩
      intro w
      by_cases hw : w = c.1
      · subst hw
        have hlen : pages.length = pageCount c.2 := by
          have hlength := hs.length
          omega
        simp [withRun, hmatch c.1, hlen]
      · simp [withRun, hw, hmatch w]

/-- **Page ownership.**  In every state the lists of the threads are disjoint doubly linked
lists of the pages in use, cut into the requests that were served; the next request gets the
address behind the thread's last page, or fails for lack of free pages and changes nothing. -/
theorem page_lists_own_pages (h : RequestsReached a) :
    (∃ runs, Owned a.pages runs ∧ Matches runs a.served) ∧
      ∀ t size, 1 ≤ size → size ≤ numPages * pageSize →
        ((freePages a.pages).length < pageCount size ∧
          pageMalloc t size a.pages = some (0, a.pages)) ∨
        (pageCount size ≤ (freePages a.pages).length ∧ ∃ u, pageMalloc t size a.pages =
          some ((a.pages.memory + (a.pages.owner t).numPages * pageSize + 1).toNat, u)) := by
  obtain ⟨hinit, runs, howned, hmatch⟩ := reached_owned h
  refine ⟨⟨runs, howned, hmatch⟩, ?_⟩
  intro t size h₁ h₂
  obtain ⟨hneed, hpos⟩ := pagesNeeded_request h₁ h₂
  rcases pageMalloc_spec howned hinit hpos t with ⟨hfew, hfail⟩ | ⟨hroom, p, u, pages, hok, hs⟩
  · exact Or.inl ⟨by omega, hfail⟩
  · refine Or.inr ⟨by omega, u, ?_⟩
    have hcount := howned.count t
    have haddr : (a.pages.memory + (a.pages.owner t).numPages * pageSize + 1 : Int).toNat =
        a.pages.memory + (runs t).flatten.length * pageSize + 1 := by
      rw [hcount]
      omega
    rw [hok, hs.result, haddr]

/-- A request that fits is served. -/
theorem RequestStep.serve {runs : Nat → List (List Page)} (ha : RequestsReached a)
    (howned : Owned a.pages runs) (hinit : a.pages.pageInit = true) (h₁ : 1 ≤ size)
    (h₂ : size ≤ numPages * pageSize) (hroom : pageCount size ≤ (freePages a.pages).length)
    (t : Nat) : ∃ b pages, RequestsReached b ∧ Owned b.pages (withRun runs t pages) ∧
      b.pages.pageInit = true ∧ b.served = Function.update a.served t (a.served t ++ [size]) := by
  obtain ⟨hneed, hpos⟩ := pagesNeeded_request h₁ h₂
  rcases pageMalloc_spec howned hinit hpos t with ⟨hfew, _⟩ | ⟨_, p, u, pages, hok, hs⟩
  · omega
  · have hp : p ≠ 0 := by
      rw [hs.result]
      omega
    have hstep : RequestStep a (t, size) ⟨u, Function.update a.served t (a.served t ++ [size])⟩ :=
      ⟨h₁, h₂, p, hok, (if_neg hp).symm⟩
    exact ⟨_, pages, ha.next hstep, hs.owned, hs.init, rfl⟩

/-- Every page is free at the start. -/
theorem freePages_initial {s : Pages} (h : InitialPages s) : (freePages s).length = numPages := by
  obtain ⟨s₀, rfl, _⟩ := h
  have hall : freePages { pageMallocInit s₀ with pageInit := true } = List.finRange numPages := by
    apply List.filter_eq_self.mpr
    intro i _
    rfl
  rw [hall, List.length_finRange]

/-- A thread has asked for two pages. -/
theorem page_lists_own_pages_twoPages : ∃ a : Requests,
    a.served 0 = [5000] ∧ ∃ runs, Owned a.pages runs ∧ Matches runs a.served := by
  have hstart : InitialPages
      { pageMallocInit ⟨4096, false, fun _ => ⟨0, none, none, 0, 0, 0⟩, fun t => ⟨t, none, 0⟩⟩ with
        pageInit := true } := ⟨_, rfl, fun _ => ⟨rfl, rfl⟩⟩
  have h₀ : RequestsReached ⟨_, fun _ => []⟩ := Reach.start ⟨hstart, rfl⟩
  obtain ⟨b, pages, hb, _, _, hserved⟩ := RequestStep.serve h₀ (owned_initial hstart) rfl
    (show 1 ≤ 5000 by decide) (by decide) (by rw [freePages_initial hstart]; decide) 0
  refine ⟨b, ?_, (page_lists_own_pages hb).1⟩
  simp [hserved]

end Requests

end Paging
