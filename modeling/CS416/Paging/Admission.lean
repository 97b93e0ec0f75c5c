import CS416.Paging.Freeing

/-!
# Which requests `page_malloc` admits

The number of pages of a request is a `size_t` that is stored in an `int`, and
0 for a request of no bytes.  `page_malloc` admits exactly the requests that
fit where the `int` is positive, and is either that number of pages or more
than there are free pages.
-/

namespace Paging

open CInt Chain

/-- The places of `free_pages` that the search writes, from `pos` on. -/
def searchWrites (d : Page → PageMeta) : List Page → Int → Int → List Int
  | [], _, _ => []
  | i :: rest, pos, remaining =>
    if (d i).free ≠ 0 then
      if remaining - 1 = 0 then [pos]
      else pos :: searchWrites d rest (pos + 1) (remaining - 1)
    else searchWrites d rest pos remaining

/-- `page_malloc` leaves the search with pages still needed, and sets `errno` to `ENOMEM`. -/
def SetsEnomem (size : Nat) (s : Pages) : Prop :=
  (searchFree s.pageData (List.finRange numPages) (pagesNeeded size)).2 ≠ 0

/-- The thread `t` got `n` pages, and nothing else changed hands. -/
structure Marks (s : Pages) (t n : Nat) (u : Pages) (pages : List Page) : Prop where
  nodup : pages.Nodup
  length : pages.length = n
  wasFree : ∀ i ∈ pages, (s.pageData i).free ≠ 0
  free : ∀ i, (u.pageData i).free = if i ∈ pages then 0 else (s.pageData i).free
  holder : ∀ i, (u.pageData i).free = 0 →
    (u.pageData i).TID = if i ∈ pages then (s.owner t).id else (s.pageData i).TID

/-- The request of `t` is refused if too few pages are free, and else served with the pages it
asks for; the search stays inside `free_pages`. -/
structure Admits (t size : Nat) (s : Pages) : Prop where
  within : ∀ p ∈ searchWrites (ready s).pageData (List.finRange numPages) 0 (pagesNeeded size),
    0 ≤ p ∧ p < pagesNeeded size
  refuses : (freePages (ready s)).length < max 1 (pageCount size) →
    pageMalloc t size s = some (0, ready s) ∧ SetsEnomem size (ready s)
  serves : max 1 (pageCount size) ≤ (freePages (ready s)).length →
    ∃ p u pages, pageMalloc t size s = some (p, u) ∧ p ≠ 0 ∧
      Marks (ready s) t (max 1 (pageCount size)) u pages

/-- The number of pages as an `int` is positive, and right or more than what is free. -/
def CountFits (size : Nat) (s : Pages) : Prop :=
  0 < pageCount size % 4294967296 ∧ pageCount size % 4294967296 < 2147483648 ∧
    (pageCount size < 2147483648 ∨ (freePages (ready s)).length < pageCount size % 4294967296)

section Count

variable {size : Nat}

/-- The `int` holds the page count modulo 2^32. -/
theorem pagesNeeded_bmod (size : Nat) : pagesNeeded size = toInt (pageCount size) := by
  by_cases hmod : size % pageSize = 0
  · have hcount : pageCount size = size / pageSize := by
      unfold pageCount
      simp only [pageSize] at hmod ⊢
      omega
    rw [pagesNeeded, if_pos hmod, hcount]
  · have hcount : pageCount size = size / pageSize + 1 := by
      unfold pageCount
      simp only [pageSize] at hmod ⊢
      omega
    rw [pagesNeeded, if_neg hmod, hcount, Nat.cast_add, Nat.cast_one]
    exact Int.bmod_add_bmod

private theorem pagesNeeded_pos_iff : 0 < pagesNeeded size ↔
    0 < pageCount size % 4294967296 ∧ pageCount size % 4294967296 < 2147483648 := by
  rw [pagesNeeded_bmod, toInt, Int.bmod_def]
  split <;> omega

private theorem pagesNeeded_of_pos (h : 0 < pagesNeeded size) :
    pagesNeeded size = (pageCount size % 4294967296 : Nat) := by
  have hhalf := (pagesNeeded_pos_iff.mp h).2
  rw [pagesNeeded_bmod, toInt, Int.bmod_def, if_pos (by omega), Int.natCast_emod]

end Count

section Search

variable {d : Page → PageMeta} {l : List Page} {n : Int}

/-- The search writes one place for each page it finds, in order. -/
theorem searchWrites_eq (d : Page → PageMeta) (l : List Page) (pos n : Int) :
    searchWrites d l pos n =
      (List.range (searchFree d l n).1.length).map fun k : Nat => pos + k := by
  induction l generalizing pos n with
  | nil => rfl
  | cons i rest ih =>
      simp only [searchWrites, searchFree]
      by_cases hfree : (d i).free ≠ 0
      · rw [if_pos hfree, if_pos hfree]
        by_cases hlast : n - 1 = 0
        · rw [if_pos hlast, if_pos hlast]
          simp
        · rw [if_neg hlast, if_neg hlast, ih]
          simp only [List.length_cons, List.range_succ_eq_map, List.map_cons, List.map_map]
          congr 1
          · omega
          · refine List.map_congr_left fun k _ => ?_
            simp only [Function.comp_apply, Nat.succ_eq_add_one]
            omega
      · rw [if_neg hfree, if_neg hfree, ih]

/-- An array of at least one element is not left. -/
theorem searchWrites_within (hn : 0 < n) : ∀ p ∈ searchWrites d l 0 n, 0 ≤ p ∧ p < n := by
  intro p hp
  rw [searchWrites_eq, searchFree_eq hn] at hp
  obtain ⟨k, hk, rfl⟩ := List.mem_map.mp hp
  have hlt := List.mem_range.mp hk
  split at hlt
  · rw [List.length_take] at hlt
    omega
  · dsimp only at hlt
    omega

end Search

section Admits

variable {s u : Pages} {runs : Nat → List (List Page)} {t size p : Nat} {pages : List Page}

/-- Which pages a served request marks. -/
theorem Served.marks (h : Owned s runs) (hs : Served s t size runs p u pages) :
    Marks s t pages.length u pages := by
  have hsub : ∀ i ∈ pages, i ∈ freePages s := by
    intro i hi
    rw [hs.pages_eq] at hi
    exact List.mem_of_mem_take hi
  have hwas : ∀ i ∈ pages, (s.pageData i).free ≠ 0 := fun i hi =>
    of_decide_eq_true (List.mem_filter.mp (hsub i hi)).2
  have hnew : ∀ i, i ∈ (withRun runs t pages t).flatten ↔ i ∈ (runs t).flatten ∨ i ∈ pages := by
    intro i
    rw [withRun_self, List.mem_append]
  -- a page that is not new is on the same list as before
  have hkept : ∀ i, i ∉ pages → ∀ v, i ∈ (withRun runs t pages v).flatten ↔
      i ∈ (runs v).flatten := by
    intro i hi v
    by_cases hv : v = t
    · rw [hv, hnew]
      exact or_iff_left hi
    · rw [withRun_ne hv]
  refine ⟨?_, rfl, hwas, ?_, ?_⟩
  · rw [hs.pages_eq]
    exact List.Nodup.sublist (List.take_sublist _ _) freePages_nodup
  · intro i
    by_cases hi : i ∈ pages
    · rw [if_pos hi]
      exact (hs.owned.used t i ((hnew i).mpr (Or.inr hi))).1
    · rw [if_neg hi]
      by_cases hlist : ∃ v, i ∈ (runs v).flatten
      · obtain ⟨v, hv⟩ := hlist
        rw [(h.used v i hv).1]
        exact (hs.owned.used v i ((hkept i hi v).mpr hv)).1
      · have hnone := not_exists.mp hlist
        rw [h.unused i hnone]
        exact hs.owned.unused i fun v hv => hnone v ((hkept i hi v).mp hv)
  · intro i hfree
    by_cases hi : i ∈ pages
    · rw [if_pos hi, ← hs.id t]
      exact (hs.owned.used t i ((hnew i).mpr (Or.inr hi))).2
    · rw [if_neg hi]
      have hlist : ∃ v, i ∈ (runs v).flatten := by
        by_contra hnone
        have hone := hs.owned.unused i fun v hv =>
          hnone ⟨v, (hkept i hi v).mp hv⟩
        rw [hfree] at hone
        cases hone
      obtain ⟨v, hv⟩ := hlist
      rw [(h.used v i hv).2, ← hs.id v]
      exact (hs.owned.used v i ((hkept i hi v).mpr hv)).2

/-- A request for a positive number of pages that are not there. -/
theorem setsEnomem_of_short (hn : 0 < pagesNeeded size)
    (hshort : (freePages s).length < pagesNeeded size) : SetsEnomem size s := by
  unfold freePages at hshort
  unfold SetsEnomem
  rw [searchFree_eq hn, if_neg (not_le.mpr hshort)]
  exact sub_ne_zero.mpr hshort.ne'

/-- A request for no or a negative number of pages. -/
theorem pageMalloc_of_nonpos (hn : ¬ 0 < pagesNeeded size) : pageMalloc t size s = none := by
  unfold pageMalloc
  exact if_pos (not_lt.mp hn)

private theorem freePages_length_le : (freePages s).length ≤ numPages := by
  unfold freePages
  exact (List.length_filter_le _ _).trans (List.length_finRange).le

/-- The number of pages survives the conversion to `int`, up to a multiple of 2^32. -/
theorem CountFits.needed (h : CountFits size s) : 0 < pagesNeeded size ∧
    pagesNeeded size = (pageCount size % 4294967296 : Nat) :=
  ⟨pagesNeeded_pos_iff.mpr ⟨h.1, h.2.1⟩, pagesNeeded_of_pos (pagesNeeded_pos_iff.mpr ⟨h.1, h.2.1⟩)⟩

/-- A count that fits is compared with the free pages as the request itself is. -/
theorem CountFits.short_iff (h : CountFits size s) :
    ((freePages (ready s)).length : Int) < pagesNeeded size ↔
      (freePages (ready s)).length < max 1 (pageCount size) := by
  have hneed := h.needed.2
  have hle : pageCount size % 4294967296 ≤ pageCount size := Nat.mod_le _ _
  rcases h.2.2 with hsmall | hmany
  · have hpos := h.1
    rw [Nat.mod_eq_of_lt (by omega)] at hneed hpos
    omega
  · omega

/-- **The condition is enough.** -/
theorem CountFits.admits (howned : Owned (ready s) runs) (h : CountFits size s) (t : Nat) :
    Admits t size s := by
  obtain ⟨hpos, hneed⟩ := h.needed
  have hspec := pageMalloc_spec howned (ready_init s) hpos t
  rw [← pageMalloc_ready] at hspec
  refine ⟨searchWrites_within hpos, ?_, ?_⟩
  · intro hfull
    have hshort := h.short_iff.mpr hfull
    refine ⟨?_, setsEnomem_of_short hpos hshort⟩
    rcases hspec with ⟨_, hcall⟩ | ⟨hroom, _⟩
    · exact hcall
    · exact absurd hshort (not_lt.mpr hroom)
  · intro hroom
    have hnot : ¬ (freePages (ready s)).length < max 1 (pageCount size) := not_lt.mpr hroom
    rcases hspec with ⟨hshort, _⟩ | ⟨_, p, u, pages, hcall, hs⟩
    · exact absurd (h.short_iff.mp hshort) hnot
    · have hsmall : pageCount size < 2147483648 := by
        rcases h.2.2 with hsmall | hmany
        · exact hsmall
        · exact absurd (h.short_iff.mp (by omega)) hnot
      have hlen : pages.length = max 1 (pageCount size) := by
        have hlength := hs.length
        have hcount := h.1
        rw [hneed, Nat.mod_eq_of_lt (by omega)] at hlength
        omega
      refine ⟨p, u, pages, hcall, ?_, ?_⟩
      · rw [hs.result]
        omega
      · rw [← hlen]
        exact hs.marks howned

/-- A request that is admitted when it fits has a count that is not cut off. -/
theorem Admits.countFits (howned : Owned (ready s) runs) (h : Admits t size s) :
    CountFits size s := by
  have hfew := freePages_length_le (s := ready s)
  simp only [numPages] at hfew
  have hpos : 0 < pagesNeeded size := by
    by_contra hn
    have hnone : pageMalloc t size s = none := pageMalloc_of_nonpos hn
    rcases Nat.lt_or_ge (freePages (ready s)).length (max 1 (pageCount size)) with hl | hl
    · have hcall := (h.refuses hl).1
      rw [hnone] at hcall
      cases hcall
    · obtain ⟨p, u, pages, hcall, _⟩ := h.serves hl
      rw [hnone] at hcall
      cases hcall
  obtain ⟨hnonzero, hhalf⟩ := pagesNeeded_pos_iff.mp hpos
  refine ⟨hnonzero, hhalf, ?_⟩
  by_contra hfar
  -- more pages than there are were asked for, but few enough are looked for
  obtain ⟨hlarge, henough⟩ := not_or.mp hfar
  have hneed := pagesNeeded_of_pos hpos
  rcases pageMalloc_spec howned (ready_init s) hpos t with ⟨hshort, _⟩ | ⟨_, p, u, pages, hcall, hs⟩
  · omega
  · have hrefused := (h.refuses (by omega)).1
    rw [pageMalloc_ready, hcall] at hrefused
    have hzero := (Prod.mk.inj (Option.some.inj hrefused)).1
    rw [hs.result] at hzero
    omega

end Admits

/-- Calls of `page_malloc`. -/
def OnlyMalloc (_ : Session) : Call → Prop
  | .malloc _ _ => True
  | .free _ _ => False

/-- **Admission.**  In every state that calls of `page_malloc` reach, a request is admitted
exactly when it fits if and only if its page count fits. -/
theorem admits_iff_countFits {a : Session} (h : Passed OnlyMalloc a) (t size : Nat) :
    Admits t size a.pages ↔ CountFits size a.pages := by
  obtain ⟨runs, howned⟩ := (holding_of_passed h).owned
  exact ⟨fun hadmits => hadmits.countFits howned, fun hfits => hfits.admits howned t⟩

/-- After a request of two pages, one of 2^32 + 255 pages. -/
theorem admits_iff_countFits_wrapped : ∃ a : Session, a.live.map Alloc.address = [8193] ∧
    (Admits 1 17592187088896 a.pages ↔ CountFits 17592187088896 a.pages) := by
  have hsome : ((freshSession.pass (.malloc 0 5000)).map fun a => a.live.map Alloc.address) =
      some [8193] := by decide +kernel
  obtain ⟨a, hpass, hlive⟩ := Option.map_eq_some_iff.mp hsome
  have hmalloc : OnlyMalloc freshSession (.malloc 0 5000) := trivial
  exact ⟨a, hlive, admits_iff_countFits (passed_freshSession.next ⟨hmalloc, hpass⟩) 1 _⟩

/-- A request of no bytes, where all pages are free: the first page found is stored in an array
without elements. -/
theorem empty_request_leaves_array : ¬ ∀ a, Passed OnlyMalloc a → ∀ t size,
    size < 18446744073709551616 → Admits t size a.pages := by
  intro hclaim
  have hwithin := (hclaim freshSession passed_freshSession 0 0 (by decide)).within
  have hwrites : 0 ∈ searchWrites (ready freshSession.pages).pageData (List.finRange numPages) 0
      (pagesNeeded 0) := by decide +kernel
  have hlt := (hwithin 0 hwrites).2
  revert hlt
  decide +kernel

end Paging
