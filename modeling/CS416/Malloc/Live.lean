import CS416.Lib.Reach
import CS416.Malloc.Calls

/-!
# Live allocations

A session is the heap together with the allocations handed out and not yet
freed, each an address with the size asked for.  Live allocations hold
disjoint sets of pages in every session.  They hold all the pages in use only
as long as no allocation of several pages is freed and every run of pages that
is taken ends before a page in use: the marking loop takes one page more, and
`myfree` gives back the first page only.
-/

namespace Malloc

open Runs

/-- The calls of a program. -/
inductive Call
  | malloc (size : Nat)
  | free (p : Nat)

/-- The heap and the live allocations. -/
structure Session where
  heap : Heap
  live : List (Nat × Nat)

/-- One call that returns; `free` is called on `NULL` or on a live allocation. -/
def Step (mem : Nat) (a : Session) : Call → Session → Prop
  | .malloc size, b => ∃ p, mymalloc mem size THREADREQ a.heap = some (p, b.heap) ∧
      b.live = if p = 0 then a.live else (p, size) :: a.live
  | .free p, b => (p = 0 ∨ p ∈ a.live.map Prod.fst) ∧ myfree mem p a.heap = some b.heap ∧
      b.live = a.live.filter fun x => x.1 ≠ p

/-- Sessions reached from the start by calls that satisfy `ok` when made. -/
def Reached (mem : Nat) (ok : Session → Call → Prop) : Session → Prop :=
  Reach (fun a => a.heap = Heap.start ∧ a.live = []) fun a c b => ok a c ∧ Step mem a c b

/-- `ceil(size / PAGE_SIZE)`, at least one -/
def pageCount (size : Nat) : Nat := max 1 ((size + pageSize - 1) / pageSize)

/-- The pages of an allocation. -/
def pagesOf (mem : Nat) (x : Nat × Nat) : Set Nat :=
  {i | ∃ f, x.1 = pageStart mem f ∧ f ≤ i ∧ i < f + pageCount x.2}

/-- The pages that are laid out and in use. -/
def usedPages (h : Heap) : Set Nat :=
  {i | i < pageTotal ∧ (h i).pageNum ≠ 0 ∧ (h i).isFree = 0}

/-- The pages in use are the pages of the live allocations. -/
def Accounted (mem : Nat) (a : Session) : Prop :=
  ∀ i, i ∈ usedPages a.heap ↔ ∃ x ∈ a.live, i ∈ pagesOf mem x

/-- The condition on a call: an allocation of several pages is refused or ends before a page
in use or at the end of the table, and what is freed is one page. -/
def PageExact (mem : Nat) (a : Session) : Call → Prop
  | .malloc size => size ≤ pageSize ∨ 83886 < size ∨
      (∃ f, FirstRun (ready mem a.heap) f 1 ∧ 7920000 < pageSize * f + size) ∨
      ∃ s, FirstRun (ready mem a.heap) s (pageCount size) ∧
        (s + pageCount size < pageTotal → (ready mem a.heap (s + pageCount size)).isFree = 0)
  | .free p => ∀ size, (p, size) ∈ a.live → size ≤ pageSize

/-- What holds of every session. -/
structure Sound (mem : Nat) (a : Session) : Prop where
  table : a.heap = Heap.start ∧ a.live = [] ∨ Table mem a.heap
  held : Held (pagesOf mem) (usedPages a.heap) a.live
  placed : ∀ x ∈ a.live, ∃ f, x.1 = pageStart mem f ∧ f + pageCount x.2 ≤ pageTotal

section Counting

variable {mem size f i : Nat} {h : Heap}

private theorem pageCount_pos (size : Nat) :
    0 < pageCount size :=
  Nat.lt_of_lt_of_le Nat.one_pos (Nat.le_max_left _ _)

private theorem pageCount_small (hsize : size ≤ pageSize) : pageCount size = 1 := by
  simp only [pageSize] at hsize
  simp only [pageCount, pageSize]
  omega

private theorem pageCount_large (hsize : pageSize < size) : pageCount size = numPageNeed size := by
  simp only [pageSize] at hsize
  simp only [pageCount, numPageNeed, pageSize]
  split <;> omega

/-- The pages of an allocation have room for it. -/
theorem le_pageCount (size : Nat) : size ≤ pageSize * pageCount size := by
  simp only [pageCount, pageSize]
  omega

private theorem pageStart_pos : 0 < pageStart mem f := by
  simp only [pageStart, pageAreaStart, totSize]
  omega

/-- The pages of an allocation follow the one it starts at. -/
theorem mem_pagesOf : i ∈ pagesOf mem (pageStart mem f, size) ↔
    f ≤ i ∧ i < f + pageCount size := by
  constructor
  · rintro ⟨f', heq, hi⟩
    obtain rfl : f = f' := pageStart_inj heq
    exact hi
  · exact fun hi => ⟨f, rfl, hi⟩

private theorem usedPages_start : usedPages Heap.start = ∅ := by
  refine Set.eq_empty_of_forall_notMem fun i hi => ?_
  exact hi.2.1 rfl

private theorem Table.mem_usedPages (ht : Table mem h) :
    i ∈ usedPages h ↔ i < pageTotal ∧ (h i).isFree = 0 :=
  ⟨fun hi => ⟨hi.1, hi.2.2⟩, fun hi => ⟨hi.1, ht.pageNum i hi.1, hi.2⟩⟩

/-- Laying out the table takes no page. -/
theorem ready_spec (ht : h = Heap.start ∨ Table mem h) :
    Table mem (ready mem h) ∧ usedPages (ready mem h) = usedPages h := by
  rcases ht with rfl | ht
  · rw [ready_start, usedPages_start]
    refine ⟨table_fresh, Set.eq_empty_of_forall_notMem fun i hi => ?_⟩
    have hmem : i ∈ inUse (freshBlock mem) := ⟨hi.1, hi.2.2⟩
    rw [inUse_fresh] at hmem
    exact hmem
  · rw [ht.ready]
    exact ⟨ht, rfl⟩

private theorem mymalloc_ready {request : Int} (ht : Table mem (ready mem h)) :
    mymalloc mem size request (ready mem h) = mymalloc mem size request h := by
  unfold mymalloc
  rw [ht.ready]

end Counting

section Steps

variable {mem size p : Nat} {a b : Session}

/-- What `malloc` does to the pages in use and to the live allocations. -/
inductive Effect (mem size : Nat) (a b : Session) : Prop
  | same (hused : usedPages b.heap = usedPages a.heap) (hlive : b.live = a.live)
      (hexact : PageExact mem a (.malloc size))
  | took {f n : Nat} (hlive : b.live = (pageStart mem f, size) :: a.live)
      (hroom : f + pageCount size ≤ pageTotal) (hn : pageCount size ≤ n)
      (hfree : ∀ i, f ≤ i → i < f + pageCount size → i ∉ usedPages a.heap)
      (hused : usedPages b.heap =
        usedPages a.heap ∪ {i | f ≤ i ∧ i < f + n ∧ i < pageTotal})
      (hexact : PageExact mem a (.malloc size) ↔ ∀ i, f + pageCount size ≤ i → i < f + n →
        i < pageTotal → i ∈ usedPages a.heap)
  | lost {s : Nat} (hlive : b.live = a.live) (hfree : s ∉ usedPages a.heap)
      (htaken : s ∈ usedPages b.heap) (hsub : usedPages a.heap ⊆ usedPages b.heap)
      (hexact : ¬ PageExact mem a (.malloc size))

private theorem usedPages_setFree {h : Heap} {f : Nat} (ht : Table mem h) (hf : f < pageTotal) :
    usedPages (Function.update h f { h f with isFree := 0 }) =
      usedPages h ∪ {i | f ≤ i ∧ i < f + 1 ∧ i < pageTotal} := by
  ext i
  rw [(ht.setFree hf 0).mem_usedPages, setFree_apply, Set.mem_union, ht.mem_usedPages]
  simp only [Set.mem_ofPred_eq]
  split <;> omega

private theorem usedPages_markPages {h : Heap} {s n : Nat} (ht : Table mem h) :
    usedPages (markPages s n h) =
      usedPages h ∪ {i | s ≤ i ∧ i < s + n ∧ i < pageTotal} := by
  ext i
  rw [(ht.markPages s n).mem_usedPages, markPages_isFree, Set.mem_union, ht.mem_usedPages]
  simp only [Set.mem_ofPred_eq]
  split <;> omega

private theorem FirstRun.not_used {h : Heap} {s n : Nat} (hrun : FirstRun h s n) :
    ∀ i, s ≤ i → i < s + n → i ∉ usedPages h :=
  fun i hi₀ hi₁ hi => hrun.1.2 i hi₀ hi₁ hi.2.2

/-- A run is exact if the page behind it is in use or there is none. -/
theorem pageExact_run {s : Nat} (ht : Table mem (ready mem a.heap)) (hsize : pageSize < size)
    (hlimit : size ≤ 83886)
    (hnear : ∀ f, FirstRun (ready mem a.heap) f 1 → pageSize * f + size ≤ 7920000)
    (hrun : FirstRun (ready mem a.heap) s (pageCount size)) :
    PageExact mem a (.malloc size) ↔ ∀ i, s + pageCount size ≤ i →
      i < s + (pageCount size + 1) → i < pageTotal → i ∈ usedPages (ready mem a.heap) := by
  constructor
  · rintro (hsmall | hbig | ⟨f, hf, hfar⟩ | ⟨r, hr, hnext⟩) i hi₀ hi₁ hi₂
    · omega
    · omega
    · have hle := hnear f hf
      omega
    · obtain rfl := hr.unique hrun
      obtain rfl : i = r + pageCount size := by omega
      exact ht.mem_usedPages.mpr ⟨hi₂, hnext hi₂⟩
  · intro hnext
    exact Or.inr (Or.inr (Or.inr ⟨s, hrun, fun hlt =>
      (hnext _ le_rfl (by omega) hlt).2.2⟩))

/-- **A step of `mymalloc`** keeps the table in order and has its effect. -/
theorem malloc_effect (hs : Sound mem a) (hstep : Step mem a (.malloc size) b) :
    Table mem b.heap ∧ Effect mem size a b := by
  obtain ⟨p, hcall, hlive⟩ := hstep
  obtain ⟨ht, hready⟩ := ready_spec (hs.table.imp_left And.left)
  rw [← mymalloc_ready ht] at hcall
  have hspec := mymalloc_spec ht hcall
  have hpage : ∀ f, (if pageStart mem f = 0 then a.live else (pageStart mem f, size) :: a.live) =
      (pageStart mem f, size) :: a.live := fun f => if_neg pageStart_pos.ne'
  generalize hb : b.heap = t at hspec
  cases hspec with
  | refused hwhy =>
      refine ⟨ht, Effect.same (by rw [hb, hready]) hlive ?_⟩
      rcases hwhy with hbig | hfar | ⟨hsmall, _⟩
      · exact Or.inr (Or.inl hbig)
      · exact Or.inr (Or.inr (Or.inl hfar))
      · exact Or.inl hsmall
  | @page f hsize hrun hroom =>
      have hone := pageCount_small hsize
      refine ⟨ht.setFree (Nat.lt_of_lt_of_le (Nat.lt_succ_self f) hrun.1.1) 0,
        Effect.took (hlive.trans (hpage f)) (by rw [hone]; exact hrun.1.1) le_rfl ?_ ?_ ?_⟩
      · rw [hone, ← hready]
        exact hrun.not_used
      · rw [hb, hone, ← hready]
        exact usedPages_setFree ht (Nat.lt_of_lt_of_le (Nat.lt_succ_self f) hrun.1.1)
      · exact ⟨fun _ i hi₀ hi₁ => absurd hi₁ (by omega), fun _ => Or.inl hsize⟩
  | @run s hsize hlimit hnear hrun =>
      rw [← pageCount_large hsize] at hrun
      rw [← pageCount_large hsize] at hb ⊢
      refine ⟨ht.markPages _ _, Effect.took (hlive.trans (hpage s)) hrun.1.1
        (Nat.le_succ _) ?_ ?_ ?_⟩
      · rw [← hready]
        exact hrun.not_used
      · rw [hb, ← hready]
        exact usedPages_markPages ht
      · rw [← hready]
        exact pageExact_run ht hsize hlimit hnear hrun
  | @failed s hsize hlimit hnear hnone hlt hfree =>
      have hmark := usedPages_markPages (s := s) (n := numPageNeed size + 1) ht
      have hunused : s ∉ usedPages a.heap := hready ▸ fun hmem => hfree hmem.2.2
      refine ⟨ht.markPages _ _, Effect.lost hlive hunused ?_ ?_ ?_⟩
      · rw [hb, hmark]
        exact Or.inr ⟨le_rfl, by omega, hlt⟩
      · rw [hb, hmark, ← hready]
        exact Set.subset_union_left
      · rintro (hsmall | hbig | ⟨f, hf, hfar⟩ | ⟨r, hr, _⟩)
        · omega
        · omega
        · have hle := hnear f hf
          omega
        · rw [pageCount_large hsize] at hr
          exact hnone r hr.1

/-- What `free` does to them. -/
theorem free_effect (hmem : 0 < mem) (hs : Sound mem a) (hstep : Step mem a (.free p) b) :
    p = 0 ∧ b.heap = a.heap ∧ b.live = a.live ∨
      ∃ k size, (p, size) ∈ a.live ∧ p = pageStart mem k ∧ k + pageCount size ≤ pageTotal ∧
        b.live = a.live.filter (fun x => x.1 ≠ p) ∧ Table mem b.heap ∧
        usedPages b.heap = usedPages a.heap \ {k} := by
  obtain ⟨hp, hcall, hlive⟩ := hstep
  rcases hp with rfl | hp
  · rw [myfree_null hmem] at hcall
    refine Or.inl ⟨rfl, (Option.some.inj hcall).symm, hlive.trans (List.filter_eq_self.mpr ?_)⟩
    intro x hx
    obtain ⟨f, hf, _⟩ := hs.placed x hx
    simp [hf, pageStart_pos.ne']
  · obtain ⟨⟨q, size⟩, hx, rfl⟩ := List.mem_map.mp hp
    obtain ⟨k, hk, hroom⟩ := hs.placed _ hx
    dsimp only at hk hroom hcall hlive
    subst hk
    have hpos := pageCount_pos size
    have hlt : k < pageTotal := by omega
    have ht : Table mem a.heap := by
      rcases hs.table with ⟨_, hnil⟩ | ht
      · rw [hnil] at hx
        cases hx
      · exact ht
    obtain ⟨ht', hflags⟩ := myfree_spec ht hlt hcall
    refine Or.inr ⟨k, size, hx, rfl, hroom, hlive, ht', ?_⟩
    ext i
    rw [ht'.mem_usedPages, hflags, Set.mem_sdiff, ht.mem_usedPages, Set.mem_singleton_iff]
    split
    · simp_all
    · simp_all

/-- **One call keeps live allocations apart.** -/
theorem Sound.step (hmem : 0 < mem) (hs : Sound mem a) {c : Call} (hstep : Step mem a c b) :
    Sound mem b := by
  cases c with
  | malloc size =>
      obtain ⟨ht, heffect⟩ := malloc_effect hs hstep
      cases heffect with
      | same hused hlive _ => exact ⟨Or.inr ht, by rw [hused, hlive]; exact hs.held,
          by rw [hlive]; exact hs.placed⟩
      | @took f n hlive hroom hn hfree hused _ =>
          refine ⟨Or.inr ht, ?_, ?_⟩
          · rw [hlive, hused]
            refine hs.held.enter (fun i hi => ?_) Set.subset_union_left fun i hi => Or.inr ?_
            · obtain ⟨hi₀, hi₁⟩ := mem_pagesOf.mp hi
              exact hfree i hi₀ hi₁
            · obtain ⟨hi₀, hi₁⟩ := mem_pagesOf.mp hi
              exact ⟨hi₀, by omega, by omega⟩
          · rw [hlive]
            intro x hx
            rcases List.mem_cons.mp hx with rfl | hx
            · exact ⟨f, rfl, hroom⟩
            · exact hs.placed x hx
      | lost hlive _ _ hsub _ =>
          exact ⟨Or.inr ht, by rw [hlive]; exact hs.held.mono hsub,
            by rw [hlive]; exact hs.placed⟩
  | free p =>
      rcases free_effect hmem hs hstep with
        ⟨_, hheap, hlive⟩ | ⟨k, size, hx, rfl, hroom, hlive, ht, hused⟩
      · obtain ⟨heap, live⟩ := b
        obtain rfl : heap = a.heap := hheap
        obtain rfl : live = a.live := hlive
        exact hs
      · refine ⟨Or.inr ht, ?_, ?_⟩
        · rw [hlive, hused]
          refine hs.held.keep fun y hy hne i hi => ⟨hs.held.within y hy hi, ?_⟩
          rintro rfl
          have hk : i ∈ pagesOf mem (pageStart mem i, size) :=
            mem_pagesOf.mpr ⟨le_rfl, Nat.lt_add_of_pos_right (pageCount_pos size)⟩
          obtain rfl := hs.held.eq_of_mem hx hy hk hi
          simp at hne
        · rw [hlive]
          exact fun x hx => hs.placed x (List.mem_filter.mp hx).1

/-- **What holds of every session that can be reached.** -/
theorem reached_sound (hmem : 0 < mem) {ok : Session → Call → Prop} (h : Reached mem ok a) :
    Sound mem a := by
  refine h.invariant (fun s hs => ?_) fun s c t _ hI hstep => hI.step hmem hstep.2
  obtain ⟨hheap, hlive⟩ := hs
  refine ⟨Or.inl ⟨hheap, hlive⟩, by rw [hlive]; exact Held.nil, ?_⟩
  rw [hlive]
  intro x hx
  cases hx

/-- Disjoint sets of pages are disjoint ranges of bytes. -/
theorem ranges_disjoint {x y : Nat × Nat} (hx : ∃ f, x.1 = pageStart mem f)
    (hy : ∃ f, y.1 = pageStart mem f) (hdisj : Disjoint (pagesOf mem x) (pagesOf mem y)) :
    x.1 + x.2 ≤ y.1 ∨ y.1 + y.2 ≤ x.1 := by
  obtain ⟨p, m⟩ := x
  obtain ⟨q, n⟩ := y
  obtain ⟨f, rfl⟩ := hx
  obtain ⟨g, rfl⟩ := hy
  have hm := le_pageCount m
  have hn := le_pageCount n
  have hm₀ := pageCount_pos m
  have hn₀ := pageCount_pos n
  simp only [pageStart, pageSize] at hm hn ⊢
  rcases le_total f g with hfg | hgf
  · have hg : g ∉ pagesOf mem (pageStart mem f, m) := fun hg =>
      Set.disjoint_left.mp hdisj hg (mem_pagesOf.mpr ⟨le_rfl, by omega⟩)
    rw [mem_pagesOf] at hg
    exact Or.inl (by omega)
  · have hf : f ∉ pagesOf mem (pageStart mem g, n) := fun hf =>
      Set.disjoint_right.mp hdisj hf (mem_pagesOf.mpr ⟨le_rfl, by omega⟩)
    rw [mem_pagesOf] at hf
    exact Or.inr (by omega)

end Steps

section Claims

variable {mem size : Nat} {a b : Session}

section Examples

variable {h : Heap} {f : Nat}

/-- A page is handed out. -/
theorem step_page (hready : ready mem a.heap = h) (ht : Table mem h) (hsize : size ≤ pageSize)
    (hrun : FirstRun h f 1) (hroom : pageSize * f + size ≤ 7920000) :
    Step mem a (.malloc size)
      ⟨Function.update h f { h f with isFree := 0 }, (pageStart mem f, size) :: a.live⟩ := by
  obtain ⟨p, t, hcall⟩ := mymalloc_returns mem a.heap THREADREQ hsize
  have hspec := hcall
  rw [← mymalloc_ready (hready ▸ ht), hready] at hspec
  obtain ⟨rfl, rfl⟩ := (mymalloc_spec ht hspec).eq_page hsize hrun hroom
  exact ⟨_, hcall, (if_neg pageStart_pos.ne').symm⟩

/-- A run of pages is handed out. -/
theorem step_run (hready : ready mem a.heap = h) (ht : Table mem h) (hsize : pageSize < size)
    (hlimit : size ≤ 83886) (hnear : ∀ r, FirstRun h r 1 → pageSize * r + size ≤ 7920000)
    (hrun : FirstRun h f (numPageNeed size)) :
    Step mem a (.malloc size)
      ⟨markPages f (numPageNeed size + 1) h, (pageStart mem f, size) :: a.live⟩ := by
  obtain ⟨p, t, hcall⟩ := mymalloc_run_returns ht hsize hrun.1
  obtain ⟨rfl, rfl⟩ := (mymalloc_spec ht hcall).eq_run hsize hlimit hnear hrun
  rw [← hready, mymalloc_ready (hready ▸ ht)] at hcall
  rw [← hready]
  exact ⟨_, hcall, (if_neg pageStart_pos.ne').symm⟩

/-- The heap after one page has been handed out. -/
def oneTaken : Heap := Function.update (freshBlock 1) 0 { freshBlock 1 0 with isFree := 0 }

private theorem table_oneTaken : Table 1 oneTaken := table_fresh.setFree (by decide) 0

private theorem firstRun_oneTaken : FirstRun oneTaken 1 1 := by
  refine ⟨⟨by decide, fun i hi₀ hi₁ => ?_⟩, fun r hr hrun => ?_⟩
  · obtain rfl : i = 1 := by omega
    exact one_ne_zero
  · obtain rfl : r = 0 := by omega
    exact hrun.2 0 le_rfl (by decide) rfl

/-- Two allocations of one page each, in a system that allows them. -/
theorem reached_twoPages (ok : Session → Call → Prop)
    (hok : ∀ s n, n ≤ pageSize → ok s (.malloc n)) :
    ∃ a, Reached 1 ok a ∧ a.live = [(pageStart 1 1, 20), (pageStart 1 0, 40)] := by
  have h₀ : Reached 1 ok ⟨Heap.start, []⟩ := Reach.start ⟨rfl, rfl⟩
  have h₁ : Reached 1 ok ⟨oneTaken, [(pageStart 1 0, 40)]⟩ :=
    h₀.next ⟨hok _ 40 (by decide),
      step_page ready_start table_fresh (by decide) (firstRun_fresh 1 (by decide)) (by decide)⟩
  exact ⟨_, h₁.next ⟨hok _ 20 (by decide), step_page table_oneTaken.ready table_oneTaken
    (by decide) firstRun_oneTaken (by decide)⟩, rfl⟩

end Examples

/-- **Memory in use is never handed out.**  The live allocations of every session lie in
`mem`, behind the metadata blocks, and no two of them overlap. -/
theorem allocations_disjoint (hmem : 0 < mem) (h : Reached mem (fun _ _ => True) a) :
    a.live.Pairwise (fun x y => x.1 + x.2 ≤ y.1 ∨ y.1 + y.2 ≤ x.1) ∧
      ∀ x ∈ a.live, mem + sizeofMemBlock * (pageTotal + 1) ≤ x.1 ∧
        x.1 + x.2 ≤ mem + totSize := by
  have hs := reached_sound hmem h
  have hplaced : ∀ x ∈ a.live, ∃ f, x.1 = pageStart mem f := fun x hx =>
    (hs.placed x hx).imp fun f hf => hf.1
  refine ⟨hs.held.apart.imp_of_mem fun hx hy hdisj =>
    ranges_disjoint (hplaced _ hx) (hplaced _ hy) hdisj, fun x hx => ?_⟩
  obtain ⟨f, hf, hroom⟩ := hs.placed x hx
  have hle := le_pageCount x.2
  rw [hf]
  simp only [pageStart, pageAreaStart, totSize, pageSize, pageTotal, sizeofMemBlock] at *
  omega

/-- Two allocations of one page each. -/
theorem allocations_disjoint_twoPages : ∃ a : Session,
    a.live = [(pageStart 1 1, 20), (pageStart 1 0, 40)] ∧
      a.live.Pairwise fun x y => x.1 + x.2 ≤ y.1 ∨ y.1 + y.2 ≤ x.1 := by
  obtain ⟨a, ha, hlive⟩ := reached_twoPages (fun _ _ => True) fun _ _ _ => trivial
  exact ⟨a, hlive, (allocations_disjoint Nat.one_pos ha).1⟩

/-- The account depends on the pages in use and the live allocations only. -/
theorem Accounted.congr (hacc : Accounted mem a) (hused : usedPages b.heap = usedPages a.heap)
    (hlive : b.live = a.live) : Accounted mem b := by
  intro i
  rw [hused, hlive]
  exact hacc i

/-- A call of `malloc` keeps the account if and only if it meets the condition. -/
theorem accounted_malloc (hs : Sound mem a) (hacc : Accounted mem a)
    (hstep : Step mem a (.malloc size) b) :
    Accounted mem b ↔ PageExact mem a (.malloc size) := by
  obtain ⟨-, heffect⟩ := malloc_effect hs hstep
  cases heffect with
  | same hused hlive hexact => exact ⟨fun _ => hexact, fun _ => hacc.congr hused hlive⟩
  | @took f n hlive hroom hn hfree hused hexact =>
      rw [hexact]
      constructor
      · intro hb i hi₀ hi₁ hi₂
        obtain ⟨x, hx, hxi⟩ := (hb i).mp (by rw [hused]; exact Or.inr ⟨by omega, hi₁, hi₂⟩)
        rw [hlive] at hx
        rcases List.mem_cons.mp hx with rfl | hx
        · have hlt := (mem_pagesOf.mp hxi).2
          omega
        · exact (hacc i).mpr ⟨x, hx, hxi⟩
      · intro hnext i
        rw [hused, hlive]
        constructor
        · rintro (hi | ⟨hi₀, hi₁, hi₂⟩)
          · obtain ⟨x, hx, hxi⟩ := (hacc i).mp hi
            exact ⟨x, List.mem_cons_of_mem _ hx, hxi⟩
          · by_cases hi : i < f + pageCount size
            · exact ⟨_, List.mem_cons_self, mem_pagesOf.mpr ⟨hi₀, hi⟩⟩
            · obtain ⟨x, hx, hxi⟩ := (hacc i).mp (hnext i (by omega) hi₁ hi₂)
              exact ⟨x, List.mem_cons_of_mem _ hx, hxi⟩
        · rintro ⟨x, hx, hxi⟩
          rcases List.mem_cons.mp hx with rfl | hx
          · obtain ⟨hi₀, hi₁⟩ := mem_pagesOf.mp hxi
            exact Or.inr ⟨hi₀, by omega, by omega⟩
          · exact Or.inl ((hacc i).mpr ⟨x, hx, hxi⟩)
  | @lost s hlive hfree htaken hsub hexact =>
      refine ⟨fun hb => absurd ((hacc s).mpr ?_) hfree, fun hc => absurd hc hexact⟩
      rw [← hlive]
      exact (hb s).mp htaken

/-- So does a call of `free`. -/
theorem accounted_free (hmem : 0 < mem) (hs : Sound mem a) (hacc : Accounted mem a) {p : Nat}
    (hstep : Step mem a (.free p) b) : Accounted mem b ↔ PageExact mem a (.free p) := by
  rcases free_effect hmem hs hstep with
    ⟨rfl, hheap, hlive⟩ | ⟨k, size, hx, rfl, hroom, hlive, -, hused⟩
  · refine ⟨fun _ n hn => ?_, fun _ => hacc.congr (by rw [hheap]) hlive⟩
    obtain ⟨f, hf, _⟩ := hs.placed _ hn
    exact absurd hf pageStart_pos.ne
  have hself : k ∈ pagesOf mem (pageStart mem k, size) :=
    mem_pagesOf.mpr ⟨le_rfl, Nat.lt_add_of_pos_right (pageCount_pos size)⟩
  -- the allocation is the only one with its address
  have honly : ∀ y ∈ a.live, y.1 = pageStart mem k → y = (pageStart mem k, size) := by
    rintro ⟨q, n⟩ hy rfl
    exact hs.held.eq_of_mem hy hx
      (mem_pagesOf.mpr ⟨le_rfl, Nat.lt_add_of_pos_right (pageCount_pos n)⟩) hself
  constructor
  · intro hb n hn
    obtain ⟨-, rfl⟩ := Prod.mk.inj (honly _ hn rfl)
    by_contra hlarge
    have htwo : 1 < pageCount n := by
      simp only [pageSize] at hlarge
      simp only [pageCount, pageSize]
      omega
    -- its second page stays marked
    have hnext : k + 1 ∈ pagesOf mem (pageStart mem k, n) := mem_pagesOf.mpr ⟨by omega, by omega⟩
    have hmarked : k + 1 ∈ usedPages b.heap := by
      rw [hused]
      exact ⟨hs.held.within _ hx hnext, by simp⟩
    obtain ⟨y, hy, hyi⟩ := (hb (k + 1)).mp hmarked
    rw [hlive] at hy
    obtain ⟨hy, hne⟩ := List.mem_filter.mp hy
    obtain rfl := hs.held.eq_of_mem hx hy hnext hyi
    simp at hne
  · intro hone i
    have hsingle := pageCount_small (hone size hx)
    rw [hused, hlive]
    constructor
    · rintro ⟨hi, hik⟩
      obtain ⟨y, hy, hyi⟩ := (hacc i).mp hi
      refine ⟨y, List.mem_filter.mpr ⟨hy, ?_⟩, hyi⟩
      rw [decide_eq_true_iff]
      intro heq
      obtain rfl := honly y hy heq
      obtain ⟨hi₀, hi₁⟩ := mem_pagesOf.mp hyi
      exact hik (by simp only [Set.mem_singleton_iff]; omega)
    · rintro ⟨y, hkept, hyi⟩
      obtain ⟨hy, hne⟩ := List.mem_filter.mp hkept
      refine ⟨(hacc i).mpr ⟨y, hy, hyi⟩, ?_⟩
      rintro rfl
      obtain rfl := hs.held.eq_of_mem hx hy hself hyi
      simp at hne

/-- **Page accounting.**  As long as every call meets the condition, the pages in use are
exactly the pages of the live allocations, and the next call breaks this if and only if it
does not meet it. -/
theorem pages_accounted (hmem : 0 < mem) (h : Reached mem (PageExact mem) a) :
    Accounted mem a ∧ ∀ c b, Step mem a c b → (Accounted mem b ↔ PageExact mem a c) := by
  have hacc : Accounted mem a := by
    refine h.invariant (fun s hs i => ?_) fun s c t hs hI hstep => ?_
    · rw [hs.1, hs.2, usedPages_start]
      simp
    · have hsound := reached_sound hmem hs
      cases c with
      | malloc size => exact (accounted_malloc hsound hI hstep.2).mpr hstep.1
      | free p => exact (accounted_free hmem hsound hI hstep.2).mpr hstep.1
  refine ⟨hacc, fun c b hstep => ?_⟩
  have hsound := reached_sound hmem h
  cases c with
  | malloc size => exact accounted_malloc hsound hacc hstep
  | free p => exact accounted_free hmem hsound hacc hstep

/-- The account of two allocations of one page each. -/
theorem pages_accounted_twoPages : ∃ a : Session,
    a.live = [(pageStart 1 1, 20), (pageStart 1 0, 40)] ∧ Accounted 1 a := by
  obtain ⟨a, ha, hlive⟩ := reached_twoPages (PageExact 1) fun _ _ hn => Or.inl hn
  exact ⟨a, hlive, (pages_accounted Nat.one_pos ha).1⟩

/-- An allocation of 6000 bytes takes three pages. -/
theorem two_pages_take_three :
    ¬ ∀ mem a, 0 < mem → Reached mem (fun _ _ => True) a → Accounted mem a := by
  intro hclaim
  have hneed : numPageNeed 6000 = 2 := by decide
  have hrun : FirstRun (freshBlock 1) 0 (numPageNeed 6000) :=
    firstRun_fresh 1 (by rw [hneed]; decide)
  have hnear : ∀ r, FirstRun (freshBlock 1) r 1 → pageSize * r + 6000 ≤ 7920000 := by
    intro r hr
    obtain rfl := hr.unique (firstRun_fresh 1 (by decide))
    decide
  have h₀ : Reached 1 (fun _ _ => True) ⟨Heap.start, []⟩ := Reach.start ⟨rfl, rfl⟩
  have hacc := hclaim 1 _ Nat.one_pos (h₀.next ⟨trivial, step_run ready_start table_fresh
    (show pageSize < 6000 by decide) (by decide) hnear hrun⟩)
  -- page 2 is marked, and no allocation holds it
  have hmarked : 2 ∈ usedPages (markPages 0 (numPageNeed 6000 + 1) (freshBlock 1)) := by
    rw [usedPages_markPages table_fresh, hneed]
    exact Or.inr ⟨by decide, by decide, by decide⟩
  obtain ⟨x, hx, hxi⟩ := (hacc 2).mp hmarked
  obtain rfl := List.mem_singleton.mp hx
  have hcount : pageCount 6000 = 2 := by decide
  have hlt := (mem_pagesOf.mp hxi).2
  omega

end Claims

end Malloc
