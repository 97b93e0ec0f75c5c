import CS416.Paging.Addresses

/-!
# Freeing pages

`page_free` looks for a page whose frame begins at the address it is given; the
addresses that `page_malloc` returns lie one byte behind the beginning of a
frame.  So no allocation is ever freed by its address.  The address of a frame
in the middle of the caller's list cuts pages out of the list, which stays well
formed.
-/

namespace Paging

open CInt Chain Runs

/-- `page_free` does not find the address and sets `errno` to `EINVAL`. -/
def SetsEinval (t index : Nat) (s : Pages) : Prop :=
  findPage s.pageData index (numPages + 1) (s.owner t).pageList = some none

instance (t index : Nat) (s : Pages) : Decidable (SetsEinval t index s) :=
  inferInstanceAs (Decidable (_ = _))

/-- The table with the pages of `mid` marked as free. -/
def freed (mid : List Page) (d : Page → PageMeta) : Page → PageMeta :=
  fun i => if i ∈ mid then { d i with free := 1 } else d i

section Search

variable {d : Page → PageMeta} {l : List Page} {before : Option Page} {i j : Page} {n : Nat}

/-- The search finds a page of the list at the address. -/
theorem findPage_found {index : Nat}
    (hl : Linked (fun i => (d i).next) (fun i => (d i).prev) before l)
    (h : findPage d index n l.head? = some (some i)) : i ∈ l ∧ (d i).page = index := by
  induction l generalizing before n with
  | nil =>
      cases n with
      | zero => cases h
      | succ n => cases h
  | cons j rest ih =>
      obtain ⟨_, hnext, hrest⟩ := hl
      cases n with
      | zero => cases h
      | succ n =>
          unfold findPage at h
          dsimp only [List.head?_cons] at h
          split at h
          case isTrue hpage =>
            obtain rfl := Option.some.inj (Option.some.inj h)
            exact ⟨List.mem_cons_self, hpage⟩
          case isFalse hother =>
            have hstep : (d j).next = rest.head? := hnext
            rw [hstep] at h
            obtain ⟨hmem, hpage⟩ := ih hrest h
            exact ⟨List.mem_cons_of_mem _ hmem, hpage⟩

/-- The end of an allocation lies behind its page `i`. -/
theorem endOfRun_split {rest : List Page}
    (hl : Linked (fun i => (d i).next) (fun i => (d i).prev) before (i :: rest))
    (h : endOfRun d n i = some j) :
    ∃ mid post, i :: rest = mid ++ j :: post := by
  induction rest generalizing before n i with
  | nil =>
      obtain ⟨_, hnext, _⟩ := hl
      cases n with
      | zero => cases h
      | succ n =>
          unfold endOfRun at h
          split at h
          case isTrue =>
            have hnone : (d i).next = none := hnext
            rw [hnone] at h
            cases h
          case isFalse =>
            obtain rfl := Option.some.inj h
            exact ⟨[], [], rfl⟩
  | cons k rest ih =>
      obtain ⟨_, hnext, hrest⟩ := hl
      cases n with
      | zero => cases h
      | succ n =>
          unfold endOfRun at h
          split at h
          case isTrue =>
            have hsome : (d i).next = some k := hnext
            rw [hsome] at h
            obtain ⟨mid, post, heq⟩ := ih hrest h
            exact ⟨i :: mid, post, by rw [heq, List.cons_append]⟩
          case isFalse =>
            obtain rfl := Option.some.inj h
            exact ⟨[], k :: rest, rfl⟩

private theorem freed_nil (d : Page → PageMeta) : freed [] d = d := rfl

private theorem freed_cons {mid : List Page} (hi : i ∉ mid) (d : Page → PageMeta) :
    freed mid (Function.update d i { d i with free := 1 }) = freed (i :: mid) d := by
  funext j
  by_cases hj : j = i
  · subst hj
    simp [freed, hi]
  · simp [freed, hj]

/-- The links are not touched. -/
theorem freed_links (mid : List Page) (d : Page → PageMeta) (i : Page) :
    (freed mid d i).next = (d i).next ∧ (freed mid d i).prev = (d i).prev := by
  unfold freed
  split
  · exact ⟨rfl, rfl⟩
  · exact ⟨rfl, rfl⟩

/-- The loop marks the pages up to `c`. -/
theorem freeRange_eq {mid post : List Page} {c : Page}
    (hl : Linked (fun i => (d i).next) (fun i => (d i).prev) before (mid ++ c :: post))
    (hnodup : (mid ++ c :: post).Nodup) (hn : mid.length < n) :
    freeRange (some c) n (mid ++ c :: post).head? d = some (freed mid d, (mid.length : Int)) := by
  induction mid generalizing before n d with
  | nil =>
      obtain ⟨n, rfl⟩ := Nat.exists_eq_add_of_lt hn
      simp [freeRange, freed_nil]
  | cons i rest ih =>
      obtain ⟨_, hnext, hrest⟩ := hl
      obtain ⟨hi, hnodup'⟩ := List.nodup_cons.mp hnodup
      cases n with
      | zero => simp at hn
      | succ n =>
          have hic : some i ≠ some c := by
            intro heq
            obtain rfl := Option.some.inj heq
            exact hi (by simp)
          have hlinks : Linked
              (fun j => (Function.update d i { d i with free := 1 } j).next)
              (fun j => (Function.update d i { d i with free := 1 } j).prev) (some i)
              (rest ++ c :: post) := by
            have hsame : ∀ j ∈ rest ++ c :: post,
                Function.update d i { d i with free := 1 } j = d j := by
              intro j hj
              have hne : j ≠ i := by
                intro heq
                rw [heq] at hj
                exact hi hj
              exact Function.update_of_ne hne ..
            apply hrest.congr
            · intro j hj
              simp only [hsame j hj]
            · intro j hj
              simp only [hsame j hj]
          have hstep := ih hlinks hnodup' (n := n) (by simpa using hn)
          have hhead : (d i).next = (rest ++ c :: post).head? := hnext
          rw [List.cons_append, List.head?_cons, freeRange, if_neg hic, hhead, hstep,
            freed_cons (fun hmem => hi (List.mem_append_left _ hmem))]
          simp

end Search

section Cut

variable {s s' : Pages} {runs : Nat → List (List Page)} {t index : Nat}

/-- A call of `page_free` that finds its page cuts pages out of the middle of the list. -/
structure CutOut (s : Pages) (t index : Nat) (l : List Page) (s' : Pages) (pre : List Page)
    (b : Page) (mid : List Page) (c : Page) (post : List Page) : Prop where
  list : l = pre ++ b :: (mid ++ c :: post)
  found : ∃ i ∈ mid, (s.pageData i).page = index
  pages : s' = { s with pageData := joinPages b c (freed mid s.pageData) }.setOwner t
    { s.owner t with numPages := (s.owner t).numPages - mid.length }

/-- **`page_free`** sets `errno` and changes nothing, or cuts pages out of the list. -/
theorem pageFree_cases (h : Owned s runs) (hcall : pageFree t index s = some s') :
    SetsEinval t index s ∧ s' = s ∨
      ∃ pre b mid c post, CutOut s t index (runs t).flatten s' pre b mid c post := by
  have hl := h.linked t
  have hhead := h.head t
  have hnodup := h.nodup t
  generalize (runs t).flatten = l at hl hhead hnodup
  unfold pageFree at hcall
  rw [hhead] at hcall
  simp only [Option.bind_eq_bind, Option.bind_eq_some_iff] at hcall
  obtain ⟨found, hfind, hcall⟩ := hcall
  cases found with
  | none =>
      refine Or.inl ⟨?_, (Option.some.inj hcall).symm⟩
      unfold SetsEinval
      rw [hhead]
      exact hfind
  | some ptr =>
      obtain ⟨hmem, hpage⟩ := findPage_found hl hfind
      simp only [Option.bind_eq_some_iff] at hcall
      obtain ⟨last, hend, before, hcut, ⟨d, count⟩, hrange, after, hcut', hcall⟩ := hcall
      obtain ⟨l₁, l₂, rfl⟩ := List.append_of_mem hmem
      -- the page before the allocation
      have hprev := hl.at_node.1
      rw [hcut, Option.or_none] at hprev
      obtain ⟨pre, rfl⟩ := List.getLast?_eq_some_iff.mp hprev.symm
      rw [List.append_assoc, List.singleton_append] at hl hnodup
      obtain ⟨_, hnext, hrest⟩ := hl.at_node
      -- its last page, and the one behind that
      obtain ⟨mid, rest, hsplit⟩ := endOfRun_split hrest hend
      rw [hsplit] at hl hnodup hnext hrest
      have hbehind := hrest.at_node.2.1
      obtain ⟨post, rfl⟩ : ∃ post, rest = after :: post := by
        cases rest with
        | nil =>
            rw [hcut'] at hbehind
            cases hbehind
        | cons c post =>
            rw [hcut'] at hbehind
            exact ⟨post, by rw [Option.some.inj hbehind]⟩
      have hlist : mid ++ last :: after :: post = (mid ++ [last]) ++ after :: post := by simp
      rw [hlist] at hl hnodup hnext hrest hsplit
      have hmid : (mid ++ [last] ++ after :: post).Nodup :=
        (List.nodup_cons.mp (List.Nodup.of_append_right hnodup)).2
      have hlen := List.Nodup.length_le_card hmid
      have hfuel : (mid ++ [last]).length < numPages + 1 := by
        rw [List.length_append, Fintype.card_fin] at hlen
        omega
      rw [hbehind, hnext, List.head?_cons, freeRange_eq hrest hmid hfuel] at hrange
      obtain ⟨rfl, rfl⟩ := Prod.mk.inj (Option.some.inj hrange)
      refine Or.inr ⟨pre, before, mid ++ [last], after, post, ?_, ?_, ?_⟩
      · rw [List.append_assoc, List.singleton_append, hsplit]
      · refine ⟨ptr, ?_, hpage⟩
        cases mid with
        | nil => exact List.mem_singleton.mpr (List.cons.inj hsplit).1
        | cons i mid => exact (List.cons.inj hsplit).1 ▸ List.mem_cons_self
      · rw [hcut'] at hcall
        exact (Option.some.inj hcall).symm

/-- The flag `more` is 0 or 1 in a run, and 0 at its last page. -/
theorem MoreRun.flags {d : Page → PageMeta} {l : List Page} (h : MoreRun d l) :
    (∀ i ∈ l, (d i).more = 0 ∨ (d i).more = 1) ∧ ∃ i, l.getLast? = some i ∧ (d i).more = 0 := by
  induction l with
  | nil => cases h
  | cons i rest ih =>
      cases rest with
      | nil =>
          refine ⟨?_, i, rfl, h⟩
          intro j hj
          obtain rfl := List.mem_singleton.mp hj
          exact Or.inl h
      | cons j rest =>
          obtain ⟨hi, hrest⟩ := h
          obtain ⟨hflags, k, hk, hlast⟩ := ih hrest
          refine ⟨?_, k, ?_, hlast⟩
          · intro x hx
            rcases List.mem_cons.mp hx with rfl | hx
            · exact Or.inr hi
            · exact hflags x hx
          · rw [List.getLast?_cons_cons]
            exact hk

/-- **The flags cut a list into allocations**, if the last page is the last of its own. -/
theorem exists_runs {d : Page → PageMeta} {l : List Page}
    (hflags : ∀ i ∈ l, (d i).more = 0 ∨ (d i).more = 1)
    (hlast : ∀ i, l.getLast? = some i → (d i).more = 0) :
    ∃ parts : List (List Page), parts.flatten = l ∧ ∀ run ∈ parts, MoreRun d run := by
  induction l with
  | nil => exact ⟨[], rfl, by simp⟩
  | cons i rest ih =>
      have hrest : ∀ j, rest.getLast? = some j → (d j).more = 0 := by
        intro j hj
        refine hlast j ?_
        rw [List.getLast?_cons, hj]
        rfl
      obtain ⟨parts, hparts, hruns⟩ := ih (fun j hj => hflags j (List.mem_cons_of_mem _ hj)) hrest
      rcases hflags i List.mem_cons_self with hzero | hone
      · refine ⟨[i] :: parts, by rw [List.flatten_cons, hparts]; rfl, ?_⟩
        intro run hrun
        rcases List.mem_cons.mp hrun with rfl | hrun
        · exact hzero
        · exact hruns run hrun
      · cases parts with
        | nil =>
            -- the list ends with a page that is not the last of its allocation
            have hnil : rest = [] := hparts.symm
            have hend := hlast i (by rw [hnil]; rfl)
            rw [hone] at hend
            cases hend
        | cons run parts =>
            refine ⟨(i :: run) :: parts, by rw [← hparts]; rfl, ?_⟩
            intro run' hrun'
            rcases List.mem_cons.mp hrun' with rfl | hrun'
            · have hrun := hruns run List.mem_cons_self
              cases run with
              | nil => cases hrun
              | cons j run => exact ⟨hone, hrun⟩
            · exact hruns run' (List.mem_cons_of_mem _ hrun')

/-- The flags of the pages of a thread. -/
theorem Owned.flags (h : Owned s runs) (t : Nat) :
    (∀ i ∈ (runs t).flatten, (s.pageData i).more = 0 ∨ (s.pageData i).more = 1) ∧
      ∀ i, (runs t).flatten.getLast? = some i → (s.pageData i).more = 0 := by
  have hmore := h.more t
  generalize runs t = parts at hmore
  induction parts with
  | nil =>
      refine ⟨by simp, ?_⟩
      intro i hi
      cases hi
  | cons run parts ih =>
      obtain ⟨hflags, hlast⟩ := ih fun r hr => hmore r (List.mem_cons_of_mem _ hr)
      obtain ⟨hrun, k, hk, hzero⟩ := (hmore run List.mem_cons_self).flags
      rw [List.flatten_cons]
      refine ⟨?_, ?_⟩
      · intro i hi
        rcases List.mem_append.mp hi with hi | hi
        · exact hrun i hi
        · exact hflags i hi
      · intro i hi
        rw [List.getLast?_append] at hi
        cases hend : parts.flatten.getLast? with
        | some j =>
            rw [hend] at hi
            obtain rfl := Option.some.inj hi
            exact hlast j hend
        | none =>
            rw [hend, hk] at hi
            obtain rfl := Option.some.inj hi
            exact hzero

variable {l pre mid post : List Page} {b c : Page}

/-- The entries after a cut. -/
structure CutTable (d d' : Page → PageMeta) (pre : List Page) (b : Page) (mid : List Page)
    (c : Page) (post : List Page) : Prop where
  same : ∀ i, (d' i).page = (d i).page ∧ (d' i).TID = (d i).TID ∧ (d' i).more = (d i).more
  free : ∀ i, (d' i).free = if i ∈ mid then 1 else (d i).free
  other : ∀ i, i ∉ pre ++ b :: (mid ++ c :: post) → d' i = d i
  linked : Linked (fun i => (d' i).next) (fun i => (d' i).prev) none (pre ++ b :: c :: post)

private theorem cutTable {d : Page → PageMeta}
    (hl : Linked (fun i => (d i).next) (fun i => (d i).prev) none (pre ++ b :: (mid ++ c :: post)))
    (hnodup : (pre ++ b :: (mid ++ c :: post)).Nodup) :
    CutTable d (joinPages b c (freed mid d)) pre b mid c post := by
  obtain ⟨hpre, hrest, hapart⟩ := List.nodup_append'.mp hnodup
  obtain ⟨hb, hrest⟩ := List.nodup_cons.mp hrest
  obtain ⟨hmid, hcpost, hdisj⟩ := List.nodup_append'.mp hrest
  have hne : b ≠ c := by
    intro heq
    exact hb (by simp [heq])
  have hflags := joinPages_flags (d := freed mid d) hne
  -- the pages before `b` keep their links
  have hkeep : ∀ i ∈ pre, joinPages b c (freed mid d) i = freed mid d i := by
    intro i hi
    refine joinPages_other ?_ ?_
    · intro heq
      exact hapart hi (by simp [heq])
    · intro heq
      exact hapart hi (by simp [heq])
  constructor
  case same =>
    intro i
    obtain ⟨hpage, _, htid, hmore⟩ := hflags i
    rw [hpage, htid, hmore]
    unfold freed
    split
    · exact ⟨rfl, rfl, rfl⟩
    · exact ⟨rfl, rfl, rfl⟩
  case free =>
    intro i
    rw [(hflags i).2.1]
    unfold freed
    split
    · rfl
    · rfl
  case other =>
    intro i hi
    simp only [List.mem_append, List.mem_cons, not_or] at hi
    rw [joinPages_other hi.2.1 hi.2.2.2.1]
    exact if_neg hi.2.2.1
  case linked =>
    obtain ⟨_, _, hbehind⟩ := hl.at_node
    obtain ⟨before, hsuffix⟩ := hbehind.suffix
    have hfreed : Linked (fun i => (freed mid d i).next) (fun i => (freed mid d i).prev) before
        (c :: post) :=
      hsuffix.congr (fun i _ => (freed_links mid d i).1) fun i _ => (freed_links mid d i).2
    have hbc : b ∉ c :: post := by
      intro hmem
      exact hb (List.mem_append_right _ hmem)
    refine hl.splice (joinPages_linked hcpost hbc hfreed) ?_ ?_ ?_
    · simp [joinPages_last hne]
    · intro i hi
      simp only [hkeep i hi, (freed_links mid d i).1]
    · intro i hi
      rcases List.mem_append.mp hi with hi | hi
      · simp only [hkeep i hi, (freed_links mid d i).2]
      · obtain rfl := List.mem_singleton.mp hi
        simp only [joinPages_last hne, (freed_links mid d i).2]

/-- **A cut keeps the ownership of pages.** -/
theorem CutOut.owned (h : Owned s runs)
    (hc : CutOut s t index (runs t).flatten s' pre b mid c post) :
    ∃ runs', Owned s' runs' ∧ (runs' t).flatten = pre ++ b :: c :: post := by
  have hl := h.linked t
  have hnodup := h.nodup t
  rw [hc.list] at hl hnodup
  have htable := cutTable hl hnodup
  obtain ⟨hflags, hlast⟩ := h.flags t
  rw [hc.list] at hflags hlast
  have hsub : ∀ i ∈ pre ++ b :: c :: post, i ∈ pre ++ b :: (mid ++ c :: post) := by
    intro i hi
    simp only [List.mem_append, List.mem_cons] at hi ⊢
    tauto
  have hmore : ∀ i, (s'.pageData i).more = (s.pageData i).more := by
    intro i
    rw [hc.pages]
    exact (htable.same i).2.2
  obtain ⟨parts, hparts, hruns⟩ : ∃ parts : List (List Page),
      parts.flatten = pre ++ b :: c :: post ∧ ∀ run ∈ parts, MoreRun s'.pageData run := by
    refine exists_runs ?_ ?_
    · intro i hi
      rw [hmore]
      exact hflags i (hsub i hi)
    · intro i hi
      rw [hmore]
      refine hlast i ?_
      simpa [List.getLast?_append, List.getLast?_cons] using hi
  have hself : (Function.update runs t parts t).flatten = pre ++ b :: c :: post := by
    rw [Function.update_self, hparts]
  have hother : ∀ v, v ≠ t → Function.update runs t parts v = runs v :=
    fun v hv => Function.update_of_ne hv ..
  have hdata : s'.pageData = joinPages b c (freed mid s.pageData) := by
    rw [hc.pages]
    rfl
  have howner : ∀ v, v ≠ t → s'.owner v = s.owner v := by
    intro v hv
    rw [hc.pages]
    exact Function.update_of_ne hv ..
  have hownself : s'.owner t =
      { s.owner t with numPages := (s.owner t).numPages - mid.length } := by
    rw [hc.pages]
    exact Function.update_self ..
  have hkept : ∀ v, ∀ i ∈ (Function.update runs t parts v).flatten, i ∈ (runs v).flatten := by
    intro v i hi
    by_cases hv : v = t
    · rw [hv, hself] at hi
      rw [hv, hc.list]
      exact hsub i hi
    · rw [hother v hv] at hi
      exact hi
  have hunfreed : ∀ v, ∀ i ∈ (Function.update runs t parts v).flatten, i ∉ mid := by
    intro v i hi hmid
    have hmem : i ∈ (runs t).flatten := by
      rw [hc.list]
      simp [hmid]
    by_cases hv : v = t
    · rw [hv, hself] at hi
      obtain ⟨_, hrest, hapart⟩ := List.nodup_append'.mp hnodup
      obtain ⟨hb, hrest⟩ := List.nodup_cons.mp hrest
      obtain ⟨_, _, hdisj⟩ := List.nodup_append'.mp hrest
      rcases List.mem_append.mp hi with hi | hi
      · exact hapart hi (by simp [hmid])
      · rcases List.mem_cons.mp hi with rfl | hi
        · exact hb (List.mem_append_left _ hmid)
        · exact hdisj hmid hi
    · exact h.apart v t hv (hkept v i hi) hmem
  refine ⟨Function.update runs t parts, ?_, hself⟩
  constructor
  case page =>
    intro i
    have hmemory : s'.memory = s.memory := by
      rw [hc.pages]
      rfl
    rw [hdata, (htable.same i).1, hmemory]
    exact h.page i
  case nodup =>
    intro v
    by_cases hv : v = t
    · rw [hv, hself]
      refine hnodup.sublist ?_
      exact (List.Sublist.refl _).append ((List.sublist_append_right _ _).cons_cons _)
    · rw [hother v hv]
      exact h.nodup v
  case apart =>
    intro v u hne i hv hu
    exact h.apart v u hne (hkept v i hv) (hkept u i hu)
  case used =>
    intro v i hi
    obtain ⟨hfree, htid⟩ := h.used v i (hkept v i hi)
    have hid : (s'.owner v).id = (s.owner v).id := by
      by_cases hv : v = t
      · rw [hv, hownself]
      · rw [howner v hv]
    rw [hdata, htable.free, if_neg (hunfreed v i hi), (htable.same i).2.1, hid]
    exact ⟨hfree, htid⟩
  case unused =>
    intro i hi
    rw [hdata, htable.free]
    split
    case isTrue => rfl
    case isFalse hmid =>
      refine h.unused i ?_
      intro v hv
      by_cases hvt : v = t
      · rw [hvt, hc.list] at hv
        refine hi t ?_
        rw [hself]
        simp only [List.mem_append, List.mem_cons] at hv ⊢
        tauto
      · refine hi v ?_
        rw [hother v hvt]
        exact hv
  case head =>
    intro v
    by_cases hv : v = t
    · have hhead := h.head t
      rw [hc.list] at hhead
      rw [hv, hself, hownself]
      dsimp only
      rw [hhead]
      cases pre <;> rfl
    · rw [hother v hv, howner v hv]
      exact h.head v
  case linked =>
    intro v
    rw [hdata]
    by_cases hv : v = t
    · rw [hv, hself]
      exact htable.linked
    · rw [hother v hv]
      have hsame : ∀ i ∈ (runs v).flatten,
          joinPages b c (freed mid s.pageData) i = s.pageData i := by
        intro i hi
        refine htable.other i ?_
        rw [← hc.list]
        exact h.apart v t hv hi
      refine (h.linked v).congr ?_ ?_
      · intro i hi
        simp only [hsame i hi]
      · intro i hi
        simp only [hsame i hi]
  case count =>
    intro v
    by_cases hv : v = t
    · have hcount := h.count t
      rw [hc.list] at hcount
      rw [hv, hself, hownself]
      dsimp only
      rw [hcount]
      simp only [List.length_append, List.length_cons]
      omega
    · rw [hother v hv, howner v hv]
      exact h.count v
  case more =>
    intro v run hrun
    by_cases hv : v = t
    · rw [hv, Function.update_self] at hrun
      exact hruns run hrun
    · rw [hother v hv] at hrun
      exact (h.more v run hrun).congr fun i _ => hmore i

end Cut

/-- The tables as `page_malloc` uses them: its first call initialises them. -/
def ready (s : Pages) : Pages :=
  if s.pageInit then s else { pageMallocInit s with pageInit := true }

/-- Threads without pages, before the first call of `page_malloc`. -/
def FreshPages (s : Pages) : Prop :=
  s.pageInit = false ∧ ∀ t, (s.owner t).pageList = none ∧ (s.owner t).numPages = 0

/-- The free pages that a request takes. -/
def taken (size : Nat) (s : Pages) : List Page :=
  (searchFree (ready s).pageData (List.finRange numPages) (pagesNeeded size)).1

/-- A call; an allocation lives until its address is passed to `page_free` with success. -/
def Session.pass (a : Session) : Call → Option Session
  | .malloc t size => do
    let (p, s) ← pageMalloc t size a.pages
    return ⟨s, if p = 0 then a.live
      else ⟨t, p, pageCount size, taken size a.pages⟩ :: a.live⟩
  | .free t index => do
    let s ← pageFree t index a.pages
    return ⟨s, if SetsEinval t index a.pages then a.live
      else a.live.filter fun x => ¬ (x.thread = t ∧ x.address = index)⟩

/-- Sessions reached by calls that satisfy `ok` when made. -/
def Passed (ok : Session → Call → Prop) : Session → Prop :=
  Reach (fun a => FreshPages a.pages ∧ a.live = []) fun a c b => ok a c ∧ a.pass c = some b

/-- The allocation `x` of thread `t` is freed, and nothing else. -/
structure Undoes (s : Pages) (t : Nat) (x : Alloc) (s' : Pages) : Prop where
  free : ∀ i, (s'.pageData i).free ≠ 0 ↔ i ∈ x.pages ∨ (s.pageData i).free ≠ 0
  list : pagesOf s' t = (pagesOf s t).filter (· ∉ x.pages)
  linked : Linked (fun i => (s'.pageData i).next) (fun i => (s'.pageData i).prev) none
    (pagesOf s' t)
  count : (s'.owner t).numPages = (s.owner t).numPages - x.pages.length

/-- `page_free` frees each live allocation of its caller by the address that `page_malloc`
returned for it, and refuses all other addresses. -/
def FreesRight (a : Session) (t : Nat) : Prop :=
  (∀ x ∈ a.live, x.thread = t →
    ∃ s', pageFree t x.address a.pages = some s' ∧ Undoes a.pages t x s') ∧
  ∀ index, (∀ x ∈ a.live, x.thread = t → x.address ≠ index) →
    SetsEinval t index a.pages ∧ pageFree t index a.pages = some a.pages

section Calls

variable {a b : Session} {s : Pages} {t size index : Nat}

private theorem ready_of_init (h : s.pageInit = true) : ready s = s := if_pos h

/-- The first call initialises the table. -/
theorem ready_init (s : Pages) : (ready s).pageInit = true := by
  unfold ready
  split
  · assumption
  · rfl

/-- `page_malloc` works on the initialised table. -/
theorem pageMalloc_ready (t size : Nat) (s : Pages) :
    pageMalloc t size s = pageMalloc t size (ready s) := by
  by_cases hinit : s.pageInit = true
  · rw [ready_of_init hinit]
  · have hready : ready s = { pageMallocInit s with pageInit := true } := if_neg hinit
    rw [pageMalloc, pageMalloc, if_pos (ready_init s), if_neg hinit, hready]

/-- At first no page has an owner. -/
theorem FreshPages.owned (h : FreshPages s) : Owned (ready s) fun _ => [] := by
  have hready : ready s = { pageMallocInit s with pageInit := true } :=
    if_neg (by simp [h.1])
  exact owned_initial ⟨s, hready, h.2⟩

private theorem taken_eq (hn : 0 < pagesNeeded size)
    (hroom : pagesNeeded size ≤ (freePages (ready s)).length) :
    taken size s = (freePages (ready s)).take (pagesNeeded size).toNat := by
  unfold taken
  rw [searchFree_eq hn]
  exact congrArg Prod.fst (if_pos hroom)

/-- What holds of the sessions of every run. -/
structure Holding (a : Session) : Prop where
  owned : ∃ runs, Owned (ready a.pages) runs
  fresh : a.pages.pageInit = false → FreshPages a.pages ∧ a.live = []
  behind : ∀ x ∈ a.live, x.pages ≠ [] ∧ ∃ k, x.address = a.pages.memory + k * pageSize + 1
  listed : ∀ t, (a.pages.owner t).pageList ≠ none → ∃ x ∈ a.live, x.thread = t

/-- `page_malloc` keeps the lists in order. -/
theorem Holding.malloc (h : Holding a) (hpass : a.pass (.malloc t size) = some b) :
    Holding b := by
  obtain ⟨runs, howned⟩ := h.owned
  simp only [Session.pass, Option.bind_eq_bind, Option.bind_eq_some_iff] at hpass
  obtain ⟨⟨p, u⟩, hcall, hb⟩ := hpass
  obtain rfl := Option.some.inj hb
  rw [pageMalloc_ready] at hcall
  have hinit := ready_init a.pages
  have hmemory : (ready a.pages).memory = a.pages.memory := by
    unfold ready
    split <;> rfl
  have howner : (ready a.pages).owner = a.pages.owner := by
    unfold ready
    split <;> rfl
  have hpos : 0 < pagesNeeded size := by
    by_contra hle
    rw [pageMalloc, if_pos hinit] at hcall
    simp [not_lt.mp hle] at hcall
  rcases pageMalloc_spec howned hinit hpos t with ⟨_, hfail⟩ | ⟨hroom, q, v, pages, hserve, hs⟩
  · obtain ⟨rfl, rfl⟩ := Prod.mk.inj (Option.some.inj (hcall.symm.trans hfail))
    dsimp only
    rw [if_pos rfl]
    constructor
    case owned => exact ⟨runs, by rw [ready_of_init hinit]; exact howned⟩
    case fresh =>
      intro hoff
      rw [hinit] at hoff
      cases hoff
    case behind =>
      intro x hx
      dsimp only
      rw [hmemory]
      exact h.behind x hx
    case listed =>
      intro v hv
      dsimp only at hv
      rw [howner] at hv
      exact h.listed v hv
  · obtain ⟨rfl, rfl⟩ := Prod.mk.inj (Option.some.inj (hcall.symm.trans hserve))
    have hp : p ≠ 0 := by
      rw [hs.result]
      omega
    dsimp only
    rw [if_neg hp]
    constructor
    case owned => exact ⟨_, by rw [ready_of_init hs.init]; exact hs.owned⟩
    case fresh =>
      intro hoff
      rw [hs.init] at hoff
      cases hoff
    case behind =>
      intro x hx
      dsimp only
      rw [hs.memory, hmemory]
      rcases List.mem_cons.mp hx with rfl | hx
      · refine ⟨?_, (runs t).flatten.length, ?_⟩
        · intro hnil
          have hlen := hs.length
          have htaken : taken size a.pages = [] := hnil
          rw [hs.pages_eq, ← taken_eq hpos hroom, htaken] at hlen
          simp only [List.length_nil] at hlen
          omega
        · dsimp only
          rw [hs.result, hmemory]
      · exact h.behind x hx
    case listed =>
      intro v hv
      by_cases hvt : v = t
      · exact ⟨_, List.mem_cons_self, hvt.symm⟩
      · have hold : (a.pages.owner v).pageList ≠ none := by
          have hafter := hs.owned.head v
          rw [withRun_ne hvt, ← howned.head v, howner] at hafter
          rw [← hafter]
          exact hv
        obtain ⟨x, hx, hthread⟩ := h.listed v hold
        exact ⟨x, List.mem_cons_of_mem _ hx, hthread⟩

/-- An address that is not found changes nothing. -/
theorem pageFree_einval (h : SetsEinval t index s) : pageFree t index s = some s := by
  unfold SetsEinval at h
  unfold pageFree
  rw [h]
  rfl

/-- A thread without pages has none to find. -/
theorem einval_of_none (h : (s.owner t).pageList = none) : SetsEinval t index s := by
  unfold SetsEinval
  rw [h]
  rfl

/-- **No allocation has the address of a frame.** -/
theorem Holding.apart (h : Holding a) {runs : Nat → List (List Page)}
    (howned : Owned a.pages runs) {x : Alloc} (hx : x ∈ a.live) (i : Page) :
    (a.pages.pageData i).page ≠ x.address := by
  obtain ⟨_, k, haddress⟩ := h.behind x hx
  rw [howned.page i, haddress]
  simp only [pageSize]
  omega

/-- A call of `page_free` in a session. -/
theorem Holding.free (h : Holding a) (hpass : a.pass (.free t index) = some b) : Holding b := by
  obtain ⟨runs, howned⟩ := h.owned
  simp only [Session.pass, Option.bind_eq_bind, Option.bind_eq_some_iff] at hpass
  obtain ⟨s, hcall, hb⟩ := hpass
  obtain rfl := Option.some.inj hb
  by_cases hnone : SetsEinval t index a.pages
  · rw [if_pos hnone]
    obtain rfl := Option.some.inj (hcall.symm.trans (pageFree_einval hnone))
    exact h
  · rw [if_neg hnone]
    have hinit : a.pages.pageInit = true := by
      by_contra hoff
      have hfresh := (h.fresh (Bool.not_eq_true _ ▸ hoff)).1
      exact hnone (einval_of_none (hfresh.2 t).1)
    rw [ready_of_init hinit] at howned
    rcases pageFree_cases howned hcall with ⟨hyes, _⟩ | ⟨pre, c, mid, d, post, hcut⟩
    · exact absurd hyes hnone
    · have hlive : a.live.filter (fun x => ¬ (x.thread = t ∧ x.address = index)) = a.live := by
        refine List.filter_eq_self.mpr ?_
        intro x hx
        obtain ⟨i, _, hpage⟩ := hcut.found
        have hne := h.apart howned hx i
        rw [hpage] at hne
        simp [Ne.symm hne]
      obtain ⟨runs', howned', _⟩ := hcut.owned howned
      have hinit' : s.pageInit = true := by
        rw [hcut.pages]
        exact hinit
      have hmemory : s.memory = a.pages.memory := by
        rw [hcut.pages]
        rfl
      rw [hlive]
      constructor
      case owned => exact ⟨runs', by rw [ready_of_init hinit']; exact howned'⟩
      case fresh =>
        intro hoff
        rw [hinit'] at hoff
        cases hoff
      case behind =>
        intro x hx
        dsimp only
        rw [hmemory]
        exact h.behind x hx
      case listed =>
        intro v hv
        refine h.listed v ?_
        have howner : (s.owner v).pageList = (a.pages.owner v).pageList := by
          rw [hcut.pages]
          show (Function.update a.pages.owner t _ v).pageList = _
          rw [Function.update_apply]
          split
          case isTrue heq => rw [heq]
          case isFalse => rfl
        rw [← howner]
        exact hv

/-- At first no thread holds pages. -/
theorem Holding.initial (hfresh : FreshPages a.pages) (hlive : a.live = []) : Holding a := by
  constructor
  case owned => exact ⟨_, hfresh.owned⟩
  case fresh => exact fun _ => ⟨hfresh, hlive⟩
  case behind =>
    intro x hx
    rw [hlive] at hx
    cases hx
  case listed =>
    intro t ht
    exact absurd (hfresh.2 t).1 ht

/-- **What holds in every session.** -/
theorem holding_of_passed {ok : Session → Call → Prop} (h : Passed ok a) : Holding a := by
  apply h.invariant (I := Holding)
  · intro b hb
    exact Holding.initial hb.1 hb.2
  · intro b c d _ hb hstep
    cases c with
    | malloc t size => exact hb.malloc hstep.2
    | free t index => exact hb.free hstep.2

end Calls

/-- **No allocation can be freed by its address**: `page_free` is right exactly where the caller
has none. -/
theorem frees_nothing {a : Session} (h : Passed (fun _ _ => True) a) (t : Nat) :
    FreesRight a t ↔ ∀ x ∈ a.live, x.thread ≠ t := by
  have hold := holding_of_passed h
  constructor
  · intro hright x hx hthread
    obtain ⟨s', hcall, hundoes⟩ := hright.1 x hx hthread
    obtain ⟨hne, _⟩ := hold.behind x hx
    have hinit : a.pages.pageInit = true := by
      by_contra hoff
      rw [(hold.fresh (Bool.not_eq_true _ ▸ hoff)).2] at hx
      cases hx
    obtain ⟨runs, howned⟩ := hold.owned
    rw [ready_of_init hinit] at howned
    rcases pageFree_cases howned hcall with ⟨_, rfl⟩ | ⟨pre, b, mid, c, post, hcut⟩
    · have hpos := List.length_pos_of_ne_nil hne
      have hcount := hundoes.count
      omega
    · obtain ⟨i, _, hpage⟩ := hcut.found
      exact hold.apart howned hx i hpage
  · intro hnone
    have hlist : (a.pages.owner t).pageList = none := by
      by_contra hsome
      obtain ⟨x, hx, hthread⟩ := hold.listed t hsome
      exact hnone x hx hthread
    refine ⟨fun x hx hthread => absurd hthread (hnone x hx), ?_⟩
    intro index _
    exact ⟨einval_of_none hlist, pageFree_einval (einval_of_none hlist)⟩

/-- Blank tables before the first call, with `memory` at 8192. -/
def freshSession : Session where
  pages := ⟨8192, false, fun _ => ⟨0, none, none, 0, 0, 0⟩, fun t => ⟨t, none, 0⟩⟩
  live := []

/-- The session before the first call. -/
theorem passed_freshSession {ok : Session → Call → Prop} : Passed ok freshSession :=
  Reach.start ⟨⟨rfl, fun _ => ⟨rfl, rfl⟩⟩, rfl⟩

/-- One request of two pages. -/
theorem frees_nothing_twoPages : ∃ a : Session, a.live.map Alloc.address = [8193] ∧
    (FreesRight a 0 ↔ ∀ x ∈ a.live, x.thread ≠ 0) := by
  have hsome : ((freshSession.pass (.malloc 0 5000)).map fun a => a.live.map Alloc.address) =
      some [8193] := by decide +kernel
  obtain ⟨a, hpass, hlive⟩ := Option.map_eq_some_iff.mp hsome
  exact ⟨a, hlive, frees_nothing (passed_freshSession.next ⟨trivial, hpass⟩) 0⟩

/-- One page, freed by its address. -/
theorem freed_page_kept : ¬ ∀ a, Passed (fun _ _ => True) a → ∀ t, FreesRight a t := by
  intro hclaim
  have hsome : ((freshSession.pass (.malloc 0 1)).map fun a =>
      (a.live.map fun x => (x.thread, x.address, x.pages.length), (a.pages.owner 0).numPages,
        (pageFree 0 8193 a.pages).map fun s => (s.owner 0).numPages)) =
      some ([(0, 8193, 1)], 1, some 1) := by decide +kernel
  obtain ⟨a, hpass, hsees⟩ := Option.map_eq_some_iff.mp hsome
  simp only [Prod.mk.injEq] at hsees
  obtain ⟨hlive, hbefore, hafter⟩ := hsees
  have hright := (hclaim a (passed_freshSession.next ⟨trivial, hpass⟩) 0).1
  obtain ⟨x, hx, hentry⟩ : ∃ x ∈ a.live, (x.thread, x.address, x.pages.length) = (0, 8193, 1) := by
    have hmem : ((0, 8193, 1) : Nat × Nat × Nat) ∈
        a.live.map fun x => (x.thread, x.address, x.pages.length) := by
      rw [hlive]
      exact List.mem_cons_self
    exact List.mem_map.mp hmem
  simp only [Prod.mk.injEq] at hentry
  obtain ⟨hthread, haddress, hlength⟩ := hentry
  obtain ⟨s, hcall, hundoes⟩ := hright x hx hthread
  rw [haddress] at hcall
  rw [hcall] at hafter
  have hnum : (s.owner 0).numPages = 1 := Option.some.inj hafter
  have hcount := hundoes.count
  rw [hnum, hbefore, hlength] at hcount
  omega

end Paging
