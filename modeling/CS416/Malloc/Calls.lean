import CS416.Malloc.Pages

/-!
# What a call does to the table

`mymalloc` takes one page, or a run of pages together with the page behind
it; without a run it marks the pages after the last free page it saw and
returns `NULL`.  `myfree` gives one page back and clears links.
-/

namespace Malloc

variable {mem : Nat} {h t : Heap} {p size s n k : Nat}

/-- No two pages start at one address. -/
theorem pageStart_inj (heq : pageStart mem s = pageStart mem k) : s = k := by
  simp only [pageStart, pageSize] at heq
  omega

/-- The table depends on the links and addresses of its records only. -/
theorem Table.congr (ht : Table mem h) (hnext : ∀ i, (t i).next = (h i).next)
    (hstart : ∀ i, (t i).allocStart = (h i).allocStart)
    (hnum : ∀ i, (t i).pageNum = (h i).pageNum)
    (hbehind : ∀ i, pageTotal ≤ i → i < blockTotal → t i = h i) : Table mem t where
  next i hi := (hnext i).trans (ht.next i hi)
  allocStart i hi := (hstart i).trans (ht.allocStart i hi)
  pageNum i hi := by
    rw [hnum i]
    exact ht.pageNum i hi
  behind i hi₀ hi₁ := (hbehind i hi₀ hi₁).trans (ht.behind i hi₀ hi₁)

/-- Setting the flag of a page. -/
theorem Table.setFree (ht : Table mem h) (hk : k < pageTotal) (v : Int) :
    Table mem (Function.update h k { h k with isFree := v }) := by
  refine ht.congr (fun i => ?_) (fun i => ?_) (fun i => ?_) fun i hi₀ hi₁ => ?_
  · by_cases hi : i = k
    · rw [hi, Function.update_self]
    · rw [Function.update_of_ne hi]
  · by_cases hi : i = k
    · rw [hi, Function.update_self]
    · rw [Function.update_of_ne hi]
  · by_cases hi : i = k
    · rw [hi, Function.update_self]
    · rw [Function.update_of_ne hi]
  · rw [Function.update_of_ne (by omega)]

/-- The flag of one page is set, and the others stay. -/
theorem setFree_apply (v : Int) (i : Nat) :
    (Function.update h k { h k with isFree := v } i).isFree =
      if i = k then v else (h i).isFree := by
  by_cases hi : i = k
  · rw [hi, Function.update_self, if_pos rfl]
  · rw [Function.update_of_ne hi, if_neg hi]

/-- What the marking loop makes of a block. -/
def MemBlock.mark (b : MemBlock) : MemBlock := { b with nextPage := b.next, isFree := 0 }

private theorem markPages_apply (i : Nat) :
    markPages s n h i = if s ≤ i ∧ i < s + n then (h i).mark else h i := by
  induction n generalizing s h with
  | zero => rw [markPages, if_neg (by omega)]
  | succ n ih =>
      rw [markPages, ih]
      by_cases hi : i = s
      · rw [if_neg (by omega), if_pos (by omega), hi, Function.update_self]
        rfl
      · rw [Function.update_of_ne hi]
        exact if_congr (by omega) rfl rfl

/-- Marking leaves the zeros behind the table as they are. -/
theorem Table.markPages (ht : Table mem h) (s n : Nat) : Table mem (markPages s n h) := by
  refine ht.congr (fun i => ?_) (fun i => ?_) (fun i => ?_) fun i hi₀ hi₁ => ?_
  · rw [markPages_apply]
    split <;> rfl
  · rw [markPages_apply]
    split <;> rfl
  · rw [markPages_apply]
    split <;> rfl
  · rw [markPages_apply, ht.behind i hi₀ hi₁]
    split <;> rfl

/-- The pages that are marked are in use, and the others as before. -/
theorem markPages_isFree (i : Nat) :
    (markPages s n h i).isFree = if s ≤ i ∧ i < s + n then 0 else (h i).isFree := by
  rw [markPages_apply]
  split <;> rfl

/-- Clearing links changes nothing else. -/
theorem clearLinks_apply (hclear : clearLinks k h = some t) (i : Nat) :
    t i = h i ∨ t i = { h i with nextPage := none } := by
  induction k, h using clearLinks.induct with
  | case1 k h hend =>
      rw [clearLinks, if_pos hend] at hclear
      cases hclear
  | case2 k h hend hnone =>
      rw [clearLinks, if_neg hend, if_pos hnone] at hclear
      cases hclear
      exact Or.inl rfl
  | case3 k h hend hnone ih =>
      rw [clearLinks, if_neg hend, if_neg hnone] at hclear
      have hrest := ih hclear
      by_cases hi : i = k
      · subst i
        rw [Function.update_self] at hrest
        exact Or.inr (hrest.elim id id)
      · rw [Function.update_of_ne hi] at hrest
        exact hrest

/-- The loop of `myfree` leaves the table in order. -/
theorem Table.clearLinks (ht : Table mem h) (hclear : clearLinks k h = some t) :
    Table mem t := by
  have happly := clearLinks_apply hclear
  refine ht.congr (fun i => ?_) (fun i => ?_) (fun i => ?_) fun i hi₀ hi₁ => ?_
  · rcases happly i with heq | heq <;> rw [heq]
  · rcases happly i with heq | heq <;> rw [heq]
  · rcases happly i with heq | heq <;> rw [heq]
  · rcases happly i with heq | heq
    · exact heq
    · rw [heq, ht.behind i hi₀ hi₁]
      rfl

private theorem clearLinks_isFree (hclear : clearLinks k h = some t) (i : Nat) :
    (t i).isFree = (h i).isFree := by
  rcases clearLinks_apply hclear i with heq | heq <;> rw [heq]

/-- The search for an address of a page ends at its block. -/
theorem findBlock_spec (ht : Table mem h) (hk : k < pageTotal) (d : Nat) (hd : n + d = k) :
    findBlock mem (pageStart mem k) (h 0).allocStart h n = k := by
  induction d generalizing n with
  | zero =>
      obtain rfl : n = k := hd
      rw [findBlock, if_neg (fun hc => hc.1 (ht.allocStart n hk))]
  | succ d ih =>
      have hne : (h n).allocStart ≠ pageStart mem k := by
        rw [ht.allocStart n (by omega)]
        exact fun heq => absurd (pageStart_inj heq) (by omega)
      have hnear : mem + sizeofMemBlock * n < (h 0).allocStart := by
        rw [ht.allocStart 0 (by decide)]
        simp only [pageTotal] at hk
        simp only [pageStart, pageAreaStart, totSize, sizeofMemBlock]
        omega
      rw [findBlock, if_pos ⟨hne, hnear⟩]
      exact ih (by omega)

/-- **`myfree`** of a page's address frees that page and no other. -/
theorem myfree_spec (ht : Table mem h) (hk : k < pageTotal)
    (hcall : myfree mem (pageStart mem k) h = some t) :
    Table mem t ∧ ∀ i, (t i).isFree = if i = k then 1 else (h i).isFree := by
  have hrange : ¬ (pageStart mem k < mem ∨ mem + totSize ≤ pageStart mem k) := by
    simp only [pageTotal] at hk
    simp only [pageStart, pageAreaStart, totSize, pageSize]
    omega
  unfold myfree at hcall
  rw [if_neg hrange] at hcall
  dsimp only at hcall
  rw [findBlock_spec ht hk k (Nat.zero_add k),
    if_neg (fun hne => hne (ht.allocStart k hk))] at hcall
  refine ⟨(ht.setFree hk 1).clearLinks hcall, fun i => ?_⟩
  rw [clearLinks_isFree hcall, setFree_apply]

/-- Freeing `NULL` is refused. -/
theorem myfree_null (hmem : 0 < mem) : myfree mem 0 h = some h := by
  rw [myfree, if_pos (Or.inl hmem)]

/-- What a call that returns did to the pages. -/
inductive Outcome (mem size : Nat) (h : Heap) : Nat → Heap → Prop
  | refused (hwhy : 83886 < size ∨ (∃ f, FirstRun h f 1 ∧ 7920000 < pageSize * f + size) ∨
      size ≤ pageSize ∧ inUse h = {i | i < pageTotal}) : Outcome mem size h 0 h
  | page {f : Nat} (hsize : size ≤ pageSize) (hrun : FirstRun h f 1)
      (hroom : pageSize * f + size ≤ 7920000) :
      Outcome mem size h (pageStart mem f) (Function.update h f { h f with isFree := 0 })
  | run {s : Nat} (hsize : pageSize < size) (hlimit : size ≤ 83886)
      (hnear : ∀ f, FirstRun h f 1 → pageSize * f + size ≤ 7920000)
      (hrun : FirstRun h s (numPageNeed size)) :
      Outcome mem size h (pageStart mem s) (markPages s (numPageNeed size + 1) h)
  | failed {s : Nat} (hsize : pageSize < size) (hlimit : size ≤ 83886)
      (hnear : ∀ f, FirstRun h f 1 → pageSize * f + size ≤ 7920000)
      (hnone : ∀ r, ¬ FreeRun h r (numPageNeed size)) (hs : s < pageTotal)
      (hfree : (h s).isFree ≠ 0) : Outcome mem size h 0 (markPages s (numPageNeed size + 1) h)

/-- The lowest free page, as a run of one. -/
theorem firstRun_one (ht : Table mem h) (hlt : findFree h 0 < pageTotal) :
    FirstRun h (findFree h 0) 1 := by
  obtain ⟨_, hused, hfree⟩ :=
    findFree_spec ht pageTotal (Nat.zero_add _) fun i hi => absurd hi (by omega)
  refine ⟨⟨by omega, fun i hi₀ hi₁ => ?_⟩, fun r hr hrun => ?_⟩
  · obtain rfl : i = findFree h 0 := by omega
    exact hfree hlt
  · exact hrun.2 r le_rfl (by omega) (hused r hr)

private theorem scanning_start (hbound : k ≤ pageTotal) (hused : ∀ i < k, (h i).isFree = 0)
    (hn : 0 < n) :
    Scanning h n k 0 none where
  bound := hbound
  found_le := Nat.zero_le _
  run h₀ := absurd rfl h₀
  saved_free s hs := by cases hs
  first r hr hrun := hrun.2 r le_rfl (by omega) (hused r hr)

/-- The block behind the last page, taken as a page, is the null pointer. -/
theorem Outcome.exhausted (ht : Table mem h) (hused : ∀ i < pageTotal, (h i).isFree = 0)
    (hsize : size ≤ pageSize) :
    Outcome mem size h (h pageTotal).allocStart
      (Function.update h pageTotal { h pageTotal with isFree := 0 }) := by
  have hlast := ht.behind pageTotal le_rfl (by decide)
  have hsame : Function.update h pageTotal { h pageTotal with isFree := 0 } = h := by
    rw [hlast]
    conv_rhs => rw [← Function.update_eq_self pageTotal h, hlast]
    rfl
  rw [hsame, hlast]
  refine Outcome.refused (Or.inr (Or.inr ⟨hsize, ?_⟩))
  ext i
  exact ⟨fun hi => hi.1, fun hi => ⟨hi, hused i hi⟩⟩

/-- There is one lowest run. -/
theorem FirstRun.unique {r : Nat} (hr : FirstRun h r n) (hs : FirstRun h s n) : r = s := by
  rcases lt_trichotomy r s with hlt | heq | hgt
  · exact absurd hr.1 (hs.2 r hlt)
  · exact heq
  · exact absurd hs.1 (hr.2 s hgt)

/-- A request that does not fit behind the lowest free page is refused. -/
theorem Outcome.far (ht : Table mem h) {f : Nat} (hbig : size ≤ 83886) (hbound : f ≤ pageTotal)
    (hrun : f < pageTotal → FirstRun h f 1)
    (hfar : (h 0).allocStart + 7920000 < (h f).allocStart + size) : Outcome mem size h 0 h := by
  rw [ht.allocStart 0 (by decide)] at hfar
  rcases Nat.lt_or_eq_of_le hbound with hlt | rfl
  · rw [ht.allocStart f hlt] at hfar
    refine Outcome.refused (Or.inr (Or.inl ⟨f, hrun hlt, ?_⟩))
    simp only [pageStart] at hfar
    omega
  · rw [ht.behind pageTotal le_rfl (by decide)] at hfar
    simp only [pageStart, MemBlock.zero] at hfar
    omega

private theorem numPageNeed_pos (hsize : pageSize < size) : 0 < numPageNeed size := by
  simp only [pageSize] at hsize
  unfold numPageNeed
  split <;> simp only [pageSize] at * <;> omega

/-- **`mymalloc`.**  Every call that returns is of one of four kinds. -/
theorem mymalloc_spec (ht : Table mem h)
    (hcall : mymalloc mem size THREADREQ h = some (p, t)) : Outcome mem size h p t := by
  obtain ⟨hbound, hused, hfree⟩ :=
    findFree_spec ht pageTotal (Nat.zero_add _) fun i hi => absurd hi (Nat.not_lt_zero i)
  have hrun₁ := firstRun_one ht
  unfold mymalloc at hcall
  rw [ht.ready] at hcall
  dsimp only at hcall
  generalize findFree h 0 = f at hcall hbound hused hfree hrun₁
  rw [if_pos rfl] at hcall
  split_ifs at hcall with hbig hfar hsmall
  · cases hcall
    exact Outcome.refused (Or.inl hbig)
  · cases hcall
    exact Outcome.far ht (not_lt.mp hbig) hbound hrun₁ hfar
  · cases hcall
    rcases Nat.lt_or_eq_of_le hbound with hlt | rfl
    · have hstart := ht.allocStart f hlt
      rw [ht.allocStart 0 (by decide), hstart] at hfar
      have hroom : pageSize * f + size ≤ 7920000 := by
        simp only [pageStart] at hfar
        omega
      have hpage : Outcome mem size h (pageStart mem f) _ :=
        Outcome.page hsmall (hrun₁ hlt) hroom
      rwa [← hstart] at hpage
    · exact Outcome.exhausted ht hused hsmall
  · have hneed := numPageNeed_pos (not_le.mp hsmall)
    have hnear : ∀ r, FirstRun h r 1 → pageSize * r + size ≤ 7920000 := by
      intro r hr
      have hrlt := hr.1.1
      have hflt : f < pageTotal := by
        by_contra hge
        exact hr.1.2 r le_rfl (by omega) (hused r (by omega))
      obtain rfl := hr.unique (hrun₁ hflt)
      rw [ht.allocStart 0 (by decide), ht.allocStart r hflt] at hfar
      simp only [pageStart] at hfar
      omega
    obtain ⟨found, saved, hsearch, hscan⟩ := findRun_spec ht hneed (pageTotal - f) (by omega)
      (scanning_start hbound hused hneed)
    rw [hsearch, Option.bind_eq_bind, Option.bind_some] at hcall
    cases saved with
    | none => cases hcall
    | some s =>
        cases hcall
        by_cases heq : numPageNeed size = found
        · obtain ⟨s', hs', hrun⟩ := hscan.hit heq
          obtain rfl : s = s' := Option.some.inj hs'
          have hlt := (hscan.saved_free s rfl).1
          rw [if_pos heq, ht.allocStart s hlt]
          exact Outcome.run (not_le.mp hsmall) (not_lt.mp hbig) hnear hrun
        · obtain ⟨hlt, hs⟩ := hscan.saved_free s rfl
          rw [if_neg heq]
          exact Outcome.failed (not_le.mp hsmall) (not_lt.mp hbig) hnear (hscan.miss heq) hlt hs

/-- A call for one page returns. -/
theorem mymalloc_returns (mem : Nat) (h : Heap) (request : Int) (hsize : size ≤ pageSize) :
    ∃ p t, mymalloc mem size request h = some (p, t) := by
  unfold mymalloc
  dsimp only
  split_ifs
  all_goals exact ⟨_, _, rfl⟩

/-- A call for several pages returns if there is a run of them. -/
theorem mymalloc_run_returns (ht : Table mem h) (hsize : pageSize < size)
    (hrun : FreeRun h s (numPageNeed size)) :
    ∃ p t, mymalloc mem size THREADREQ h = some (p, t) := by
  obtain ⟨hbound, hused, _⟩ :=
    findFree_spec ht pageTotal (Nat.zero_add _) fun i hi => absurd hi (Nat.not_lt_zero i)
  obtain ⟨found, saved, hsearch, hscan⟩ := findRun_spec ht (numPageNeed_pos hsize)
    (pageTotal - findFree h 0) (by omega) (scanning_start hbound hused (numPageNeed_pos hsize))
  have hfound : numPageNeed size = found := by
    by_contra hne
    exact hscan.miss hne s hrun
  obtain ⟨r, rfl, _⟩ := hscan.hit hfound
  unfold mymalloc
  dsimp only
  rw [ht.ready, if_pos rfl, hsearch]
  split_ifs
  all_goals exact ⟨_, _, rfl⟩

/-- The lowest free page is the one that is handed out. -/
theorem Outcome.eq_page (ho : Outcome mem size h p t) (hsize : size ≤ pageSize)
    (hrun : FirstRun h s 1) (hroom : pageSize * s + size ≤ 7920000) :
    p = pageStart mem s ∧ t = Function.update h s { h s with isFree := 0 } := by
  cases ho with
  | refused hwhy =>
      exfalso
      rcases hwhy with hbig | ⟨f, hf, hfar⟩ | ⟨_, hall⟩
      · simp only [pageSize] at hsize
        omega
      · obtain rfl := hf.unique hrun
        omega
      · have hmem : s ∈ inUse h := hall ▸ (show s < pageTotal from hrun.1.1)
        exact hrun.1.2 s le_rfl (by omega) hmem.2
  | page _ hrun' _ =>
      obtain rfl := hrun'.unique hrun
      exact ⟨rfl, rfl⟩
  | run hlarge => omega
  | failed hlarge => omega

/-- The lowest run is the one that is handed out, with the page behind it. -/
theorem Outcome.eq_run (ho : Outcome mem size h p t) (hsize : pageSize < size)
    (hlimit : size ≤ 83886) (hnear : ∀ f, FirstRun h f 1 → pageSize * f + size ≤ 7920000)
    (hrun : FirstRun h s (numPageNeed size)) :
    p = pageStart mem s ∧ t = Malloc.markPages s (numPageNeed size + 1) h := by
  cases ho with
  | refused hwhy =>
      exfalso
      rcases hwhy with hbig | ⟨f, hf, hfar⟩ | ⟨hsmall, _⟩
      · omega
      · have hle := hnear f hf
        omega
      · omega
  | page hsmall => omega
  | run _ _ _ hrun' =>
      obtain rfl := hrun'.unique hrun
      exact ⟨rfl, rfl⟩
  | failed _ _ _ hnone => exact absurd hrun.1 (hnone s)

/-- On a fresh heap the lowest run starts at the first page. -/
theorem firstRun_fresh (mem : Nat) (hn : n ≤ pageTotal) : FirstRun (freshBlock mem) 0 n := by
  refine ⟨⟨by omega, fun i _ hi => ?_⟩, fun r hr => absurd hr (Nat.not_lt_zero r)⟩
  rw [freshBlock, if_pos (by omega)]
  exact one_ne_zero

end Malloc
