import CS416.Lib.Holdings
import CS416.Malloc.Heap

/-!
# The table of pages

A table that has been laid out keeps its links and addresses for good; calls
change only the flags `is_free` and the links `next_page`.  Each loop of the
allocator gets its specification over such a table.
-/

namespace Malloc

/-- The number of pages between the end of the metadata and the end of `mem`. -/
abbrev pageTotal : Nat := 2029

/-- The blocks that lie before the first page. -/
abbrev blockTotal : Nat := 2097

/-- The address of page `i`. -/
def pageStart (mem i : Nat) : Nat := mem + pageAreaStart + pageSize * i

/-- The table as `setUpPages` leaves it. -/
def freshBlock (mem i : Nat) : MemBlock :=
  if i < pageTotal then
    { next := some (i + 1), nextPage := none, allocStart := pageStart mem i, isFree := 1,
      pageNum := i + 1, TID := 0 }
  else MemBlock.zero

/-- The parts of the table that no call changes once it is laid out: the pages, and the
blocks of zeros behind them. -/
structure Table (mem : Nat) (h : Heap) : Prop where
  next : ∀ i < pageTotal, (h i).next = some (i + 1)
  allocStart : ∀ i < pageTotal, (h i).allocStart = pageStart mem i
  pageNum : ∀ i < pageTotal, (h i).pageNum ≠ 0
  behind : ∀ i, pageTotal ≤ i → i < blockTotal → h i = MemBlock.zero

/-- The pages in use. -/
def inUse (h : Heap) : Set Nat := {i | i < pageTotal ∧ (h i).isFree = 0}

/-- `n` free pages from page `s` on. -/
def FreeRun (h : Heap) (s n : Nat) : Prop :=
  s + n ≤ pageTotal ∧ ∀ i, s ≤ i → i < s + n → (h i).isFree ≠ 0

/-- The lowest `n` free pages in a row. -/
def FirstRun (h : Heap) (s n : Nat) : Prop :=
  FreeRun h s n ∧ ∀ r < s, ¬ FreeRun h r n

section SetUp

variable {mem k : Nat}

/-- The table after `k` rounds of the loop. -/
def layered (mem k : Nat) : Heap := fun i => if i < k then freshBlock mem i else MemBlock.zero

private theorem layered_succ (hk : k < pageTotal) :
    Function.update (Function.update (layered mem k) k (freshBlock mem k)) (k + 1)
      { MemBlock.zero with next := none } = layered mem (k + 1) := by
  funext i
  rcases lt_trichotomy i k with hi | rfl | hi
  · rw [Function.update_of_ne (by omega), Function.update_of_ne (by omega)]
    simp [layered, hi, Nat.lt_succ_of_lt hi]
  · rw [Function.update_of_ne (by omega), Function.update_self]
    simp [layered]
  · by_cases hik : i = k + 1
    · subst i
      rw [Function.update_self]
      simp [layered, MemBlock.zero]
    · rw [Function.update_of_ne hik, Function.update_of_ne (by omega), layered, layered,
        if_neg (by omega), if_neg (by omega)]

private theorem setUpPages_layered (hk : k < pageTotal) :
    setUpPages mem (pageAreaStart + pageSize * k) ((k : Int) + 1) k (layered mem k) =
      setUpPages mem (pageAreaStart + pageSize * (k + 1)) ((k + 1 : Nat) + 1) (k + 1)
        (layered mem (k + 1)) := by
  have hroom : pageAreaStart + pageSize * k < totSize - pageSize := by
    simp only [pageTotal] at hk
    simp only [pageAreaStart, pageSize, totSize]
    omega
  have hself : layered mem k k = MemBlock.zero := by simp [layered]
  have hnext : layered mem k (k + 1) = MemBlock.zero := by simp [layered]
  have hblock : freshBlock mem k =
      { MemBlock.zero with isFree := 1, pageNum := (k : Int) + 1, TID := 0,
                           allocStart := mem + (pageAreaStart + pageSize * k),
                           nextPage := none, next := some (k + 1) } := by
    rw [freshBlock, if_pos hk, pageStart, Nat.add_assoc]
  have hsum : pageAreaStart + pageSize * (k + 1) = pageAreaStart + pageSize * k + pageSize := by
    rw [Nat.mul_succ, Nat.add_assoc]
  rw [setUpPages, if_pos hroom, ← layered_succ hk, hsum, hblock, Nat.cast_add, Nat.cast_one,
    hself]
  dsimp only
  rw [Function.update_of_ne (by omega), hnext]

/-- The loop lays out every page. -/
theorem setUpPages_fresh (d : Nat) (hk : k + d = pageTotal) :
    setUpPages mem (pageAreaStart + pageSize * k) ((k : Int) + 1) k (layered mem k) =
      freshBlock mem := by
  induction d generalizing k with
  | zero =>
      obtain rfl : k = pageTotal := hk
      rw [setUpPages, if_neg (by decide)]
      funext i
      by_cases hi : i < pageTotal
      · rw [layered, if_pos hi]
      · rw [layered, if_neg hi, freshBlock, if_neg hi]
  | succ d ih =>
      rw [setUpPages_layered (by omega)]
      exact ih (by omega)

/-- The first call sets the table up in order. -/
theorem table_fresh : Table mem (freshBlock mem) where
  next i hi := by rw [freshBlock, if_pos hi]
  allocStart i hi := by rw [freshBlock, if_pos hi]
  pageNum i hi := by
    rw [freshBlock, if_pos hi]
    simp only
    omega
  behind i hi _ := by rw [freshBlock, if_neg (by omega)]

/-- No page is in use at first. -/
theorem inUse_fresh : inUse (freshBlock mem) = ∅ := by
  refine Set.eq_empty_of_forall_notMem fun i hi => ?_
  have hfree := hi.2
  rw [freshBlock, if_pos hi.1] at hfree
  exact absurd hfree one_ne_zero

/-- The first call sets the pages up. -/
theorem ready_start : ready mem Heap.start = freshBlock mem := by
  have hstart : Heap.start = layered mem 0 := by
    funext i
    simp [Heap.start, layered]
  have hzero : (layered mem 0 0).pageNum = 0 := rfl
  rw [hstart, ready, if_pos hzero]
  exact setUpPages_fresh pageTotal (Nat.zero_add _)

/-- Later calls leave the table alone. -/
theorem Table.ready {h : Heap} (ht : Table mem h) : ready mem h = h := by
  rw [Malloc.ready, if_neg (ht.pageNum 0 (by decide))]

end SetUp

section Search

variable {mem : Nat} {h : Heap} {need curr found : Nat} {saved : Option Nat}

/-- The search stops at the lowest free page, or at the block behind the last page. -/
theorem findFree_spec (ht : Table mem h) (d : Nat) (hd : curr + d = pageTotal)
    (hused : ∀ i < curr, (h i).isFree = 0) :
    findFree h curr ≤ pageTotal ∧ (∀ i < findFree h curr, (h i).isFree = 0) ∧
      (findFree h curr < pageTotal → (h (findFree h curr)).isFree ≠ 0) := by
  induction d generalizing curr with
  | zero =>
      obtain rfl : curr = pageTotal := hd
      have hlast := ht.behind pageTotal le_rfl (by decide)
      have hstop : findFree h pageTotal = pageTotal := by
        rw [findFree, hlast, if_neg (by simp [MemBlock.zero])]
      rw [hstop]
      exact ⟨le_rfl, hused, fun hlt => absurd hlt (lt_irrefl _)⟩
  | succ d ih =>
      have hlt : curr < pageTotal := by omega
      have hnear : sizeofMemBlock * curr < libPageStart := by
        simp only [pageTotal] at hlt
        simp only [sizeofMemBlock, libPageStart, totSize]
        omega
      rw [findFree, ht.next curr hlt]
      by_cases hfree : (h curr).isFree = 0
      · rw [if_pos ⟨⟨hfree, by simp⟩, hnear⟩]
        refine ih (by omega) fun i hi => ?_
        rcases Nat.lt_succ_iff_lt_or_eq.mp hi with hi | rfl
        · exact hused i hi
        · exact hfree
      · rw [if_neg (fun hc => hfree hc.1.1)]
        exact ⟨hlt.le, hused, fun _ => hfree⟩

/-- What the loop has found when it looks at block `curr`: the `found` pages before it are
free, and no run starts before them. -/
structure Scanning (h : Heap) (need curr found : Nat) (saved : Option Nat) : Prop where
  bound : curr ≤ pageTotal
  found_le : found ≤ need
  run : found ≠ 0 → ∃ s, saved = some s ∧ s + found = curr ∧
    ∀ i, s ≤ i → i < curr → (h i).isFree ≠ 0
  saved_free : ∀ s, saved = some s → s < pageTotal ∧ (h s).isFree ≠ 0
  first : ∀ r, r + found < curr → ¬ FreeRun h r need

/-- What the loop has found in the end. -/
structure Scanned (h : Heap) (need found : Nat) (saved : Option Nat) : Prop where
  hit : need = found → ∃ s, saved = some s ∧ FirstRun h s need
  miss : need ≠ found → ∀ r, ¬ FreeRun h r need
  saved_free : ∀ s, saved = some s → s < pageTotal ∧ (h s).isFree ≠ 0

/-- The scan has found its run. -/
theorem Scanning.hit (hs : Scanning h need curr found saved) (hneed : 0 < need)
    (heq : need = found) : Scanned h need found saved where
  hit _ := by
    obtain ⟨s, hsaved, hsum, hfree⟩ := hs.run (by omega)
    have hbound := hs.bound
    refine ⟨s, hsaved, ⟨by omega, fun i hi₀ hi₁ => hfree i hi₀ (by omega)⟩, fun r hr => ?_⟩
    exact hs.first r (by omega)
  miss hne := absurd heq hne
  saved_free := hs.saved_free

/-- The end of the table without a run. -/
theorem Scanning.miss (hs : Scanning h need pageTotal found saved) (hne : need ≠ found) :
    Scanned h need found saved where
  hit heq := absurd heq hne
  miss _ r hrun := by
    have hle := hs.found_le
    by_cases hr : r + found < pageTotal
    · exact hs.first r hr hrun
    · have hroom := hrun.1
      omega
  saved_free := hs.saved_free

/-- A free page starts a run or makes it longer. -/
theorem Scanning.free (hs : Scanning h need curr found saved) (hlt : curr < pageTotal)
    (hne : need ≠ found) (hfree : (h curr).isFree ≠ 0) :
    Scanning h need (curr + 1) (found + 1) (if found = 0 then some curr else saved) where
  bound := hlt
  found_le := by
    have hle := hs.found_le
    omega
  run _ := by
    by_cases hzero : found = 0
    · refine ⟨curr, by rw [if_pos hzero], by omega, fun i hi₀ hi₁ => ?_⟩
      obtain rfl : i = curr := by omega
      exact hfree
    · obtain ⟨s, hsaved, hsum, hrun⟩ := hs.run hzero
      refine ⟨s, by rw [if_neg hzero, hsaved], by omega, fun i hi₀ hi₁ => ?_⟩
      by_cases hi : i = curr
      · rw [hi]
        exact hfree
      · exact hrun i hi₀ (by omega)
  saved_free s hsome := by
    by_cases hzero : found = 0
    · rw [if_pos hzero] at hsome
      obtain rfl : curr = s := Option.some.inj hsome
      exact ⟨hlt, hfree⟩
    · rw [if_neg hzero] at hsome
      exact hs.saved_free s hsome
  first r hr := hs.first r (by omega)

/-- A page in use ends a run. -/
theorem Scanning.used (hs : Scanning h need curr found saved) (hlt : curr < pageTotal)
    (hne : need ≠ found) (hused : (h curr).isFree = 0) :
    Scanning h need (curr + 1) 0 saved where
  bound := hlt
  found_le := Nat.zero_le _
  run h₀ := absurd rfl h₀
  saved_free := hs.saved_free
  first r hr hrun := by
    have hle := hs.found_le
    by_cases hr' : r + found < curr
    · exact hs.first r hr' hrun
    · exact hrun.2 curr (by omega) (by omega) hused

/-- **The scan for a run** ends, and says what it has found. -/
theorem findRun_spec (ht : Table mem h) (hneed : 0 < need) (d : Nat)
    (hd : curr + d = pageTotal) (hs : Scanning h need curr found saved) :
    ∃ found' saved', findRun h need curr found saved = some (found', saved') ∧
      Scanned h need found' saved' := by
  induction d generalizing curr found saved with
  | zero =>
      obtain rfl : curr = pageTotal := hd
      have hlast := ht.behind pageTotal le_rfl (by decide)
      refine ⟨found, saved, ?_, ?_⟩
      · rw [findRun, if_neg (by decide), hlast, if_pos (show MemBlock.zero.next = none from rfl)]
      · by_cases heq : need = found
        · exact hs.hit hneed heq
        · exact hs.miss heq
  | succ d ih =>
      have hlt : curr < pageTotal := by omega
      have hroom : ¬ totSize < sizeofMemBlock * (curr + 1) := by
        simp only [pageTotal] at hlt
        simp only [sizeofMemBlock, totSize]
        omega
      rw [findRun, if_neg hroom, ht.next curr hlt, if_neg (by simp)]
      by_cases heq : need = found
      · rw [if_pos heq]
        exact ⟨found, saved, rfl, hs.hit hneed heq⟩
      · rw [if_neg heq]
        by_cases hfree : (h curr).isFree = 0
        · have hrest := hs.used hlt heq hfree
          by_cases hzero : found = 0
          · subst found
            simp only [hfree, ne_eq, not_true_eq_false, and_true, and_false, if_false]
            exact ih (by omega) hrest
          · simp only [hfree, hzero, ne_eq, not_true_eq_false, not_false_eq_true, and_true,
              false_and, if_false, if_true]
            exact ih (by omega) hrest
        · have hrest := hs.free hlt heq hfree
          by_cases hzero : found = 0
          · rw [if_pos hzero] at hrest
            rw [if_pos ⟨hfree, hzero⟩]
            exact ih (by omega) hrest
          · rw [if_neg hzero] at hrest
            rw [if_neg (fun hc => hzero hc.2), if_pos ⟨hfree, hzero⟩]
            exact ih (by omega) hrest

end Search

end Malloc
