import CS416.Lib.Bytes
import CS416.Paging.Addresses

/-!
# Memory behind protections

All threads use the same addresses of `memory`.  An access to a frame that is
locked runs `vmem_sig_handler`, which swaps the contents of the frame with
those of the running thread's page for that address, and is then retried.  The
handler leaves the pointers `page` as they are.

A thread is the address of its `my_pthread_t` object, and 0 is `NULL`.  The
objects of the threads and the `Queue` objects are not in `memory`; the nodes
of the queues may be anywhere.  `none` is a call that does not return: the
process is killed by a second `SIGSEGV`, or faults for ever.
-/

namespace Paging

/-- `NUM_PRIORITY` -/
abbrev numPriority : Int := 5

/-- `enum thread_status` -/
inductive Status
  | active
  | yield
  | waitThread
  | waitMutex
  | threadExit
  deriving DecidableEq

/-- The fields of `my_pthread_t` that the scheduler reads. -/
structure Sched where
  priority : Int
  intervalsRun : Int
  status : Status

/-- `Queue` -/
structure Queue where
  back : Nat
  size : Int
  deriving DecidableEq

/-- The frames with their contents and protection, the rest of the address space, the page
tables, and the scheduler with the queues of `priority_level`. -/
structure Machine where
  pages : Pages
  frames : Page → Nat → UInt8
  locked : Page → Bool
  outside : Nat → Option UInt8
  running : Nat
  sched : Nat → Sched
  queue : Int → Queue
  waiting : Int → Option Nat
  currentPriority : Int
  runAtPriority : Int

/-- The frame at an address. -/
def frameAt (s : Pages) (address : Nat) :
    Page := Fin.ofNat numPages ((address - s.memory) / pageSize)

/-- The address of a byte of a frame. -/
def addressOf (s : Pages) (f : Page) (j : Nat) : Nat := s.memory + f * pageSize + j

def InMemory (s : Pages) (a : Nat) : Prop :=
  s.memory ≤ a ∧ a < s.memory + numPages * pageSize

instance (s : Pages) (a : Nat) : Decidable (InMemory s a) := inferInstanceAs (Decidable (_ ∧ _))

/-- The byte that lies at an address, if one is mapped there; the page at `NULL` is not. -/
def byteAt (m : Machine) (a : Nat) : Option UInt8 :=
  if a < pageSize then none
  else if InMemory m.pages a then
    some (m.frames (frameAt m.pages a) ((a - m.pages.memory) % pageSize))
  else m.outside a

/-- The pointer that lies at an address. -/
def wordAt (m : Machine) (a : Nat) : Option Nat :=
  if ∀ j : Fin 8, (byteAt m (a + j)).isSome then
    some (Bytes.toNat fun j : Fin 8 => (byteAt m (a + j)).getD 0)
  else none

/-- Byte `k` of the pointer `v`. -/
def digit (v k : Nat) : UInt8 := UInt8.ofNat (v / 256 ^ k)

/-- Byte `k` of a `Node`. -/
def nodeByte (thread next k : Nat) : UInt8 := if k < 8 then digit thread k else digit next (k - 8)

/-- The pointer `v` is put at an address. -/
def putWord (a v : Nat) (m : Machine) : Machine :=
  { m with
    frames := fun f j =>
      if j < pageSize ∧ a ≤ addressOf m.pages f j ∧ addressOf m.pages f j < a + 8 then
        digit v (addressOf m.pages f j - a)
      else m.frames f j
    outside := fun b =>
      if a ≤ b ∧ b < a + 8 then (m.outside b).map fun _ => digit v (b - a) else m.outside b }

/-- `vmem_sig_handler` for a fault at an address in frame `k`; it is killed if it goes through
`NULL`, or touches a locked frame itself. -/
def vmemSigHandler (k : Page) (m : Machine) : Option Machine := do
  if m.running = 0 then none
  let wrongPage := m.pages.memory + k * pageSize
  let ptr ← (pagesOf m.pages m.running)[(k : Nat)]?
  let rightPage := (m.pages.pageData ptr).page
  let swapout ← (List.finRange numPages).find? fun i => (m.pages.pageData i).page = wrongPage
  let swapin ← (List.finRange numPages).find? fun i => (m.pages.pageData i).page = rightPage
  let right := frameAt m.pages rightPage
  let locked := Function.update m.locked k false
  if locked right then none
  else
    let tempPage := m.frames k
    let frames := Function.update m.frames k (m.frames right)
    let frames := Function.update frames right tempPage
    let d := Function.update m.pages.pageData swapin
      { m.pages.pageData swapin with page := rightPage }
    let d := Function.update d swapout { d swapout with page := wrongPage }
    return { m with frames := frames, pages := { m.pages with pageData := d },
                    locked := Function.update locked right true }

/-- An access to the frames `ks` with its faults, `n` at most, until it goes through. -/
def settle (ks : List Page) : Nat → Machine → Option Machine
  | 0, _ => none
  | n + 1, m =>
    match ks.find? m.locked with
    | some k => (vmemSigHandler k m).bind (settle ks n)
    | none => some m

/-- The frames that a pointer at an address lies in. -/
def touched (s : Pages) (a : Nat) : List Page :=
  ([a, a + 7].filter fun b => InMemory s b).map (frameAt s)

section Words

variable {m : Machine} {a b v : Nat}

/-- The digits of a pointer of eight bytes make it up. -/
theorem toNat_digits (v : Nat) : (Bytes.toNat fun j : Fin 8 => digit v j) = v % 2 ^ 64 := by
  have hsum := Bytes.sum_digits v 8
  have hsize : (256 : Nat) ^ 8 = 2 ^ 64 := by norm_num
  rw [hsize] at hsum
  rw [← hsum]
  apply Finset.sum_congr rfl
  intro j _
  show (UInt8.ofNat (v / 256 ^ (j : Nat))).toNat * _ = _
  rw [UInt8.toNat_ofNat']

/-- The byte of a frame that an address stands for. -/
theorem addressOf_frameAt {s : Pages} (h : InMemory s a) :
    addressOf s (frameAt s a) ((a - s.memory) % pageSize) = a := by
  obtain ⟨hle, hlt⟩ := h
  simp only [addressOf, frameAt, Fin.val_ofNat, pageSize, numPages] at hlt ⊢
  omega

/-- The bytes after a store. -/
theorem byteAt_putWord (a v : Nat) (m : Machine) (b : Nat) :
    byteAt (putWord a v m) b =
      if a ≤ b ∧ b < a + 8 then (byteAt m b).map fun _ => digit v (b - a) else byteAt m b := by
  unfold byteAt
  have hpages : (putWord a v m).pages = m.pages := rfl
  rw [hpages]
  by_cases hnull : b < pageSize
  · simp [hnull]
  · rw [if_neg hnull]
    by_cases hin : InMemory m.pages b
    · have hoff : (b - m.pages.memory) % pageSize < pageSize := Nat.mod_lt _ (by decide)
      simp only [if_pos hin, if_neg hnull, putWord, addressOf_frameAt hin, hoff, true_and]
      split
      · rfl
      · rfl
    · simp only [if_neg hin, if_neg hnull, putWord]

/-- A store leaves the pointers elsewhere. -/
theorem wordAt_putWord_of_apart (h : b + 8 ≤ a ∨ a + 8 ≤ b) (v : Nat) :
    wordAt (putWord a v m) b = wordAt m b := by
  have hbytes : ∀ j : Fin 8, byteAt (putWord a v m) (b + j) = byteAt m (b + j) := by
    intro j
    rw [byteAt_putWord, if_neg (by omega)]
  simp only [wordAt, hbytes]

/-- **A pointer that is stored reads back.** -/
theorem wordAt_putWord_self (h : (wordAt m a).isSome) (v : Nat) :
    wordAt (putWord a v m) a = some (v % 2 ^ 64) := by
  have hmapped : ∀ j : Fin 8, (byteAt m (a + j)).isSome := by
    by_contra hnot
    rw [wordAt, if_neg hnot] at h
    cases h
  have hbytes : ∀ j : Fin 8, byteAt (putWord a v m) (a + j) = some (digit v j) := by
    intro j
    obtain ⟨x, hx⟩ := Option.isSome_iff_exists.mp (hmapped j)
    rw [byteAt_putWord, if_pos (by omega), hx, Option.map_some, Nat.add_sub_cancel_left]
  have hall : ∀ j : Fin 8, (byteAt (putWord a v m) (a + j)).isSome := by
    intro j
    rw [hbytes]
    rfl
  rw [wordAt, if_pos hall, ← toNat_digits]
  simp only [hbytes, Option.getD_some]

/-- A pointer has 64 bits. -/
theorem wordAt_lt (h : wordAt m a = some v) : v < 2 ^ 64 := by
  have hsize : (256 : Nat) ^ 8 = 2 ^ 64 := by norm_num
  obtain ⟨_, hv⟩ := Option.ite_none_right_eq_some.mp h
  rw [← Option.some.inj hv, ← hsize]
  exact Bytes.toNat_lt _

end Words

section Faults

variable {m m' m'' : Machine} {k r : Page} {ks : List Page} {n : Nat}

/-- The frame of the running thread's page for frame `k`. -/
def rightFrame (m : Machine) (k : Page) : Option Page :=
  ((pagesOf m.pages m.running)[(k : Nat)]?).map fun i =>
    frameAt m.pages (m.pages.pageData i).page

/-- Nothing but the contents and the protections of frames has changed. -/
def OnlyFrames (m m' : Machine) : Prop := m' = { m with frames := m'.frames, locked := m'.locked }

theorem OnlyFrames.refl (m : Machine) : OnlyFrames m m := rfl

/-- One change of frames after another. -/
theorem OnlyFrames.trans (h : OnlyFrames m m') (h' : OnlyFrames m' m'') : OnlyFrames m m'' := by
  unfold OnlyFrames at *
  rw [h', h]

/-- What a fault at frame `k` does, where the page for it is in frame `r`. -/
structure Faulted (k r : Page) (m m' : Machine) : Prop where
  running : m.running ≠ 0
  right : rightFrame m k = some r
  reachable : r = k ∨ m.locked r = false
  only : OnlyFrames m m'
  locked : m'.locked = Function.update (Function.update m.locked k false) r true

private theorem update_page (d : Page → PageMeta) (j : Page) {address : Nat}
    (h : (d j).page = address) : Function.update d j { d j with page := address } = d := by
  rw [← h]
  exact Function.update_eq_self j d

/-- **The handler leaves `page_data` as it is**, and locks the frame of the caller's page. -/
theorem vmemSigHandler_faulted (h : vmemSigHandler k m = some m') : ∃ r, Faulted k r m m' := by
  unfold vmemSigHandler at h
  split at h
  · cases h
  case isFalse hrun =>
    obtain ⟨i, hi, h⟩ := Option.bind_eq_some_iff.mp h
    obtain ⟨swapout, hout, h⟩ := Option.bind_eq_some_iff.mp h
    obtain ⟨swapin, hin, h⟩ := Option.bind_eq_some_iff.mp h
    have hpageOut := List.find?_some hout
    have hpageIn := List.find?_some hin
    simp only [decide_eq_true_eq] at hpageOut hpageIn
    dsimp only at h
    split at h
    · cases h
    case isFalse hopen =>
      obtain rfl := Option.some.inj h
      refine ⟨frameAt m.pages (m.pages.pageData i).page, hrun, ?_, ?_, ?_, rfl⟩
      · rw [rightFrame, hi]
        rfl
      · by_cases hself : frameAt m.pages (m.pages.pageData i).page = k
        · exact Or.inl hself
        · rw [Function.update_of_ne hself] at hopen
          exact Or.inr (Bool.eq_false_iff.mpr hopen)
      · unfold OnlyFrames
        dsimp only
        rw [update_page _ swapin hpageIn, update_page _ swapout hpageOut]

/-- The page tables say the same after a fault. -/
theorem OnlyFrames.rightFrame_eq (h : OnlyFrames m m') (k : Page) :
    rightFrame m' k = rightFrame m k := by
  unfold OnlyFrames at h
  rw [h]
  rfl

/-- An access that goes through leaves frames and protections behind, and none of its frames
locked. -/
theorem settle_spec (h : settle ks n m = some m') :
    OnlyFrames m m' ∧ ∀ k ∈ ks, m'.locked k = false := by
  induction n generalizing m with
  | zero => cases h
  | succ n ih =>
      unfold settle at h
      split at h
      case h_1 k hk =>
        obtain ⟨m₁, hfault, hrest⟩ := Option.bind_eq_some_iff.mp h
        obtain ⟨r, hr⟩ := vmemSigHandler_faulted hfault
        obtain ⟨honly, hopen⟩ := ih hrest
        exact ⟨hr.only.trans honly, hopen⟩
      case h_2 hnone =>
        obtain rfl := Option.some.inj h
        refine ⟨.refl m, fun k hk => ?_⟩
        have hopen := List.find?_eq_none.mp hnone k hk
        exact Bool.eq_false_iff.mpr hopen

/-- An access to frames that are not locked goes straight to them. -/
theorem settle_open (hopen : ∀ k ∈ ks, m.locked k = false) (n : Nat) :
    settle ks (n + 1) m = some m := by
  have hnone : ks.find? m.locked = none := by
    apply List.find?_eq_none.mpr
    intro k hk
    rw [hopen k hk]
    decide
  rw [settle, hnone]

end Faults

section Retries

variable {m m' m₁ m₂ m₃ : Machine} {a b k k₁ k₂ k₃ r r₁ r₂ r₃ : Page} {n : Nat}

/-- A fault locks one frame and unlocks another. -/
theorem Faulted.locked_at (h : Faulted k r m m') (x : Page) :
    m'.locked x = if x = r then true else if x = k then false else m.locked x := by
  rw [h.locked, Function.update_apply, Function.update_apply]

/-- The first locked frame of two. -/
theorem find_pair (l : Page → Bool) : [a, b].find? l = some k ↔
    (l a = true ∧ k = a) ∨ (l a = false ∧ l b = true ∧ k = b) := by
  cases ha : l a <;> cases hb : l b <;> simp [ha, hb, eq_comm]

/-- The faults at two frames go on for ever: a frame is locked again by its own fault, or
each fault locks the other frame. -/
def Stuck (a b : Page) (m : Machine) : Prop :=
  (m.locked a = true ∧ rightFrame m a = some a) ∨ (m.locked b = true ∧ rightFrame m b = some b) ∨
    (rightFrame m a = some b ∧ rightFrame m b = some a ∧ (m.locked a = true ∨ m.locked b = true))

/-- One of the two frames is locked. -/
theorem Stuck.locked (h : Stuck a b m) : m.locked a = true ∨ m.locked b = true := by
  rcases h with h | h | h
  · exact Or.inl h.1
  · exact Or.inr h.1
  · exact h.2.2

/-- A fault leaves them so. -/
theorem Stuck.fault (h : Stuck a b m) (hk : [a, b].find? m.locked = some k)
    (hfault : Faulted k r m m') : Stuck a b m' := by
  have hright := hfault.only.rightFrame_eq
  have hr := hfault.right
  unfold Stuck
  rw [hright, hright]
  rcases (find_pair _).mp hk with ⟨ha, rfl⟩ | ⟨ha, hb, rfl⟩
  · rcases h with ⟨_, hself⟩ | ⟨hb, hself⟩ | ⟨hab, hba, _⟩
    · obtain rfl := Option.some.inj (hr.symm.trans hself)
      exact Or.inl ⟨by rw [hfault.locked_at, if_pos rfl], hself⟩
    · refine Or.inr (Or.inl ⟨?_, hself⟩)
      rw [hfault.locked_at]
      by_cases hbr : b = r
      · rw [if_pos hbr]
      · rw [if_neg hbr]
        have hbk : b ≠ k := by
          intro heq
          subst heq
          exact hbr (Option.some.inj (hself.symm.trans hr))
        rw [if_neg hbk]
        exact hb
    · obtain rfl := Option.some.inj (hr.symm.trans hab)
      exact Or.inr (Or.inr ⟨hab, hba, Or.inr (by rw [hfault.locked_at, if_pos rfl])⟩)
  · rcases h with ⟨hlocked, _⟩ | ⟨_, hself⟩ | ⟨hab, hba, _⟩
    · rw [ha] at hlocked
      cases hlocked
    · obtain rfl := Option.some.inj (hr.symm.trans hself)
      exact Or.inr (Or.inl ⟨by rw [hfault.locked_at, if_pos rfl], hself⟩)
    · obtain rfl := Option.some.inj (hr.symm.trans hba)
      exact Or.inr (Or.inr ⟨hab, hba, Or.inl (by rw [hfault.locked_at, if_pos rfl])⟩)

/-- An access to two frames whose faults lock each other never goes through. -/
theorem Stuck.settle (h : Stuck a b m) (n : Nat) : settle [a, b] n m = none := by
  induction n generalizing m with
  | zero => rfl
  | succ n ih =>
      unfold Paging.settle
      split
      case h_1 k hk =>
        cases hcall : vmemSigHandler k m with
        | none => rfl
        | some m' =>
            obtain ⟨r, hfault⟩ := vmemSigHandler_faulted hcall
            exact ih (h.fault hk hfault)
      case h_2 hnone =>
        have hopen := List.find?_eq_none.mp hnone
        rcases h.locked with ha | hb
        · exact absurd ha (hopen a (by simp))
        · exact absurd hb (hopen b (by simp))

/-- **A third fault is one too many.** -/
theorem stuck_of_faults (hk₁ : [a, b].find? m.locked = some k₁) (h₁ : Faulted k₁ r₁ m m₁)
    (hk₂ : [a, b].find? m₁.locked = some k₂) (h₂ : Faulted k₂ r₂ m₁ m₂)
    (hk₃ : [a, b].find? m₂.locked = some k₃) (h₃ : Faulted k₃ r₃ m₂ m₃) : Stuck a b m₂ := by
  have hright₁ := h₁.only.rightFrame_eq
  have hright₂ : ∀ x, rightFrame m₂ x = rightFrame m x := fun x =>
    (h₂.only.rightFrame_eq x).trans (hright₁ x)
  have hr₁ := h₁.right
  have hr₂ := h₂.right
  rw [hright₁] at hr₂
  -- a frame that faults twice in a row was locked by its own fault
  have hself : ∀ {x r : Page} {u v : Machine}, Faulted x r u v → v.locked x = true → r = x := by
    intro x r u v hfault hlocked
    rw [hfault.locked_at] at hlocked
    by_contra hne
    rw [if_neg (Ne.symm hne), if_pos rfl] at hlocked
    cases hlocked
  rcases (find_pair _).mp hk₁ with ⟨ha, rfl⟩ | ⟨ha, hb, rfl⟩
  · rcases (find_pair _).mp hk₂ with ⟨ha₁, rfl⟩ | ⟨ha₁, hb₁, rfl⟩
    · obtain rfl := hself h₁ ha₁
      exact Stuck.fault (Or.inl ⟨ha₁, (hright₁ _).trans hr₁⟩) hk₂ h₂
    · rcases (find_pair _).mp hk₃ with ⟨ha₂, rfl⟩ | ⟨ha₂, hb₂, rfl⟩
      · -- the fault at the second frame has locked the first one
        have hr₂a : r₂ = k₃ := by
          rw [h₂.locked_at] at ha₂
          by_contra hne
          rw [if_neg (Ne.symm hne)] at ha₂
          split at ha₂
          · cases ha₂
          · rw [ha₁] at ha₂
            cases ha₂
        have hr₁b : r₁ = k₂ := by
          have hr₃ := h₃.right
          rw [hright₂, hr₁] at hr₃
          obtain rfl := Option.some.inj hr₃
          have hlocked₁ : m₁.locked r₁ = true := by rw [h₁.locked_at, if_pos rfl]
          have hne : r₁ ≠ k₃ := by
            intro heq
            rw [heq, ha₁] at hlocked₁
            cases hlocked₁
          have hopen := h₃.reachable.resolve_left hne
          rw [h₂.locked_at, hr₂a, if_neg hne] at hopen
          by_contra hnb
          rw [if_neg hnb, hlocked₁] at hopen
          cases hopen
        refine Or.inr (Or.inr ⟨?_, ?_, Or.inl ha₂⟩)
        · rw [hright₂, hr₁, hr₁b]
        · rw [hright₂, hr₂, hr₂a]
      · obtain rfl := hself h₂ hb₂
        exact Or.inr (Or.inl ⟨hb₂, (hright₂ _).trans hr₂⟩)
  · rcases (find_pair _).mp hk₂ with ⟨ha₁, rfl⟩ | ⟨ha₁, hb₁, rfl⟩
    · have hr₁a : r₁ = k₂ := by
        rw [h₁.locked_at] at ha₁
        by_contra hne
        rw [if_neg (Ne.symm hne)] at ha₁
        split at ha₁
        · cases ha₁
        · rw [ha] at ha₁
          cases ha₁
      rcases (find_pair _).mp hk₃ with ⟨ha₂, rfl⟩ | ⟨ha₂, hb₂, rfl⟩
      · obtain rfl := hself h₂ ha₂
        exact Or.inl ⟨ha₂, (hright₂ _).trans hr₂⟩
      · have hr₂b : r₂ = k₃ := by
          rw [h₂.locked_at] at hb₂
          by_contra hne
          rw [if_neg (Ne.symm hne)] at hb₂
          split at hb₂
          · cases hb₂
          case isFalse hk =>
            rw [h₁.locked_at, hr₁a, if_neg hk, if_pos rfl] at hb₂
            cases hb₂
        refine Or.inr (Or.inr ⟨?_, ?_, Or.inr hb₂⟩)
        · rw [hright₂, hr₂, hr₂b]
        · rw [hright₂, hr₁, hr₁a]
    · obtain rfl := hself h₁ hb₁
      exact Stuck.fault (Or.inr (Or.inl ⟨hb₁, (hright₁ _).trans hr₁⟩)) hk₂ h₂

/-- **Three tries decide.**  A pointer lies in two frames at most, and if the access does not
go through after two faults it never does. -/
theorem settle_pair (h : settle [a, b] n m = some m') : settle [a, b] 3 m = some m' := by
  cases hk₁ : [a, b].find? m.locked with
  | none =>
      cases n with
      | zero => cases h
      | succ n =>
          unfold settle at h ⊢
          rw [hk₁] at h ⊢
          exact h
  | some k₁ =>
      cases n with
      | zero => cases h
      | succ n =>
          unfold settle at h ⊢
          rw [hk₁] at h ⊢
          obtain ⟨m₁, hcall₁, h⟩ := Option.bind_eq_some_iff.mp h
          refine Option.bind_eq_some_iff.mpr ⟨m₁, hcall₁, ?_⟩
          obtain ⟨r₁, h₁⟩ := vmemSigHandler_faulted hcall₁
          cases hk₂ : [a, b].find? m₁.locked with
          | none =>
              cases n with
              | zero => cases h
              | succ n =>
                  unfold settle at h ⊢
                  rw [hk₂] at h ⊢
                  exact h
          | some k₂ =>
              cases n with
              | zero => cases h
              | succ n =>
                  unfold settle at h ⊢
                  rw [hk₂] at h ⊢
                  obtain ⟨m₂, hcall₂, h⟩ := Option.bind_eq_some_iff.mp h
                  refine Option.bind_eq_some_iff.mpr ⟨m₂, hcall₂, ?_⟩
                  obtain ⟨r₂, h₂⟩ := vmemSigHandler_faulted hcall₂
                  cases hk₃ : [a, b].find? m₂.locked with
                  | none =>
                      cases n with
                      | zero => cases h
                      | succ n =>
                          unfold settle at h ⊢
                          rw [hk₃] at h ⊢
                          exact h
                  | some k₃ =>
                      cases n with
                      | zero => cases h
                      | succ n =>
                          rw [settle, hk₃] at h
                          obtain ⟨m₃, hcall₃, h⟩ := Option.bind_eq_some_iff.mp h
                          obtain ⟨r₃, h₃⟩ := vmemSigHandler_faulted hcall₃
                          have hstuck := stuck_of_faults hk₁ h₁ hk₂ h₂ hk₃ h₃
                          have hnever := (hstuck.fault hk₃ h₃).settle n
                          rw [hnever] at h
                          cases h

/-- One frame is tried like two that are the same. -/
theorem settle_single (a : Page) (n : Nat) (m : Machine) : settle [a] n m = settle [a, a] n m := by
  induction n generalizing m with
  | zero => rfl
  | succ n ih =>
      have hfind : [a].find? m.locked = [a, a].find? m.locked := by
        cases ha : m.locked a <;> simp [ha]
      unfold settle
      rw [hfind]
      split
      · exact congrArg _ (funext fun m => ih m)
      · rfl

/-- **Three tries decide** whether an access to a pointer goes through. -/
theorem settle_touched {address : Nat} (h : settle (touched m.pages address) n m = some m') :
    settle (touched m.pages address) 3 m = some m' := by
  have hlength : (touched m.pages address).length ≤ 2 := by
    rw [touched, List.length_map]
    exact List.length_filter_le _ _
  generalize touched m.pages address = ks at h hlength
  cases ks with
  | nil =>
      cases n with
      | zero => cases h
      | succ n => exact h
  | cons a ks =>
      cases ks with
      | nil =>
          rw [settle_single] at h ⊢
          exact settle_pair h
      | cons b ks =>
          obtain rfl : ks = [] := by
            simp only [List.length_cons] at hlength
            exact List.eq_nil_of_length_eq_zero (by omega)
          exact settle_pair h

end Retries

end Paging
