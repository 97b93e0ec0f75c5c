import CS416.Sfs.SetIndex
import CS416.Sfs.FreshState

/-!
# The block map as a table

Any calls of `set_block_index` on inodes that started out without blocks make
a table of their block maps: `get_block_index` returns what was set last.  The
index blocks that the calls allocate on the way are all different, and nothing
else is written.
-/

namespace Sfs

open CInt Outcome

/-- One call `set_block_index(&inode_table[ino], blockNum, index)`. -/
structure SetCall where
  env : Env
  ino : Int
  blockNum : Nat
  index : Int

/-- A call for one of the inodes in `A`; `index` is a `short`. -/
structure SetCall.Within (A : Set Int) (c : SetCall) : Prop where
  ino_mem : c.ino ∈ A
  blockNum_lt : c.blockNum < 1110
  index_ge : -32768 ≤ c.index
  index_lt : c.index < 32768

/-- Calls of `set_block_index`, one after the other. -/
def setAll : List SetCall → FS → Except Stop FS
  | [], s => .ok s
  | c :: calls, s => do
      let s ← setBlockIndex c.env c.ino c.blockNum c.index s
      setAll calls s

/-- The twelve entries of `blocks[]` are -1. -/
def NoBlocks (s : FS) (ino : Int) : Prop :=
  ∀ j, 0 ≤ j → j < 12 → (s.inodeTable ino).blocks j = -1

/-- Logical block `n` of inode `ino` is `b`, and the index blocks on the way are there. -/
structure MapsTo (s : FS) (ino : Int) (n : Nat) (b : Int) : Prop where
  path : ∀ p ∈ indexPath n, 0 ≤ refs s (ino, p)
  data : refs s (ino, dataSlot n) = b

section Steps

variable {A : Set Int} {s t u : FS} {ino i b c : Int} {n m : Nat} {x : Int × Slot}

/-- A logical block that is mapped is found. -/
theorem MapsTo.getBlockIndex_eq (h : MapsTo s ino n b) (hn : n < 1110) :
    getBlockIndex s.disk (s.inodeTable ino) n = b := by
  have heq : getBlockIndex s.disk (s.inodeTable ino) n = refs s (ino, dataSlot n) :=
    Sfs.getBlockIndex_eq hn (fun p hp => h.path p hp)
  exact heq.trans h.data

/-- An inode without blocks refers to none. -/
theorem NoBlocks.refs_neg (h : NoBlocks s ino) (sl : Slot) : refs s (ino, sl) = -1 := by
  have h₁₀ := h 10 (by decide) (by decide)
  have h₁₁ := h 11 (by decide) (by decide)
  have hnone : ∀ k, entry s.disk (-1) k = -1 := fun k => entry_neg k (by decide)
  cases sl with
  | direct j => exact h j (by omega) (by omega)
  | single => exact h₁₀
  | double => exact h₁₁
  | sdata k | sub k | ddata j k => simp only [refs, slotRef, h₁₀, h₁₁, hnone]

/-- Inodes without blocks have no index blocks. -/
theorem ownsIndex_of_noBlocks (h : ∀ i ∈ A, NoBlocks s i) : OwnsIndex A s := by
  have hneg : ∀ x ∈ indexSlots A, ¬ 0 ≤ refs s x := by
    intro x hx h₀
    rw [show refs s x = -1 from (h x.1 hx.1).refs_neg x.2] at h₀
    exact absurd h₀ (by decide)
  exact
    { excl := fun x hx y hy h₀ _ => absurd h₀ (hneg x hx)
      ref_used := fun x hx h₀ => absurd h₀ (hneg x hx)
      held_used := fun _ hb => hb.elim
      held_unref := fun _ hb => hb.elim
      used_nonneg := fun _ hb => hb.1
      exact := False.elim }

/-- An index block stays where it is. -/
theorem Placed.index_kept (h : Placed A s t ino n b) (hx : x ∈ indexSlots A)
    (h₀ : 0 ≤ refs s x) : refs t x = refs s x := by
  obtain ⟨i, p⟩ := x
  by_cases hi : i = ino
  · subst i
    have hp : p ≠ dataSlot n := by
      intro heq
      have hidx := hx.2
      rw [heq, isIndex_dataSlot] at hidx
      cases hidx
    rcases h.other p hp with heq | ⟨_, hneg, _⟩
    · exact heq
    · omega
  · exact h.refs_ne (i, p) hx.1 hi

/-- The other logical blocks stay where they are. -/
theorem Placed.mapsTo_ne (h : Placed A s t ino n b) (hi : i ∈ A) (hm : m < 1110)
    (hn : n < 1110) (hne : (ino, n) ≠ (i, m)) (hmaps : MapsTo s i m c) : MapsTo t i m c := by
  have hpath : ∀ p ∈ indexPath m, refs t (i, p) = refs s (i, p) := fun p hp =>
    h.index_kept (x := (i, p)) ⟨hi, mem_indexPath_isIndex hp⟩ (hmaps.path p hp)
  have hdata : refs t (i, dataSlot m) = refs s (i, dataSlot m) := by
    by_cases hino : i = ino
    · subst i
      have hslot : dataSlot m ≠ dataSlot n := by
        intro heq
        exact hne (by rw [dataSlot_inj hm hn heq])
      rcases h.other (dataSlot m) hslot with heq | ⟨hmem, _⟩
      · exact heq
      · exact absurd hmem (not_mem_indexPath n m)
    · exact h.refs_ne (i, dataSlot m) hi hino
  constructor
  · intro p hp
    rw [hpath p hp]
    exact hmaps.path p hp
  · rw [hdata]
    exact hmaps.data

end Steps

/-- What calls on inodes of `A` have done to `s`, when they set the pairs in `sets`. -/
structure SetRun (A : Set Int) (calls : List SetCall) (s t : FS) : Prop where
  owns : OwnsIndex A t
  index_kept : ∀ x ∈ indexSlots A, 0 ≤ refs s x → refs t x = refs s x
  kept : ∀ i ∈ A, ∀ m < 1110, ∀ c, (∀ call ∈ calls, (call.ino, call.blockNum) ≠ (i, m)) →
    MapsTo s i m c → MapsTo t i m c
  last : ∀ before call after, calls = before ++ call :: after →
    (∀ c ∈ after, (c.ino, c.blockNum) ≠ (call.ino, call.blockNum)) →
    MapsTo t call.ino call.blockNum call.index
  disk : ∀ c, (∀ x ∈ indexSlots A, refs t x ≠ c) → t.disk c = s.disk c

section Run

variable {A : Set Int} {s t u : FS} {call : SetCall} {calls : List SetCall}

/-- No set at all. -/
theorem SetRun.refl (h : OwnsIndex A s) : SetRun A [] s s where
  owns := h
  index_kept _ _ _ := rfl
  kept _ _ _ _ _ _ hmaps := hmaps
  last before call after heq := by
    cases before <;> cases heq
  disk _ _ := rfl

/-- One call in front of a run. -/
theorem SetRun.step (hcall : call.Within A)
    (hstep : Placed A s t call.ino call.blockNum call.index) (h : SetRun A calls t u) :
    SetRun A (call :: calls) s u where
  owns := h.owns
  index_kept x hx h₀ := by
    have hkept := hstep.index_kept hx h₀
    rw [h.index_kept x hx (by rw [hkept]; exact h₀), hkept]
  kept i hi m hm c hnone hmaps := by
    apply h.kept i hi m hm c fun call' hmem => hnone call' (List.mem_cons_of_mem call hmem)
    exact hstep.mapsTo_ne hi hm hcall.blockNum_lt (hnone call List.mem_cons_self) hmaps
  last before call' after heq hafter := by
    cases before with
    | nil =>
        -- the call itself: the rest of the run sets other pairs
        obtain ⟨rfl, rfl⟩ := List.cons.inj heq
        exact h.kept call.ino hcall.ino_mem call.blockNum hcall.blockNum_lt call.index hafter
          ⟨hstep.path, hstep.data⟩
    | cons first before =>
        obtain ⟨rfl, htail⟩ := List.cons.inj heq
        exact h.last before call' after htail hafter
  disk c hc := by
    have hpath : ∀ p ∈ indexPath call.blockNum, refs t (call.ino, p) ≠ c := by
      intro p hp
      have hx : (call.ino, p) ∈ indexSlots A := ⟨hcall.ino_mem, mem_indexPath_isIndex hp⟩
      rw [← h.index_kept _ hx (hstep.path p hp)]
      exact hc _ hx
    rw [h.disk c hc, hstep.disk c hpath]

/-- The calls run unless a search for a free block fails. -/
theorem setAll_spec (h : OwnsIndex A s) (hcalls : ∀ c ∈ calls, c.Within A) :
    OkUnless .noReturn (setAll calls s) (SetRun A calls s) := by
  induction calls generalizing s with
  | nil => exact OkUnless.pure (SetRun.refl h)
  | cons call calls ih =>
      have hcall := hcalls call List.mem_cons_self
      have henter := setBlockIndex_inserted call.env h hcall.ino_mem hcall.blockNum_lt
        hcall.index_ge hcall.index_lt
      refine henter.bind ?_
      intro t ht
      have hrest := ih ht.owns fun c hc => hcalls c (List.mem_cons_of_mem call hc)
      exact hrest.imp fun u hu => SetRun.step hcall ht.placed hu

end Run

/-- **The block map round trip.**  After calls on inodes that had no blocks, none of which
fails to find a free block, each logical block is what it was last set to, no two index
blocks coincide, and only index blocks have been written. -/
theorem block_index_round_trip {A : Set Int} {s : FS} (hblank : ∀ i ∈ A, NoBlocks s i)
    (calls : List SetCall) (hcalls : ∀ c ∈ calls, c.Within A) :
    OkUnless .noReturn (setAll calls s) fun t =>
      (∀ before call after, calls = before ++ call :: after →
        (∀ c ∈ after, (c.ino, c.blockNum) ≠ (call.ino, call.blockNum)) →
        getBlockIndex t.disk (t.inodeTable call.ino) call.blockNum = call.index) ∧
      (∀ x ∈ indexSlots A, ∀ y ∈ indexSlots A, 0 ≤ refs t x → refs t x = refs t y → x = y) ∧
      ∀ c, (∀ x ∈ indexSlots A, refs t x ≠ c) → t.disk c = s.disk c := by
  refine (setAll_spec (ownsIndex_of_noBlocks hblank) hcalls).imp ?_
  intro t ht
  refine ⟨?_, ht.owns.excl, ht.disk⟩
  intro before call after heq hafter
  have hmem : call ∈ calls := by
    rw [heq]
    simp
  exact (ht.last before call after heq hafter).getBlockIndex_eq (hcalls call hmem).blockNum_lt

/-- Two inodes that `get_inode` has just handed out. -/
def twoBlank : FS := (getInode (getInode firstMount).2).2

/-- Two inodes without blocks. -/
theorem noBlocks_twoBlank : ∀ i ∈ ({1, 2} : Set Int), NoBlocks twoBlank i := by
  have hblocks : ∀ i ∈ [(1 : Int), 2], ∀ j < 12, (twoBlank.inodeTable i).blocks (j : Nat) = -1 := by
    decide +kernel
  intro i hi j h₀ h₁
  have hj := hblocks i (by simpa using hi) j.toNat (by omega)
  rwa [Int.toNat_of_nonneg h₀] at hj

/-- Calls at all three levels, with one number set twice. -/
theorem block_index_round_trip_twoBlank :
    ∃ t, setAll [⟨zeroEnv, 1, 110, 5⟩, ⟨zeroEnv, 2, 10, 7⟩, ⟨zeroEnv, 1, 3, 9⟩,
        ⟨zeroEnv, 1, 110, 6⟩] twoBlank = .ok t ∧
      getBlockIndex t.disk (t.inodeTable 1) (110 : Nat) = 6 := by
  have hrun := block_index_round_trip noBlocks_twoBlank
    [⟨zeroEnv, 1, 110, 5⟩, ⟨zeroEnv, 2, 10, 7⟩, ⟨zeroEnv, 1, 3, 9⟩, ⟨zeroEnv, 1, 110, 6⟩]
    (by
      intro c hc
      simp only [List.mem_cons, List.not_mem_nil, or_false] at hc
      rcases hc with rfl | rfl | rfl | rfl <;> constructor <;> simp)
  have hfound : (setAll [⟨zeroEnv, 1, 110, 5⟩, ⟨zeroEnv, 2, 10, 7⟩, ⟨zeroEnv, 1, 3, 9⟩,
      ⟨zeroEnv, 1, 110, 6⟩] twoBlank).isOk = true := by decide +kernel
  obtain ⟨t, ht, hlast, _⟩ := hrun.returns fun herror => by
    rw [herror] at hfound
    cases hfound
  refine ⟨t, ht, ?_⟩
  exact hlast [⟨zeroEnv, 1, 110, 5⟩, ⟨zeroEnv, 2, 10, 7⟩, ⟨zeroEnv, 1, 3, 9⟩]
    ⟨zeroEnv, 1, 110, 6⟩ [] rfl (by simp)

end Sfs
