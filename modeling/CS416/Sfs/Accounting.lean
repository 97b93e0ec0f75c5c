import CS416.Sfs.CallBlocks

/-!
# Block accounting

A block is marked in `disk_blocks` exactly if one slot of one inode in use
refers to it, as long as every call meets its condition.  A write through the
handle of a file that has been unlinked takes a block that nobody owns.
-/

namespace Sfs

open CInt Runs

/-- The property of block accounting. -/
def Accounted (s : FS) : Prop :=
  (∀ b, 0 ≤ b → b < numBlocks →
    (s.diskBlocks b = ALLOCD ↔ ∃! x : Int × Slot, x.1 ∈ allocated s ∧ refs s x = b)) ∧
  ∀ x y : Int × Slot, x.1 ∈ allocated s → y.1 ∈ allocated s → 0 ≤ refs s x →
    refs s x = refs s y → x = y

/-- Sizes are 64-bit numbers, and nothing else is asked of them. -/
def anySize : SizeRule where
  holds _ size := size < 9223372036854775808
  lt h := h
  newFile := by decide
  newDir := by decide

/-- A call whose blocks can be accounted for. -/
def AccountOk (s : FS) (c : Call) : Prop :=
  FuseOk s c ∧ BlockOk True anySize s c ∧
    ∀ fh buf size offset, c = .write fh buf size offset → OnFile s fh

/-- Exact books account for every block. -/
theorem Blocks.accounted {rule : SizeRule} {s : FS} (h : Blocks True rule s) : Accounted s := by
  refine ⟨fun b h₀ h₁ => ⟨fun hb => ?_, ?_⟩, fun x y hx hy h₀ hxy => h.books.excl x hx y hy h₀ hxy⟩
  · rcases h.books.exact trivial b ⟨h₀, h₁, hb⟩ with hheld | ⟨x, hx, hxb⟩
    · exact absurd hheld (Set.notMem_empty b)
    · refine ⟨x, ⟨hx, hxb⟩, ?_⟩
      rintro y ⟨hy, hyb⟩
      exact h.books.excl y hy x hx (hyb ▸ h₀) (hyb.trans hxb.symm)
  · rintro ⟨x, ⟨hx, hxb⟩, _⟩
    have hmark := h.books.ref_used x hx (hxb ▸ h₀)
    rw [hxb] at hmark
    exact hmark.2.2

/-- Entry 0 keeps naming inode 0. -/
theorem root_inode {s t : FS} {c : Call} (ht : Tree s) (hok : FuseOk s c)
    (hret : Returns s c t) (hroot : inoOf s 0 = 0) : inoOf t 0 = 0 := by
  rcases exec_tree ht hok hret with hs | ⟨path, k, _, hins⟩ | ⟨m, k, her⟩
  · rw [inoOf, hs.names]
    exact hroot
  · rw [(Tree.inserts_old hins ht.root.1).2.2]
    exact hroot
  · have hm : (0 : Int) ≠ m := by
      rintro rfl
      exact Tree.erases_ne_root her ht.root.2.1
    rw [(Tree.erases_old her hm).2]
    exact hroot

private theorem reached_accounts {s : FS} (h : Reached AccountOk s) :
    Tree s ∧ Blocks True anySize s ∧ RootBlock s :=
  h.invariant (I := fun s => Tree s ∧ Blocks True anySize s ∧ RootBlock s)
    (fun _ hs => ⟨fresh_tree hs, (fresh_state hs).blocks, (fresh_state hs).rootBlock⟩)
    fun _ _ _ _ ⟨ht, hb, hroot⟩ ⟨⟨hfuse, hok, hfile⟩, hret⟩ => by
      obtain ⟨hb', hfirst⟩ := hb.exec ht hfuse (fun _ => hroot) hfile hok hret
      exact ⟨ht.exec hfuse hret, hb', root_inode ht hfuse hret hroot.1,
        (hfirst trivial).trans hroot.2⟩

/-- **Every block is accounted for** along the runs that meet the condition. -/
theorem blocks_accounted {s : FS} (h : Reached AccountOk s) : Accounted s :=
  (reached_accounts h).2.1.accounted

/-- A run with one directory: block 1 is the directory's. -/
theorem blocks_accounted_mkdir : ∃ s, s.diskBlocks 1 = ALLOCD ∧ Accounted s := by
  have hok : AccountOk firstMount (.mkdir (rootPath letterA) 0o755) :=
    ⟨(fuseOk_root firstMount letterA (by decide +kernel)).2,
      fun _ _ => fits_root (fresh_tree fresh_firstMount) (by decide) (by decide +kernel)
        (by decide +kernel) (by decide +kernel), fun _ _ _ _ h => by cases h⟩
  exact ⟨_, by decide +kernel, blocks_accounted
    (reached_after zeroEnv (.mkdir (rootPath letterA) 0o755) (reached_firstMount _) hok
      (by decide +kernel))⟩

/-- `create /a; unlink /a`, and a write of one byte through the handle: block 1 is taken for
an inode that is free. -/
theorem unlinked_write_leaks : ¬ ∀ s, Reached FuseOk s → Accounted s := by
  intro h
  have hcreate := reached_after zeroEnv (.create (rootPath letterA) 0o100644)
    (reached_firstMount FuseOk) (fuseOk_root _ letterA (by decide +kernel)).1 (by decide +kernel)
  have hunlink := reached_after zeroEnv (.unlink (rootPath letterA)) hcreate
    ⟨1, by decide +kernel, by decide +kernel, by decide +kernel⟩ (by decide +kernel)
  have hwrite := reached_after zeroEnv (.write 0 (fun _ => 120) 1 0) hunlink trivial
    (by decide +kernel)
  obtain ⟨hacc, _⟩ := h _ hwrite
  generalize hs : after zeroEnv (.write 0 (fun _ => 120) 1 0) _ = s at hacc
  have hfree : ∀ i : Fin 128, (i : Nat) ≠ 0 → (s.inodeTable (i : Nat)).avail = FREE := by
    rw [← hs]
    decide +kernel
  have hblocks : ∀ l : Fin 12, (s.inodeTable 0).blocks (l : Nat) ≠ 1 ∧
      (10 ≤ (l : Nat) → (s.inodeTable 0).blocks (l : Nat) = -1) := by
    rw [← hs]
    decide +kernel
  have hmark : s.diskBlocks 1 = ALLOCD := by
    rw [← hs]
    decide +kernel
  obtain ⟨⟨i, sl⟩, ⟨⟨h₀, h₁, hi⟩, href⟩, _⟩ := (hacc 1 (by decide) (by decide)).mp hmark
  dsimp only at h₀ h₁ hi
  have hzero : i = 0 := by
    by_contra hne
    obtain ⟨n, rfl⟩ : ∃ n : Nat, i = n := ⟨i.toNat, by omega⟩
    simp only [maxNodes] at h₁
    have hn := hfree ⟨n, by omega⟩ (by simpa using hne)
    rw [hi] at hn
    exact absurd hn (by decide)
  subst hzero
  have h₁₀ : (s.inodeTable 0).blocks 10 = -1 := (hblocks 10).2 (by decide)
  have h₁₁ : (s.inodeTable 0).blocks 11 = -1 := (hblocks 11).2 (by decide)
  cases sl with
  | direct l => exact (hblocks (l.castLE (by omega))).1 href
  | single => simp [refs, slotRef, h₁₀] at href
  | double => simp [refs, slotRef, h₁₁] at href
  | sdata k => simp [refs, slotRef, h₁₀, entry] at href
  | sub k => simp [refs, slotRef, h₁₁, entry] at href
  | ddata k l => simp [refs, slotRef, h₁₁, entry] at href

end Sfs
