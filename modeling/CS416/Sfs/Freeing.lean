import CS416.Sfs.Directory

/-!
# Freeing the blocks of a file

`free_inode` walks the block map and stops each of its loops at the first
entry that is not positive.  It frees only blocks the inode refers to; of a
file in its shape that does not own block 0 it frees all of them.
-/

namespace Sfs

open CInt Outcome

/-- Some entries of `disk_blocks` have been set to `FREE`, and no other has changed. -/
def OnlyFrees (used used' : Int → Int) : Prop := ∀ c, used' c = used c ∨ used' c = FREE

section Frees

variable {used used' used'' : Int → Int} {c : Int}

theorem OnlyFrees.refl (used : Int → Int) : OnlyFrees used used := fun _ => Or.inl rfl

/-- One call after another. -/
theorem OnlyFrees.trans (h : OnlyFrees used used') (h' : OnlyFrees used' used'') :
    OnlyFrees used used'' := fun c => by
  rcases h' c with heq | hfree
  · rw [heq]
    exact h c
  · exact Or.inr hfree

/-- A block more is freed. -/
theorem OnlyFrees.update (h : OnlyFrees used used') (b : Int) :
    OnlyFrees used (Function.update used' b FREE) := fun c => by
  by_cases hc : c = b
  · rw [hc, Function.update_self]
    exact Or.inr rfl
  · rw [Function.update_of_ne hc]
    exact h c

/-- What has been freed stays free. -/
theorem OnlyFrees.free (h : OnlyFrees used used') (hc : used c = FREE) : used' c = FREE :=
  (h c).elim (fun heq => heq.trans hc) id

end Frees

section Loops

variable {buf : Block} {d : Disk} {blocks : Int → Int} {used : Int → Int} {c : Int} {n k : Nat}

private theorem freeRun_onlyFrees : OnlyFrees used (freeRun buf n k used) := by
  induction n generalizing k used with
  | zero => exact OnlyFrees.refl used
  | succ n ih =>
      rw [freeRun]
      split
      · exact ((OnlyFrees.refl used).update _).trans ih
      · exact OnlyFrees.refl used

private theorem freeSubs_onlyFrees : OnlyFrees used (freeSubs d buf n k used) := by
  induction n generalizing k used with
  | zero => exact OnlyFrees.refl used
  | succ n ih =>
      rw [freeSubs]
      split
      · exact (freeRun_onlyFrees.update _).trans ih
      · exact OnlyFrees.refl used

private theorem freeDirect_onlyFrees : OnlyFrees used (freeDirect blocks n used) := by
  induction n with
  | zero => exact OnlyFrees.refl used
  | succ n ih => exact ih.update _

private theorem freeDouble_onlyFrees : OnlyFrees used (freeDouble d blocks used) := by
  unfold freeDouble
  split
  · exact freeSubs_onlyFrees.update _
  · exact OnlyFrees.refl used

private theorem freeSingle_onlyFrees : OnlyFrees used (freeSingle d blocks used) := by
  unfold freeSingle
  split
  · exact freeRun_onlyFrees.update _
  · exact OnlyFrees.refl used

/-- `free_inode` marks no block as taken. -/
theorem freeBlocks_onlyFrees : OnlyFrees used (freeBlocks d blocks used) :=
  (freeDouble_onlyFrees.trans freeSingle_onlyFrees).trans freeDirect_onlyFrees

private theorem freeRun_of_ne (h : ∀ j, k ≤ j → j < k + n → buf.short j ≠ c) :
    freeRun buf n k used c = used c := by
  induction n generalizing k used with
  | zero => rfl
  | succ n ih =>
      rw [freeRun]
      split
      · rw [ih fun j h₀ h₁ => h j (by omega) (by omega),
          Function.update_of_ne (Ne.symm (h k (le_refl k) (by omega)))]
      · rfl

/-- A loop over an index block frees what it refers to, up to its first free entry. -/
theorem freeRun_hit {j : Nat} (hj : k ≤ j) (hjn : j < k + n)
    (hpos : ∀ i, k ≤ i → i ≤ j → 0 < buf.short i) :
    freeRun buf n k used (buf.short j) = FREE := by
  induction n generalizing k used with
  | zero => omega
  | succ n ih =>
      rw [freeRun, if_pos (hpos k (le_refl k) hj)]
      by_cases hjk : j = k
      · subst j
        exact freeRun_onlyFrees.free (Function.update_self _ _ _)
      · exact ih (by omega) (by omega) fun i h₀ h₁ => hpos i (by omega) h₁

private theorem freeSubs_of_ne (h : ∀ j, k ≤ j → j < k + n → buf.short j ≠ c)
    (hdata : ∀ j, k ≤ j → j < k + n → 0 < buf.short j → ∀ l < 100,
      (blockRead d (buf.short j)).short l ≠ c) :
    freeSubs d buf n k used c = used c := by
  induction n generalizing k used with
  | zero => rfl
  | succ n ih =>
      rw [freeSubs]
      split
      · rename_i hpos
        rw [ih (fun j h₀ h₁ => h j (by omega) (by omega))
            (fun j h₀ h₁ => hdata j (by omega) (by omega)),
          Function.update_of_ne (Ne.symm (h k (le_refl k) (by omega)))]
        exact freeRun_of_ne fun l _ hl => hdata k (le_refl k) (by omega) hpos l (by omega)
      · rfl

/-- The loop over the doubly indirect block frees what it refers to. -/
theorem freeSubs_hit {j : Nat} (hj : k ≤ j) (hjn : j < k + n)
    (hpos : ∀ i, k ≤ i → i ≤ j → 0 < buf.short i) :
    freeSubs d buf n k used (buf.short j) = FREE ∧
      ∀ l < 100, (∀ i ≤ l, 0 < (blockRead d (buf.short j)).short i) →
        freeSubs d buf n k used ((blockRead d (buf.short j)).short l) = FREE := by
  induction n generalizing k used with
  | zero => omega
  | succ n ih =>
      rw [freeSubs, if_pos (hpos k (le_refl k) hj)]
      by_cases hjk : j = k
      · subst j
        refine ⟨freeSubs_onlyFrees.free (Function.update_self _ _ _),
          fun l hl hlpos => freeSubs_onlyFrees.free ?_⟩
        by_cases hc : (blockRead d (buf.short k)).short l = buf.short k
        · rw [hc, Function.update_self]
        · rw [Function.update_of_ne hc]
          exact freeRun_hit (Nat.zero_le l) (by omega) fun i _ hi => hlpos i hi
      · exact ih (by omega) (by omega) fun i h₀ h₁ => hpos i (by omega) h₁

private theorem freeDirect_of_ne (h : ∀ j < n, blocks (j : Nat) ≠ c) :
    freeDirect blocks n used c = used c := by
  induction n with
  | zero => rfl
  | succ n ih =>
      rw [freeDirect, Function.update_of_ne (Ne.symm (h n (by omega)))]
      exact ih fun j hj => h j (by omega)

private theorem freeDirect_hit {j : Nat} (hj : j < n) :
    freeDirect blocks n used (blocks (j : Nat)) = FREE := by
  induction n with
  | zero => omega
  | succ n ih =>
      rw [freeDirect]
      by_cases hc : blocks (j : Nat) = blocks n
      · rw [hc, Function.update_self]
      · rw [Function.update_of_ne hc]
        refine ih ?_
        by_contra hn
        have hjn : j = n := by omega
        exact hc (by rw [hjn])

end Loops

section Inode

variable {d : Disk} {nd : Inode} {used : Int → Int} {c : Int}

/-- **`free_inode` frees only what the inode refers to.** -/
theorem freeBlocks_of_ne (h : ∀ sl, 0 ≤ slotRef d nd sl → slotRef d nd sl ≠ c) (h₀ : 0 ≤ c) :
    freeBlocks d nd.blocks used c = used c := by
  have hne : ∀ sl, slotRef d nd sl ≠ c := fun sl heq => h sl (heq ▸ h₀) heq
  have hdouble : freeDouble d nd.blocks used c = used c := by
    unfold freeDouble
    split
    · rename_i hpos
      have hentry : ∀ j < 10, (blockRead d (nd.blocks 11)).short j =
          slotRef d nd (.sub (Fin.ofNat 10 j)) := fun j hj => by
        rw [slotRef, Fin.val_ofNat, Nat.mod_eq_of_lt hj, entry_nonneg j (le_of_lt hpos)]
      have h₁₁ : nd.blocks 11 ≠ c := hne .double
      rw [Function.update_of_ne h₁₁.symm]
      refine freeSubs_of_ne (fun j _ hj => ?_) (fun j _ hj hjpos l hl => ?_)
      · rw [hentry j (by omega)]
        exact hne _
      · have hdata : (blockRead d ((blockRead d (nd.blocks 11)).short j)).short l =
            slotRef d nd (.ddata (Fin.ofNat 10 j) (Fin.ofNat 100 l)) := by
          have hj' := hentry j (by omega)
          rw [slotRef] at hj'
          rw [slotRef, ← hj', Fin.val_ofNat, Nat.mod_eq_of_lt hl,
            entry_nonneg l (le_of_lt hjpos)]
        rw [hdata]
        exact hne _
    · rfl
  have hsingle : freeSingle d nd.blocks (freeDouble d nd.blocks used) c = used c := by
    unfold freeSingle
    split
    · rename_i hpos
      have h₁₀ : nd.blocks 10 ≠ c := hne .single
      rw [Function.update_of_ne h₁₀.symm, freeRun_of_ne, hdouble]
      intro k _ hk
      have hentry : (blockRead d (nd.blocks 10)).short k =
          slotRef d nd (.sdata (Fin.ofNat 100 k)) := by
        rw [slotRef, Fin.val_ofNat, Nat.mod_eq_of_lt (by omega), entry_nonneg k (le_of_lt hpos)]
      rw [hentry]
      exact hne _
    · exact hdouble
  unfold freeBlocks
  rw [freeDirect_of_ne fun j hj => ?_, hsingle]
  have hslot : nd.blocks (j : Nat) = slotRef d nd (.direct ⟨j, hj⟩) := rfl
  rw [hslot]
  exact hne _

/-- **`free_inode` frees all blocks of a file in its shape**, unless block 0 is
among them. -/
theorem freeBlocks_hit {B : Nat} (hshape : ∀ sl, 0 ≤ slotRef d nd sl ↔ rank sl < B)
    (hzero : ∀ sl, slotRef d nd sl ≠ 0) {sl : Slot} (h₀ : 0 ≤ slotRef d nd sl) :
    freeBlocks d nd.blocks used (slotRef d nd sl) = FREE := by
  have hpos : ∀ sl', rank sl' < B → 0 < slotRef d nd sl' := fun sl' hr =>
    lt_of_le_of_ne ((hshape sl').mpr hr) (Ne.symm (hzero sl'))
  have hB := (hshape sl).mp h₀
  unfold freeBlocks
  cases sl with
  | direct i => exact freeDirect_hit i.isLt
  | single =>
      have h₁₀ : 0 < nd.blocks 10 := hpos .single hB
      refine freeDirect_onlyFrees.free ?_
      rw [freeSingle, if_pos h₁₀]
      exact Function.update_self _ _ _
  | sdata k =>
      have hsingle : 0 < nd.blocks 10 := hpos .single (by simp only [rank] at hB ⊢; omega)
      have hentry : ∀ l : Nat, l ≤ k → 0 < (blockRead d (nd.blocks 10)).short l := by
        intro l hl
        have hl' := hpos (.sdata ⟨l, by omega⟩) (by simp only [rank] at hB ⊢; omega)
        rwa [slotRef, entry_nonneg l (le_of_lt hsingle)] at hl'
      refine freeDirect_onlyFrees.free ?_
      rw [freeSingle, if_pos hsingle, slotRef, entry_nonneg k (le_of_lt hsingle)]
      by_cases hc : (blockRead d (nd.blocks 10)).short k = nd.blocks 10
      · rw [hc, Function.update_self]
      · rw [Function.update_of_ne hc]
        exact freeRun_hit (Nat.zero_le _) (by omega) fun l _ hl => hentry l hl
  | double =>
      have h₁₁ : 0 < nd.blocks 11 := hpos .double hB
      refine freeDirect_onlyFrees.free (freeSingle_onlyFrees.free ?_)
      rw [freeDouble, if_pos h₁₁]
      exact Function.update_self _ _ _
  | sub j =>
      have hdouble : 0 < nd.blocks 11 := hpos .double (by simp only [rank] at hB ⊢; omega)
      have hentry : ∀ l : Nat, l ≤ j → 0 < (blockRead d (nd.blocks 11)).short l := by
        intro l hl
        have hl' := hpos (.sub ⟨l, by omega⟩) (by simp only [rank] at hB ⊢; omega)
        rwa [slotRef, entry_nonneg l (le_of_lt hdouble)] at hl'
      refine freeDirect_onlyFrees.free (freeSingle_onlyFrees.free ?_)
      rw [freeDouble, if_pos hdouble, slotRef, entry_nonneg j (le_of_lt hdouble)]
      by_cases hc : (blockRead d (nd.blocks 11)).short j = nd.blocks 11
      · rw [hc, Function.update_self]
      · rw [Function.update_of_ne hc]
        exact (freeSubs_hit (Nat.zero_le _) (by omega) fun l _ hl => hentry l hl).1
  | ddata j k =>
      have hdouble : 0 < nd.blocks 11 := hpos .double (by simp only [rank] at hB ⊢; omega)
      have hentry : ∀ l : Nat, l ≤ j → 0 < (blockRead d (nd.blocks 11)).short l := by
        intro l hl
        have hl' := hpos (.sub ⟨l, by omega⟩) (by simp only [rank] at hB ⊢; omega)
        rwa [slotRef, entry_nonneg l (le_of_lt hdouble)] at hl'
      have hj : entry d (nd.blocks 11) j = (blockRead d (nd.blocks 11)).short j :=
        entry_nonneg j (le_of_lt hdouble)
      have hjpos := hentry j (le_refl _)
      have hdata : ∀ l : Nat, l ≤ k →
          0 < (blockRead d ((blockRead d (nd.blocks 11)).short j)).short l := by
        intro l hl
        have hl' := hpos (.ddata j ⟨l, by omega⟩) (by simp only [rank] at hB ⊢; omega)
        rwa [slotRef, hj, entry_nonneg l (le_of_lt hjpos)] at hl'
      refine freeDirect_onlyFrees.free (freeSingle_onlyFrees.free ?_)
      rw [freeDouble, if_pos hdouble, slotRef, hj, entry_nonneg k (le_of_lt hjpos)]
      by_cases hc : (blockRead d ((blockRead d (nd.blocks 11)).short j)).short k = nd.blocks 11
      · rw [hc, Function.update_self]
      · rw [Function.update_of_ne hc]
        exact (freeSubs_hit (Nat.zero_le _) (by omega) fun l _ hl => hentry l hl).2 k
          (by omega) fun l hl => hdata l hl

end Inode

section FreeInode

variable {strict : Prop} {A : Set Int} {s : FS} {ino : Int}

/-- `free_inode` writes no block, and changes the references of its inode only. -/
theorem freeInode_frame (ino : Int) (s : FS) :
    (freeInode ino s).disk = s.disk ∧
      ∀ x : Int × Slot, x.1 ≠ ino → refs (freeInode ino s) x = refs s x := by
  have hdisk : (freeInode ino s).disk = s.disk := by
    unfold freeInode
    dsimp only
    split <;> rfl
  refine ⟨hdisk, fun x hx => ?_⟩
  rw [refs, refs, hdisk, (freeInode_names ino s).2.2 x.1 hx]

/-- `free_inode` drops one link, or gives the inode up. -/
theorem freeInode_cases (ino : Int) (s : FS) :
    0 < toU64 ((s.inodeTable ino).stat.stNlink - 1) ∧
        freeInode ino s =
          s.modStat ino (fun st => { st with stNlink := toU64 (st.stNlink - 1) }) ∨
      ¬ 0 < toU64 ((s.inodeTable ino).stat.stNlink - 1) ∧
        ((freeInode ino s).inodeTable ino).avail = FREE ∧
        (freeInode ino s).diskBlocks =
          freeBlocks s.disk (s.inodeTable ino).blocks s.diskBlocks := by
  unfold freeInode
  dsimp only
  rw [FS.modStat_stat_self]
  dsimp only
  split
  · rename_i hlink
    exact Or.inl ⟨hlink, rfl⟩
  · rename_i hlink
    refine Or.inr ⟨hlink, by simp, ?_⟩
    rw [FS.modInode_diskBlocks, FS.modStat_blocks]
    rfl

/-- **`free_inode` and the ledger.**  The call may keep the inode, and then nothing
about blocks changes; or it gives the inode up, and the marks stay exact if the
inode is a file in its shape that does not own block 0. -/
theorem freeInode_spec (h : Books strict A ∅ s) (hino : ino ∈ A)
    (hall : strict → ¬ 0 < toU64 ((s.inodeTable ino).stat.stNlink - 1) →
      ∃ B, Shape s ino B ∧ ∀ sl, refs s (ino, sl) ≠ 0) :
    freeInode ino s = s.modStat ino (fun st => { st with stNlink := toU64 (st.stNlink - 1) }) ∨
      ((freeInode ino s).inodeTable ino).avail = FREE ∧
        Books strict (A \ {ino}) ∅ (freeInode ino s) := by
  obtain ⟨_, hrefs⟩ := freeInode_frame ino s
  refine (freeInode_cases ino s).imp And.right ?_
  rintro ⟨hlink, havail, hused⟩
  refine ⟨havail, ?_⟩
  have hfewer : slots (A \ {ino}) ⊆ slots A := fun x hx => hx.1
  have hdrop := Ledger.drop h hfewer
  -- what no slot of the inode refers to is as it was
  have hsub : {b ∈ marked s | ∀ x ∈ slots A, x ∉ slots (A \ {ino}) → refs s x ≠ b} ⊆
      marked (freeInode ino s) := by
    rintro b ⟨⟨h₀, h₁, hb⟩, hne⟩
    refine ⟨h₀, h₁, ?_⟩
    have hnone : ∀ sl, 0 ≤ slotRef s.disk (s.inodeTable ino) sl →
        slotRef s.disk (s.inodeTable ino) sl ≠ b :=
      fun sl _ => hne (ino, sl) hino fun hx => hx.2 rfl
    rw [hused, freeBlocks_of_ne hnone h₀]
    exact hb
  refine Books.of_refs (hdrop.widen hsub (fun b hb => hb.1) fun hs => ?_)
    fun x hx => hrefs x hx.2
  obtain ⟨B, hshape, hzero⟩ := hall hs hlink
  rintro b ⟨h₀, h₁, hb⟩
  rw [hused] at hb
  have hmark : s.diskBlocks b = ALLOCD := by
    have hfrees : OnlyFrees s.diskBlocks
        (freeBlocks s.disk (s.inodeTable ino).blocks s.diskBlocks) := freeBlocks_onlyFrees
    rcases hfrees b with heq | hfree
    · rw [← heq, hb]
    · rw [hfree] at hb
      exact absurd hb (by decide)
  refine ⟨⟨h₀, h₁, hmark⟩, fun x hx hx' heq => ?_⟩
  obtain ⟨j, sl⟩ := x
  obtain rfl : j = ino := by
    by_contra hne
    exact hx' ⟨hx, hne⟩
  have h₀' : 0 ≤ slotRef s.disk (s.inodeTable j) sl := by
    rw [show slotRef s.disk (s.inodeTable j) sl = b from heq]
    exact h₀
  have hfile : (∀ sl, 0 ≤ slotRef s.disk (s.inodeTable j) sl ↔ rank sl < B) ∧
      ∀ sl, slotRef s.disk (s.inodeTable j) sl ≠ 0 := ⟨hshape, hzero⟩
  have hfree : freeBlocks s.disk (s.inodeTable j).blocks s.diskBlocks
      (slotRef s.disk (s.inodeTable j) sl) = FREE := freeBlocks_hit hfile.1 hfile.2 h₀'
  rw [show slotRef s.disk (s.inodeTable j) sl = b from heq, hb] at hfree
  exact absurd hfree (by decide)

end FreeInode

end Sfs
