import CS416.Sfs.Freeing
import CS416.Sfs.RoundTrip

/-!
# Releasing a file

A file whose logical blocks have been entered in ascending order is in its
shape, and then `free_inode` frees the blocks of the file and no other.
-/

namespace Sfs

open CInt Outcome

/-- Other code has run and left the inode its block list and its index blocks. -/
structure Untouched (ino : Int) (s t : FS) : Prop where
  blocks : (t.inodeTable ino).blocks = (s.inodeTable ino).blocks
  disk : ∀ p, p.isIndex = true → 0 ≤ refs s (ino, p) →
    t.disk (refs s (ino, p)) = s.disk (refs s (ino, p))
  used : ∀ p, p.isIndex = true → 0 ≤ refs s (ino, p) →
    s.diskBlocks (refs s (ino, p)) = ALLOCD → t.diskBlocks (refs s (ino, p)) = ALLOCD

/-- The logical blocks of inode `ino` have been entered, in ascending order, as `bs`. -/
inductive Mapping (ino : Int) : List Int → FS → Prop
  | empty {s : FS} : NoBlocks s ino → Mapping ino [] s
  | map {bs : List Int} {b : Int} {s t : FS} (env : Env) : Mapping ino bs s →
      setBlockIndex env ino bs.length b s = .ok t → Mapping ino (bs ++ [b]) t
  | other {bs : List Int} {s t : FS} : Mapping ino bs s → Untouched ino s t → Mapping ino bs t

/-- The slots of the inode below rank `bs.length` are in use, and the data slots hold `bs`. -/
structure Mapped (ino : Int) (bs : List Int) (s : FS) : Prop where
  owns : OwnsIndex {ino} s
  shape : Shape s ino bs.length
  data : ∀ n (h : n < bs.length), refs s (ino, dataSlot n) = bs[n]

/-- Block `c` is one of the data blocks `bs` or an index block of the inode. -/
def Owned (ino : Int) (bs : List Int) (s : FS) (c : Int) : Prop :=
  c ∈ bs ∨ ∃ p, p.isIndex = true ∧ refs s (ino, p) = c

section Mapping

variable {ino b c : Int} {bs : List Int} {s t : FS}

/-- The references of the inode stay. -/
theorem Untouched.refs_eq (h : Untouched ino s t) (sl : Slot) :
    refs t (ino, sl) = refs s (ino, sl) := by
  have hread : ∀ p, p.isIndex = true → ∀ k, entry t.disk (refs s (ino, p)) k =
      entry s.disk (refs s (ino, p)) k := by
    intro p hp k
    by_cases hneg : refs s (ino, p) < 0
    · rw [entry_neg k hneg, entry_neg k hneg]
    · have h₀ := not_lt.mp hneg
      rw [entry_nonneg k h₀, entry_nonneg k h₀, blockRead, blockRead, h.disk p hp h₀]
  cases sl with
  | direct i | single | double => simp only [refs, slotRef, h.blocks]
  | sdata k =>
      have hk := hread .single rfl k
      simp only [refs, slotRef, h.blocks] at hk ⊢
      exact hk
  | sub j =>
      have hj := hread .double rfl j
      simp only [refs, slotRef, h.blocks] at hj ⊢
      exact hj
  | ddata j k =>
      have hj := hread .double rfl j
      have hk := hread (.sub j) rfl k
      simp only [refs, slotRef, h.blocks] at hj hk ⊢
      rw [hj]
      exact hk

/-- An inode without blocks. -/
theorem Mapped.empty (h : NoBlocks s ino) : Mapped ino [] s where
  owns := ownsIndex_of_noBlocks fun i hi => by
    rw [Set.mem_singleton_iff] at hi
    rw [hi]
    exact h
  shape sl := by
    rw [h.refs_neg sl]
    simp
  data n hn := absurd hn (Nat.not_lt_zero n)

/-- What happens elsewhere leaves the map alone. -/
theorem Mapped.other (h : Mapped ino bs s) (hother : Untouched ino s t) : Mapped ino bs t where
  owns := by
    have hrefs : ∀ x ∈ indexSlots {ino}, refs t x = refs s x := by
      intro x hx
      obtain ⟨i, p⟩ := x
      obtain ⟨rfl, _⟩ := hx
      exact hother.refs_eq p
    have hcongr := Ledger.congr h.owns hrefs
    -- the index blocks are still marked
    refine
      { excl := hcongr.excl
        ref_used := fun x hx h₀ => ?_
        held_used := fun _ hb => hb.elim
        held_unref := fun _ hb => hb.elim
        used_nonneg := fun _ hb => hb.1
        exact := False.elim }
    obtain ⟨i, p⟩ := x
    obtain ⟨rfl, hp⟩ := hx
    have hmark := hcongr.ref_used (i, p) ⟨rfl, hp⟩ h₀
    rw [hother.refs_eq p] at h₀ hmark ⊢
    exact ⟨hmark.1, hmark.2.1, hother.used p hp h₀ hmark.2.2⟩
  shape sl := by
    rw [hother.refs_eq sl]
    exact h.shape sl
  data n hn := by
    rw [hother.refs_eq]
    exact h.data n hn

/-- **The next block is entered.** -/
theorem Mapped.map (h : Mapped ino bs s) (env : Env) (hlen : bs.length < 1110) (hb₀ : 0 ≤ b)
    (hb₁ : b < 32768) (hset : setBlockIndex env ino bs.length b s = .ok t) :
    Mapped ino (bs ++ [b]) t := by
  have hins := (setBlockIndex_inserted env h.owns (Set.mem_singleton ino) hlen
    (b := b) (by omega) hb₁).post t hset
  refine ⟨hins.owns, ?_, ?_⟩
  · rw [List.length_append]
    exact hins.placed.shape h.shape hlen hb₀
  · intro n hn
    rw [List.length_append, List.length_singleton] at hn
    by_cases hlast : n = bs.length
    · subst n
      rw [hins.placed.data]
      simp
    · have hold : n < bs.length := by omega
      have hslot : dataSlot n ≠ dataSlot bs.length := fun heq =>
        hlast (dataSlot_inj (by omega) hlen heq)
      rw [List.getElem_append_left hold, ← h.data n hold]
      rcases hins.placed.other (dataSlot n) hslot with heq | ⟨hmem, _⟩
      · exact heq
      · exact absurd hmem (not_mem_indexPath _ n)

/-- Entering blocks in ascending order keeps a file in its shape. -/
theorem Mapping.mapped (h : Mapping ino bs s) (hlen : bs.length ≤ 1110)
    (hpos : ∀ b ∈ bs, 0 < b ∧ b < numBlocks) : Mapped ino bs s := by
  induction h with
  | empty hblank => exact Mapped.empty hblank
  | map env _ hset ih =>
      rw [List.length_append, List.length_singleton] at hlen
      have hb := hpos _ (List.mem_append_right _ List.mem_cons_self)
      have hrest := ih (by omega) fun b hb => hpos b (List.mem_append_left _ hb)
      exact hrest.map env (by omega) (le_of_lt hb.1) hb.2 hset
  | other _ hother ih => exact (ih hlen hpos).other hother

/-- What the slots in use refer to: the data blocks and the index blocks. -/
theorem Mapped.mem_iff (h : Mapped ino bs s) (hc : 0 ≤ c) :
    (∃ sl, refs s (ino, sl) = c) ↔ Owned ino bs s c := by
  constructor
  · intro hsl
    obtain ⟨sl, hsl⟩ := hsl
    by_cases hidx : sl.isIndex = true
    · exact Or.inr ⟨sl, hidx, hsl⟩
    · have hrank : rank sl < bs.length := (h.shape sl).mp (by rw [hsl]; exact hc)
      have hslot := (eq_dataSlot (by simpa using hidx)).1
      left
      rw [← hsl, hslot, h.data (rank sl) hrank]
      exact List.getElem_mem hrank
  · intro hmem
    rcases hmem with hmem | ⟨p, _, hp⟩
    · obtain ⟨n, hn, heq⟩ := List.getElem_of_mem hmem
      exact ⟨dataSlot n, (h.data n hn).trans heq⟩
    · exact ⟨p, hp⟩

end Mapping

section Release

variable {ino : Int} {bs : List Int} {s : FS}

private theorem freeInode_keeps (hlink : 1 < (s.inodeTable ino).stat.stNlink)
    (hmax : (s.inodeTable ino).stat.stNlink < 18446744073709551616) :
    freeInode ino s =
      s.modStat ino fun st => { st with stNlink := (s.inodeTable ino).stat.stNlink - 1 } := by
  have hdrop : toU64 ((s.inodeTable ino).stat.stNlink - 1) =
      (s.inodeTable ino).stat.stNlink - 1 := toU64_of_range (by omega) (by omega)
  have hmod : s.modStat ino (fun st => { st with stNlink := toU64 (st.stNlink - 1) }) =
      s.modStat ino fun st => { st with stNlink := (s.inodeTable ino).stat.stNlink - 1 } := by
    simp only [FS.modStat, FS.modInode, hdrop]
  rcases freeInode_cases ino s with ⟨_, heq⟩ | ⟨hzero, _⟩
  · rw [heq, hmod]
  · rw [hdrop] at hzero
    omega

/-- **`free_inode` releases exactly the file.**  With one link left it frees the data blocks,
the index blocks that there are and the inode, and no other block; with more links it only
counts down. -/
theorem free_inode_releases (hmap : Mapping ino bs s) (hlen : bs.length ≤ 1110)
    (hpos : ∀ b ∈ bs, 0 < b ∧ b < numBlocks)
    (hindex : ∀ p, p.isIndex = true → 0 ≤ refs s (ino, p) → 0 < refs s (ino, p)) :
    ((s.inodeTable ino).stat.stNlink = 1 →
      ((freeInode ino s).inodeTable ino).avail = FREE ∧
      ∀ c, 0 ≤ c → c < numBlocks →
        (Owned ino bs s c → (freeInode ino s).diskBlocks c = FREE) ∧
        (¬ Owned ino bs s c → (freeInode ino s).diskBlocks c = s.diskBlocks c)) ∧
    (1 < (s.inodeTable ino).stat.stNlink →
      (s.inodeTable ino).stat.stNlink < 18446744073709551616 →
      freeInode ino s = s.modStat ino fun st =>
        { st with stNlink := (s.inodeTable ino).stat.stNlink - 1 }) := by
  have hmapped := hmap.mapped hlen hpos
  refine ⟨?_, freeInode_keeps⟩
  intro hlink
  have hone : ¬ 0 < toU64 ((s.inodeTable ino).stat.stNlink - 1) := by
    rw [hlink]
    decide
  obtain ⟨havail, hused⟩ : ((freeInode ino s).inodeTable ino).avail = FREE ∧
      (freeInode ino s).diskBlocks =
        freeBlocks s.disk (s.inodeTable ino).blocks s.diskBlocks := by
    rcases freeInode_cases ino s with ⟨hmore, _⟩ | ⟨_, hfreed⟩
    · exact absurd hmore hone
    · exact hfreed
  refine ⟨havail, ?_⟩
  intro c hc₀ hc₁
  -- no slot of the inode refers to block 0
  have hzero : ∀ sl, refs s (ino, sl) ≠ 0 := by
    intro sl hsl
    rcases (hmapped.mem_iff (le_refl 0)).mp ⟨sl, hsl⟩ with hmem | ⟨p, hp, hp₀⟩
    · have hpos₀ := (hpos 0 hmem).1
      omega
    · have hpos₀ := hindex p hp (by omega)
      omega
  rw [hused]
  constructor
  · intro hmem
    obtain ⟨sl, hsl⟩ := (hmapped.mem_iff hc₀).mpr hmem
    have h₀ : 0 ≤ slotRef s.disk (s.inodeTable ino) sl := by
      rw [show slotRef s.disk (s.inodeTable ino) sl = c from hsl]
      exact hc₀
    have hfile : (∀ sl, 0 ≤ slotRef s.disk (s.inodeTable ino) sl ↔ rank sl < bs.length) ∧
        ∀ sl, slotRef s.disk (s.inodeTable ino) sl ≠ 0 := ⟨hmapped.shape, hzero⟩
    rw [← hsl]
    exact freeBlocks_hit hfile.1 hfile.2 h₀
  · intro hmem
    apply freeBlocks_of_ne _ hc₀
    intro sl _ heq
    exact hmem ((hmapped.mem_iff hc₀).mp ⟨sl, heq⟩)

end Release

/-- A fresh inode with one link, and blocks 20, 21, … entered into it. -/
def entered : Nat → FS
  | 0 => twoBlank.modStat 1 fun st => { st with stNlink := 1 }
  | n + 1 => (setBlockIndex zeroEnv 1 n (n + 20) (entered n)).toOption.getD twoBlank

private theorem mapping_entered :
    ∀ n ≤ 11, Mapping 1 ((List.range n).map fun k : Nat => (k : Int) + 20) (entered n) := by
  have hset : ∀ n : Nat, n < 11 → (setBlockIndex zeroEnv 1 n (n + 20) (entered n)).isOk = true := by
    decide +kernel
  intro n
  induction n with
  | zero =>
      intro _
      apply Mapping.empty
      intro j h₀ h₁
      have hblank := noBlocks_twoBlank 1 (by simp) j h₀ h₁
      rwa [← FS.modStat_blocks twoBlank 1 (fun st => { st with stNlink := 1 }) 1] at hblank
  | succ n ih =>
      intro hn
      rw [List.range_succ, List.map_append]
      apply Mapping.map zeroEnv (ih (by omega))
      rw [List.length_map, List.length_range]
      have hok := hset n (by omega)
      cases hrun : setBlockIndex zeroEnv 1 n (n + 20) (entered n) with
      | error e =>
          rw [hrun] at hok
          cases hok
      | ok t => simp only [entered, hrun, Except.toOption, Option.getD_some]

/-- Eleven blocks: the data blocks and the index block become free. -/
theorem free_inode_releases_entered :
    (freeInode 1 (entered 11)).diskBlocks 30 = FREE ∧
      (freeInode 1 (entered 11)).diskBlocks (refs (entered 11) (1, .single)) = FREE ∧
      (freeInode 1 (entered 11)).diskBlocks 0 = ALLOCD := by
  have hindex : ∀ p ∈ [Slot.single, .double] ++ (List.finRange 10).map Slot.sub,
      0 ≤ refs (entered 11) (1, p) → 0 < refs (entered 11) (1, p) ∧
        refs (entered 11) (1, p) < numBlocks ∧ refs (entered 11) (1, p) ≠ 0 := by
    decide +kernel
  have hall : ∀ p : Slot, p.isIndex = true →
      p ∈ [Slot.single, .double] ++ (List.finRange 10).map Slot.sub := by
    intro p hp
    cases p <;> simp_all [Slot.isIndex]
  have hrelease := (free_inode_releases (mapping_entered 11 le_rfl) (by decide)
    (by decide) fun p hp h₀ => (hindex p (hall p hp) h₀).1).1 (by decide +kernel)
  have hsingle : 0 ≤ refs (entered 11) (1, .single) := by decide +kernel
  refine ⟨(hrelease.2 30 (by decide) (by decide)).1 (Or.inl (by decide)), ?_, ?_⟩
  · have hbounds := hindex .single (hall .single rfl) hsingle
    exact (hrelease.2 _ hsingle hbounds.2.1).1 (Or.inr ⟨.single, rfl, rfl⟩)
  · have hused : (entered 11).diskBlocks 0 = ALLOCD := by decide +kernel
    rw [← hused]
    apply (hrelease.2 0 (by decide) (by decide)).2
    intro howned
    rcases howned with hmem | ⟨p, hp, hp₀⟩
    · exact absurd hmem (by decide)
    · exact (hindex p (hall p hp) (by rw [hp₀])).2.2 hp₀

end Sfs
