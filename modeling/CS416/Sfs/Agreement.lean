import CS416.Sfs.Reserve

/-!
# States that agree on the tables

Two states agree if the entries of their tables are the same, and the disk in
front of the reserved area is.  The cells next to a table, which the code reaches
with an index out of bounds, may differ, and so may the reserved area and
`cwd_inode`.  The block map of an inode whose blocks lie in front of the area
can then be read and changed alike on both sides.
-/

namespace Sfs

open CInt Search Outcome

/-- The same fields, and the same twelve entries of `blocks`. -/
structure SameInode (nd nd' : Inode) : Prop where
  avail : nd'.avail = nd.avail
  stat : nd'.stat = nd.stat
  blocks : ∀ j, 0 ≤ j → j < 12 → nd'.blocks j = nd.blocks j

/-- **Agreement** on the entries of the tables and the disk in front of the reserved area. -/
structure Agree (s s' : FS) : Prop where
  node : ∀ i, 0 ≤ i → i < maxNodes → SameInode (s.inodeTable i) (s'.inodeTable i)
  names : ∀ m, 0 ≤ m → m < maxLink → s'.nameTable m = s.nameTable m
  opens : ∀ fh, 0 ≤ fh → fh < maxLink → s'.openFiles fh = s.openFiles fh
  used : ∀ b, 0 ≤ b → b < numBlocks → s'.diskBlocks b = s.diskBlocks b
  rootInode : s'.rootInode = s.rootInode
  rootBlock : s'.rootBlock = s.rootBlock
  system : s'.systemBlock = s.systemBlock
  disk : ∀ n, n < s.systemBlock → s'.disk n = s.disk n

/-- The blocks of inode `ino` lie in front of the reserved area. -/
def RefsLow (s : FS) (ino : Int) : Prop := ∀ sl, refs s (ino, sl) < s.systemBlock

section Tables

variable {s s' : FS} {nd nd' : Inode} {ino b v m fh n : Int}

theorem SameInode.refl (nd : Inode) : SameInode nd nd := ⟨rfl, rfl, fun _ _ _ => rfl⟩

theorem Agree.refl (s : FS) : Agree s s :=
  ⟨fun _ _ _ => SameInode.refl _, fun _ _ _ => rfl, fun _ _ _ => rfl, fun _ _ _ => rfl,
    rfl, rfl, rfl, fun _ _ => rfl⟩

/-- An assignment to an inode, the same on both sides. -/
theorem Agree.modInode {f g : Inode → Inode} (h : Agree s s')
    (hfg : 0 ≤ ino → ino < maxNodes → SameInode (f (s.inodeTable ino)) (g (s'.inodeTable ino))) :
    Agree (s.modInode ino f) (s'.modInode ino g) := by
  refine { h with node := fun i h₀ h₁ => ?_ }
  by_cases hi : i = ino
  · subst i
    rw [FS.modInode_inodeTable_self, FS.modInode_inodeTable_self]
    exact hfg h₀ h₁
  · rw [FS.modInode_inodeTable_ne _ _ _ hi, FS.modInode_inodeTable_ne _ _ _ hi]
    exact h.node i h₀ h₁

/-- The same assignment to `stat` in both states. -/
theorem Agree.modStat (h : Agree s s') (ino : Int) (g : Stat → Stat) :
    Agree (s.modStat ino g) (s'.modStat ino g) :=
  h.modInode fun h₀ h₁ =>
    ⟨(h.node ino h₀ h₁).avail, by rw [(h.node ino h₀ h₁).stat], (h.node ino h₀ h₁).blocks⟩

/-- The same assignment to `blocks`. -/
theorem Agree.setBlocks (h : Agree s s') (ino k b : Int) :
    Agree (s.setBlocks ino k b) (s'.setBlocks ino k b) := by
  refine h.modInode fun h₀ h₁ =>
    ⟨(h.node ino h₀ h₁).avail, (h.node ino h₀ h₁).stat, fun j hj₀ hj₁ => ?_⟩
  dsimp only
  by_cases hj : j = k
  · subst j
    rw [Function.update_self, Function.update_self]
  · rw [Function.update_of_ne hj, Function.update_of_ne hj]
    exact (h.node ino h₀ h₁).blocks j hj₀ hj₁

/-- The same mark in `disk_blocks`. -/
theorem Agree.setUsed (h : Agree s s') : Agree (s.setUsed b v) (s'.setUsed b v) := by
  refine { h with used := fun c h₀ h₁ => ?_ }
  by_cases hc : c = b
  · subst c
    simp
  · simpa [hc] using h.used c h₀ h₁

/-- The same block is written. -/
theorem Agree.write (h : Agree s s') (blk : Block) : Agree (s.write n blk) (s'.write n blk) := by
  refine { h with disk := fun c hc => ?_ }
  rw [FS.write_disk, FS.write_disk, blockWrite, blockWrite]
  by_cases hcn : c = n
  · subst c
    rw [Function.update_self, Function.update_self]
  · rw [Function.update_of_ne hcn, Function.update_of_ne hcn]
    exact h.disk c hc

/-- The same assignment to an entry of `name_table`. -/
theorem Agree.setName {e e' : PathMap} (h : Agree s s')
    (he : 0 ≤ m → m < maxLink → e' = e) : Agree (s.setName m e) (s'.setName m e') := by
  refine { h with names := fun i h₀ h₁ => ?_ }
  by_cases hi : i = m
  · subst i
    simpa using he h₀ h₁
  · simpa [hi] using h.names i h₀ h₁

/-- The same assignment to an entry of `open_files`. -/
theorem Agree.setOpen (h : Agree s s') (fh : Int) (e : FileEntry) :
    Agree (s.setOpen fh e) (s'.setOpen fh e) := by
  refine { h with opens := fun i h₀ h₁ => ?_ }
  by_cases hi : i = fh
  · subst i
    simp
  · simpa [hi] using h.opens i h₀ h₁

/-- `cwd_inode` is not compared. -/
theorem Agree.setCwd (h : Agree s s') (i j : Int) :
    Agree { s with cwdInode := i } { s' with cwdInode := j } := { h with }

/-- A block in front of the reserved area is read alike. -/
theorem Agree.read (h : Agree s s') (hn : n < s.systemBlock) :
    blockRead s'.disk n = blockRead s.disk n := by
  rw [blockRead, blockRead, h.disk n hn]

end Tables

section Allocators

variable {s s' t : FS} {b : Int} {path : Path}

private theorem findFrom_congr {p q : Int → Prop} [DecidablePred p] [DecidablePred q] {n : Nat}
    {i : Int}
    (h : ∀ j, i ≤ j → j < i + n → (p j ↔ q j)) :
    findFrom (fun j => p j) n i = findFrom (fun j => q j) n i := by
  induction n generalizing i with
  | zero => rfl
  | succ n ih =>
      rw [findFrom, findFrom, ih fun j h₀ h₁ => h j (by omega) (by omega)]
      simp only [h i (le_refl i) (by omega)]

/-- `path_lookup` in both states. -/
theorem pathLookup_agree (h : Agree s s') (path : Path) :
    pathLookup s' path = pathLookup s path := by
  rw [pathLookup, pathLookup]
  congr 1
  exact findFrom_congr fun j h₀ h₁ => by rw [h.names j h₀ (by simpa using h₁)]

/-- `get_fh` in both states. -/
theorem getFh_agree (h : Agree s s') : getFh s' = getFh s := by
  rw [getFh, getFh]
  congr 1
  exact findFrom_congr fun j h₀ h₁ => by rw [h.opens j h₀ (by simpa using h₁)]

/-- `get_inode` in both states. -/
theorem getInode_agree (h : Agree s s') :
    (getInode s').1 = (getInode s).1 ∧ Agree (getInode s).2 (getInode s').2 := by
  have hfind : findFrom (fun i => (s'.inodeTable i).avail = FREE) maxNodes.toNat 0 =
      findFrom (fun i => (s.inodeTable i).avail = FREE) maxNodes.toNat 0 :=
    findFrom_congr fun j h₀ h₁ => by rw [(h.node j h₀ (by simpa using h₁)).avail]
  unfold Sfs.getInode
  rw [hfind]
  split
  · refine ⟨rfl, ?_⟩
    dsimp only
    refine h.modInode fun h₀ h₁ => ⟨rfl, (h.node _ h₀ h₁).stat, fun j hj₀ hj₁ => ?_⟩
    dsimp only
    rw [if_pos ⟨hj₀, hj₁⟩, if_pos ⟨hj₀, hj₁⟩]
  · exact ⟨rfl, h⟩

/-- `get_mapping` in both states. -/
theorem getMapping_agree (h : Agree s s') :
    (getMapping s').1 = (getMapping s).1 ∧ Agree (getMapping s).2 (getMapping s').2 := by
  have hfind : findFrom (fun i => (s'.nameTable i).avail = FREE) maxLink.toNat 0 =
      findFrom (fun i => (s.nameTable i).avail = FREE) maxLink.toNat 0 :=
    findFrom_congr fun j h₀ h₁ => by rw [h.names j h₀ (by simpa using h₁)]
  unfold Sfs.getMapping
  rw [hfind]
  split
  · refine ⟨rfl, ?_⟩
    exact h.setName fun h₀ h₁ => by rw [h.names _ h₀ h₁]
  · exact ⟨rfl, h⟩

/-- `get_block` finds the same block: once it leaves the table, it returns none. -/
theorem getBlock_agree (h : Agree s s') (hget : getBlock s = .ok (b, t)) :
    getBlock s' = .ok (b, s'.setUsed b ALLOCD) ∧ Agree t (s'.setUsed b ALLOCD) ∧ Taken s b t := by
  have htaken : Taken s b t := (getBlock_outcome s).post _ hget
  have hlt := htaken.lt
  have hfree : HasFreeBlock s' :=
    ⟨b, htaken.nonneg, hlt, by rw [h.used b htaken.nonneg hlt]; exact htaken.free⟩
  obtain ⟨c, hc, htaken'⟩ := getBlock_of_free hfree
  have hclt := htaken'.lt
  have hcb : c = b := by
    have hle : ¬ c < b := fun hlt' => htaken.least c htaken'.nonneg hlt'
      (by rw [← h.used c htaken'.nonneg hclt]; exact htaken'.free)
    have hge : ¬ b < c := fun hlt' => htaken'.least b htaken.nonneg hlt'
      (by rw [h.used b htaken.nonneg hlt]; exact htaken.free)
    omega
  subst c
  refine ⟨hc, ?_, htaken⟩
  rw [htaken.state]
  exact h.setUsed

end Allocators

section BlockMap

variable {s s' t : FS} {env : Env} {ino b n index : Int}

/-- The index blocks that `get_block_index` reads lie in front of the reserved area. -/
theorem RefsLow.single (h : RefsLow s ino) : (s.inodeTable ino).blocks 10 < s.systemBlock :=
  h .single

theorem RefsLow.double (h : RefsLow s ino) : (s.inodeTable ino).blocks 11 < s.systemBlock :=
  h .double

/-- The direct blocks of the inode lie in front of the reserved area. -/
theorem RefsLow.direct (h : RefsLow s ino) {k : Int} (h₀ : 0 ≤ k) (h₁ : k < 10) :
    (s.inodeTable ino).blocks k < s.systemBlock := by
  have hk := h (.direct ⟨k.toNat, by omega⟩)
  rwa [refs, slotRef, Fin.val_mk, Int.toNat_of_nonneg h₀] at hk

/-- So do the blocks that the doubly indirect block refers to. -/
theorem RefsLow.sub (h : RefsLow s ino) (h₀ : 0 ≤ (s.inodeTable ino).blocks 11) {k : Nat}
    (hk : k < 10) :
    (blockRead s.disk ((s.inodeTable ino).blocks 11)).short k < s.systemBlock := by
  have hsub := h (.sub ⟨k, hk⟩)
  rwa [refs, slotRef, entry_nonneg _ h₀] at hsub

/-- `get_block_index` on both sides, where the index blocks on the way are there. -/
theorem getBlockIndex_agree {n : Nat} (h : Agree s s') (hlow : RefsLow s ino) (hi₀ : 0 ≤ ino)
    (hi₁ : ino < maxNodes) (hpath : n < 1110 → ∀ p ∈ indexPath n, 0 ≤ refs s (ino, p)) :
    getBlockIndex s'.disk (s'.inodeTable ino) n = getBlockIndex s.disk (s.inodeTable ino) n := by
  have hblocks := (h.node ino hi₀ hi₁).blocks
  unfold Sfs.getBlockIndex
  split_ifs with h₁ h₂ h₃
  · exact hblocks n (Int.natCast_nonneg n) (by omega)
  · rw [hblocks 10 (by decide) (by decide), h.read hlow.single]
  · rw [hblocks 11 (by decide) (by decide), h.read hlow.double]
    dsimp only
    have hdouble : 0 ≤ (s.inodeTable ino).blocks 11 := by
      apply hpath (by omega) .double
      rw [indexPath, if_neg (by omega), if_neg (by omega)]
      exact List.mem_cons_self
    rw [h.read (hlow.sub hdouble (by omega))]
  · rfl

/-- A block taken while another one in front of the area stays free lies in front of it. -/
theorem Taken.lt_system (h : Taken s b t) (hroom : HasRoom t) : b < s.systemBlock := by
  obtain ⟨c, hc₀, hc₁, hfree⟩ := hroom
  have hfront := h.front
  rw [hfront.system] at hc₁
  have hle : ¬ c < b := fun hlt => h.least c hc₀ hlt (hfront.keeps c hc₀ hfree)
  omega

/-- The index block is opened alike. -/
theorem openSingle_agree {buf : Block} (h : Agree s s') (hlow : RefsLow s ino)
    (hi₀ : 0 ≤ ino) (hi₁ : ino < maxNodes) (hopen : openSingle ino s = .ok (buf, t))
    (hroom : HasRoom t) : ∃ t', openSingle ino s' = .ok (buf, t') ∧ Agree t t' := by
  have hten := (h.node ino hi₀ hi₁).blocks 10 (by decide) (by decide)
  unfold openSingle at hopen ⊢
  rw [hten]
  split at hopen
  · rename_i hneg
    obtain ⟨r, hget, hret⟩ := bind_ok.mp hopen
    obtain ⟨b, u⟩ := r
    cases hret
    obtain ⟨hget', hagree, htaken⟩ := getBlock_agree h hget
    have hlt := htaken.lt_system hroom
    rw [if_pos hneg, hget', ok_bind]
    refine ⟨_, ?_, hagree.setBlocks _ 10 _⟩
    dsimp only
    have hread := hagree.read (n := b) (by rw [htaken.front.system]; exact hlt)
    rw [FS.setBlocks_disk, FS.setBlocks_disk, hread]
    rfl
  · rename_i hneg
    cases hopen
    rw [if_neg hneg, h.read hlow.single]
    exact ⟨s', rfl, h⟩

/-- The doubly indirect block is opened alike. -/
theorem openDouble_agree {buf : Block} (h : Agree s s') (hlow : RefsLow s ino)
    (hi₀ : 0 ≤ ino) (hi₁ : ino < maxNodes) (hopen : openDouble env ino s = .ok (buf, t)) :
    ∃ t', openDouble env ino s' = .ok (buf, t') ∧ Agree t t' := by
  have heleven := (h.node ino hi₀ hi₁).blocks 11 (by decide) (by decide)
  unfold openDouble at hopen ⊢
  rw [heleven]
  split at hopen
  · rename_i hneg
    obtain ⟨r, hget, hret⟩ := bind_ok.mp hopen
    obtain ⟨b, u⟩ := r
    cases hret
    obtain ⟨hget', hagree, _⟩ := getBlock_agree h hget
    rw [if_pos hneg, hget', ok_bind]
    exact ⟨_, rfl, (hagree.setBlocks _ 11 _).write _⟩
  · rename_i hneg
    cases hopen
    rw [if_neg hneg, h.read hlow.double]
    exact ⟨s', rfl, h⟩

/-- The entries of the buffer that `openDouble` returns. -/
theorem openDouble_low {buf : Block} (hlow : RefsLow s ino) (hsys : 0 < s.systemBlock)
    (hopen : openDouble env ino s = .ok (buf, t)) {k : Nat} (hk : k < 10) :
    buf.short k < t.systemBlock := by
  have hfront := openDouble_front env ino s _ hopen
  dsimp only at hfront
  rw [hfront.system]
  unfold openDouble at hopen
  split at hopen
  · obtain ⟨r, _, hret⟩ := bind_ok.mp hopen
    cases hret
    rw [Block.short_fillShorts _ (by decide) (by omega) (by decide) (by decide), if_pos hk]
    omega
  · rename_i hneg
    cases hopen
    exact hlow.sub (not_lt.mp hneg) hk

/-- The block below it is opened alike. -/
theorem openSub_agree {buf buf' : Block} {sub : Int} {k : Nat} (h : Agree s s')
    (hi₀ : 0 ≤ ino) (hi₁ : ino < maxNodes) (hk : buf.short k < s.systemBlock)
    (hopen : openSub ino k buf s = .ok (sub, buf', t)) :
    ∃ t', openSub ino k buf s' = .ok (sub, buf', t') ∧ Agree t t' := by
  unfold openSub at hopen ⊢
  split at hopen
  · rename_i hneg
    obtain ⟨r, hget, hret⟩ := bind_ok.mp hopen
    obtain ⟨b, u⟩ := r
    cases hret
    obtain ⟨hget', hagree, _⟩ := getBlock_agree h hget
    rw [if_pos hneg, hget', ok_bind]
    refine ⟨_, rfl, ?_⟩
    rw [(hagree.node ino hi₀ hi₁).blocks 11 (by decide) (by decide)]
    exact hagree.write _
  · rename_i hneg
    have hret := Except.ok.inj hopen
    rw [if_neg hneg, h.read hk, ← (Prod.mk.inj (Prod.mk.inj hret).2).2]
    exact ⟨s', by rw [← (Prod.mk.inj hret).1, ← (Prod.mk.inj (Prod.mk.inj hret).2).1]; rfl, h⟩

/-- **`set_block_index` does the same on both sides.** -/
theorem setBlockIndex_agree (h : Agree s s') (hlow : RefsLow s ino) (hsys : 0 < s.systemBlock)
    (hi₀ : 0 ≤ ino) (hi₁ : ino < maxNodes) (hn₁ : n < 1110)
    (hset : setBlockIndex env ino n index s = .ok t) (hroom : HasRoom t) :
    ∃ t', setBlockIndex env ino n index s' = .ok t' ∧ Agree t t' := by
  unfold setBlockIndex at hset ⊢
  split_ifs at hset ⊢ with h₁ h₂ h₃
  · cases hset
    exact ⟨_, rfl, h.setBlocks _ n _⟩
  · obtain ⟨r, hopen, hret⟩ := bind_ok.mp hset
    obtain ⟨buf, u⟩ := r
    cases hret
    obtain ⟨u', hopen', hagree⟩ := openSingle_agree h hlow hi₀ hi₁ hopen hroom
    rw [hopen', ok_bind]
    refine ⟨_, rfl, ?_⟩
    rw [(hagree.node ino hi₀ hi₁).blocks 10 (by decide) (by decide)]
    exact hagree.write _
  · obtain ⟨r, hopen, hret⟩ := bind_ok.mp hset
    obtain ⟨buf, u⟩ := r
    obtain ⟨r', hsub, hret'⟩ := bind_ok.mp hret
    obtain ⟨sub, buf', v⟩ := r'
    cases hret'
    obtain ⟨u', hopen', hagree⟩ := openDouble_agree h hlow hi₀ hi₁ hopen
    have hk := openDouble_low hlow hsys hopen (k := ((n - 110) / 100).toNat) (by omega)
    obtain ⟨v', hsub', hagree'⟩ := openSub_agree hagree hi₀ hi₁ hk hsub
    rw [hopen', ok_bind]
    dsimp only
    rw [hsub', ok_bind]
    exact ⟨_, rfl, hagree'.write _⟩
  · omega

end BlockMap

end Sfs
