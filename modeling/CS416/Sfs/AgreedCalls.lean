import CS416.Sfs.Agreement

/-!
# Calls on states that agree

Every call that returns does the same in two states that agree: it returns the
same result, and the states agree afterwards.  So no call depends on, or
passes on, anything outside the bounds of a table or in the reserved area.  For
this the blocks in use must lie in front of the area, in every state on the way;
they do when the call leaves room there.
-/

namespace Sfs

open CInt Outcome

section Low

variable {strict : Prop} {A held : Set Int} {s s' t : FS} {ino : Int} {n : Nat}

/-- The reserved area does not begin at block 0. -/
theorem Reserved.system_pos (h : Reserved s) : 0 < s.systemBlock := by
  rw [h.system]
  decide

/-- **What is in use lies in front of the reserved area.** -/
theorem Reserved.refsLow (h : Reserved s) (hb : Books strict A held s) (hino : ino ∈ A) :
    RefsLow s ino := by
  intro sl
  by_cases h₀ : 0 ≤ refs s (ino, sl)
  · by_contra hge
    exact hb.used_of_ref (x := (ino, sl)) hino h₀
      (h.free _ (not_lt.mp hge) (hb.ref_lt (x := (ino, sl)) hino h₀))
  · have := h.system_pos
    omega

/-- What is free in front of the reserved area afterwards was free before. -/
theorem TakesFront.room (h : TakesFront s t) (hroom : HasRoom t) : HasRoom s := by
  obtain ⟨b, hb, hlt, hfree⟩ := hroom
  exact ⟨b, hb, by rw [← h.system]; exact hlt, h.keeps b hb hfree⟩

/-- A logical block on a path of index blocks that are there. -/
theorem dataBlock_agree (h : Agree s s') (hlow : RefsLow s ino)
    (hi₀ : 0 ≤ ino) (hi₁ : ino < maxNodes) (hn : n < 1110)
    (hpath : ∀ p ∈ indexPath n, 0 ≤ refs s (ino, p)) :
    blockRead s'.disk (getBlockIndex s'.disk (s'.inodeTable ino) n) =
      blockRead s.disk (getBlockIndex s.disk (s.inodeTable ino) n) := by
  have hidx : getBlockIndex s.disk (s.inodeTable ino) n = refs s (ino, dataSlot n) :=
    getBlockIndex_eq hn hpath
  rw [getBlockIndex_agree h hlow hi₀ hi₁ fun _ => hpath, hidx]
  exact h.read (hlow (dataSlot n))

end Low

section Append

variable {strict : Prop} {A held : Set Int} {s s' t : FS} {env : Env} {cwd : Int} {entry : Path}

/-- The text of a directory ends at the same place. -/
theorem textEnd_agree (h : Agree s s') (hlow : RefsLow s cwd)
    (hi₀ : 0 ≤ cwd) (hi₁ : cwd < maxNodes) (hlt : (textEnd s cwd).1.toNat < 1110)
    (hmapped : ∀ j ≤ (textEnd s cwd).1.toNat, ∀ p ∈ indexPath j, 0 ≤ refs s (cwd, p)) :
    textEnd s' cwd = textEnd s cwd := by
  refine textEndFrom_congr 1110 0 fun j hj₀ hj₁ => ?_
  have hle : j.toNat ≤ (textEnd s cwd).1.toNat := Int.toNat_le_toNat hj₁
  have hread := dataBlock_agree h hlow hi₀ hi₁ (by omega) (hmapped j.toNat hle)
  rwa [Int.toNat_of_nonneg hj₀] at hread

/-- A directory grows alike in both states. -/
theorem growDir_agree {i : Nat} {size : Int} {buf : Nat → UInt8} (h : Agree s s')
    (hlow : RefsLow s cwd) (hsys : 0 < s.systemBlock) (hi₀ : 0 ≤ cwd) (hi₁ : cwd < maxNodes)
    (hi : GrowsDir s cwd size → i + 1 < 1110)
    (hgrow : growDir env cwd i size buf s = .ok t) (hroom : HasRoom t) :
    ∃ t', growDir env cwd i size buf s' = .ok t' ∧ Agree t t' := by
  unfold growDir at hgrow ⊢
  rw [(h.node cwd hi₀ hi₁).stat]
  split at hgrow
  · rename_i hsize
    obtain ⟨r, hget, hret⟩ := bind_ok.mp hgrow
    obtain ⟨b, u⟩ := r
    obtain ⟨v, hset, hret'⟩ := bind_ok.mp hret
    cases hret'
    obtain ⟨hget', hagree, htaken⟩ := getBlock_agree h hget
    have hlow' : RefsLow u cwd := by
      rw [htaken.state]
      exact hlow
    have hfits := hi hsize
    have hshort : toShort ((i : Int) + 1) < 1110 := by
      rw [toShort_of_range (by omega) (by omega)]
      omega
    obtain ⟨v', hset', hagree'⟩ := setBlockIndex_agree hagree hlow'
      (by rw [htaken.front.system]; exact hsys) hi₀ hi₁ hshort hset hroom
    rw [if_pos hsize, hget', ok_bind]
    dsimp only
    rw [hset', ok_bind]
    exact ⟨_, rfl, hagree'.write _⟩
  · rename_i hsize
    cases hgrow
    rw [if_neg hsize]
    exact ⟨s', rfl, h⟩

/-- **An entry is appended alike.** -/
theorem appendEntry_agree (h : Agree s s') (hb : Books strict A held s) (hcwd : cwd ∈ A)
    (hres : Reserved s) (hi₀ : 0 ≤ cwd) (hi₁ : cwd < maxNodes)
    (hfit : DirFits strict s cwd (entry.length + 1))
    (happend : appendEntry env cwd entry s = .ok t) (hroom : HasRoom t) :
    ∃ t', appendEntry env cwd entry s' = .ok t' ∧ Agree t t' := by
  have hlow := hres.refsLow hb hcwd
  have hend := textEnd_agree h hlow hi₀ hi₁ hfit.lt hfit.mapped
  obtain ⟨i, hi⟩ := Int.eq_ofNat_of_zero_le (textEnd_nonneg s cwd)
  obtain ⟨hlt, hmapped, hgrows⟩ := hfit
  rw [hi, Int.toNat_natCast] at hlt hmapped hgrows
  have hidx : getBlockIndex s.disk (s.inodeTable cwd) i = refs s (cwd, dataSlot i) :=
    getBlockIndex_eq hlt (hmapped i (le_refl i))
  have hidx' := getBlockIndex_agree h hlow hi₀ hi₁ fun _ => hmapped i (le_refl i)
  obtain ⟨hpos, happend⟩ := appendEntry_ok.mp happend
  rw [appendEntry, hend, if_pos hpos]
  unfold putEntry at happend ⊢
  dsimp only at happend ⊢
  rw [hend, hi, hidx', hidx, h.read (hlow _)]
  rw [hi, hidx] at happend
  generalize hbuf : appendBuffer env (blockRead s.disk (refs s (cwd, dataSlot i)))
    (textEnd s cwd).2 entry = buf at happend ⊢
  obtain ⟨v, hgrow, hret⟩ := bind_ok.mp happend
  cases hret
  obtain ⟨_, hrefs⟩ := hb.write_data hcwd (isIndex_dataSlot i) (Block.ofFn buf)
  have hlow' : RefsLow (s.write (refs s (cwd, dataSlot i)) (Block.ofFn buf)) cwd := fun sl => by
    rw [hrefs (cwd, sl) hcwd]
    exact hlow sl
  obtain ⟨v', hgrow', hagree⟩ := growDir_agree (h.write (Block.ofFn buf)) hlow'
    hres.system_pos hi₀ hi₁ (fun hg => (hgrows hg).1) hgrow hroom
  rw [hgrow', ok_bind]
  exact ⟨_, rfl, hagree.modStat _ _⟩

end Append

section Write

variable {strict : Prop} {A held : Set Int} {s s' t u : FS} {env : Env} {ino fh offset : Int}
  {B size : Nat} {r : Int} {buf : Nat → UInt8}

/-- One round of the growth loop. -/
theorem growStep_agree (h : Agree s s') (hlow : RefsLow s ino) (hsys : 0 < s.systemBlock)
    (hi₀ : 0 ≤ ino) (hi₁ : ino < maxNodes) (hB : B < 1110)
    (hstep : (do
        let (block, s) ← getBlock s
        let s ← setBlockIndex env ino B block s
        return s.modStat ino fun st => { st with stBlocks := st.stBlocks + 1 }) =
      (.ok t : Except Stop FS)) (hroom : HasRoom t) :
    ∃ t', (do
        let (block, s) ← getBlock s'
        let s ← setBlockIndex env ino B block s
        return s.modStat ino fun st => { st with stBlocks := st.stBlocks + 1 }) =
      (.ok t' : Except Stop FS) ∧ Agree t t' := by
  obtain ⟨x, hget, hret⟩ := bind_ok.mp hstep
  obtain ⟨b, v⟩ := x
  obtain ⟨w, hset, hret'⟩ := bind_ok.mp hret
  cases hret'
  obtain ⟨hget', hagree, htaken⟩ := getBlock_agree h hget
  have hlow' : RefsLow v ino := by
    rw [htaken.state]
    exact hlow
  obtain ⟨w', hset', hagree'⟩ := setBlockIndex_agree hagree hlow'
    (by rw [htaken.front.system]; exact hsys) hi₀ hi₁ (by exact_mod_cast hB) hset hroom
  rw [hget', ok_bind]
  dsimp only
  rw [hset', ok_bind]
  exact ⟨_, rfl, hagree'.modStat _ _⟩

private theorem growStep_front (env : Env) (ino : Int) (B : Nat) (s : FS) :
    Post (do
        let (block, s) ← getBlock s
        let s ← setBlockIndex env ino B block s
        return s.modStat ino fun st => { st with stBlocks := st.stBlocks + 1 } : Except Stop FS)
      (TakesFront s) :=
  (getBlock_front s).bind fun _ h =>
    (setBlockIndex_front env ino _ _ _).bind fun _ h' => Post.pure ((h.trans h').congr rfl rfl)

/-- **The growth loop does the same on both sides**, by induction on its rounds: the books
keep the file's blocks in front of the reserved area. -/
theorem growLoop_agree (n : Nat) (h : Agree s s') (hb : Books strict A held s) (hino : ino ∈ A)
    (hshape : Shape s ino B) (hres : Reserved s) (hi₀ : 0 ≤ ino) (hi₁ : ino < maxNodes)
    (hB : B + n ≤ 1110) (hgrow : growLoop env ino n B s = .ok (r, t)) (hroom : HasRoom t) :
    ∃ t', growLoop env ino n B s' = .ok (r, t') ∧ Agree t t' := by
  induction n generalizing s s' B with
  | zero =>
      cases hgrow
      exact ⟨s', rfl, h⟩
  | succ n ih =>
      rw [growLoop_succ env (by omega) n] at hgrow ⊢
      obtain ⟨u, hstep, hrest⟩ := bind_ok.mp hgrow
      have hroom' : HasRoom u := (growLoop_front env ino n _ u _ hrest).room hroom
      obtain ⟨u', hstep', hagree⟩ := growStep_agree h (hres.refsLow hb hino) hres.system_pos
        hi₀ hi₁ (by omega) hstep hroom'
      obtain ⟨hgrew, hbooks⟩ := (growStep_spec env hb hino hshape (by omega)).post u hstep
      have hres' := hres.step (Or.inl (growStep_front env ino B s u hstep)) hroom'
      rw [hstep', ok_bind]
      exact ih hagree hbooks hgrew.shape hres' (by omega) hrest

/-- The buffer is written back alike. -/
theorem writeBack_agree (h : Agree s s') (hb : Books strict A held s) (hino : ino ∈ A)
    (hshape : Shape s ino B) (hlow : RefsLow s ino) (hsys : 0 < s.systemBlock) (hi₀ : 0 ≤ ino)
    (hi₁ : ino < maxNodes) (first n i : Nat) (hlast : first + i + n ≤ 32768)
    (hresolves : ∀ k, first + i ≤ k → k < first + i + n → Resolves B k) :
    Agree (writeBack ino first buf n i s) (writeBack ino first buf n i s') := by
  induction n generalizing i s s' with
  | zero => exact h
  | succ n ih =>
      have hshort : toShort ((first : Int) + i) = (first + i : Nat) := by
        rw [toShort_of_range (by omega) (by omega)]
        push_cast
        rfl
      rw [writeBack, writeBack, hshort, getBlockIndex_agree h hlow hi₀ hi₁ fun hm =>
        hshape.path_of_resolves hm (hresolves (first + i) (le_refl _) (by omega))]
      rcases hshape.getBlockIndex_cases (hresolves (first + i) (le_refl _) (by omega)) with
        ⟨_, _, hidx, _⟩ | ⟨_, hneg⟩
      · rw [hidx]
        obtain ⟨hbooks, hrefs⟩ := hb.write_data hino (isIndex_dataSlot (first + i))
          (Block.ofFn fun j => buf (512 * i + j))
        exact ih (h.write _) hbooks (fun sl => by rw [hrefs (ino, sl) hino]; exact hshape sl)
          (fun sl => by rw [hrefs (ino, sl) hino]; exact hlow sl) hsys (i + 1) (by omega)
          fun k h₀ h₁ => hresolves k (by omega) (by omega)
      · have hrefs := refs_write_neg (s := s) (b := Block.ofFn fun j => buf (512 * i + j)) hneg
        exact ih (h.write _) (hb.congr fun x _ => hrefs x)
          (fun sl => by rw [hrefs]; exact hshape sl) (fun sl => by rw [hrefs]; exact hlow sl) hsys
          (i + 1) (by omega) fun k h₀ h₁ => hresolves k (by omega) (by omega)

/-- A block of a file is read alike. -/
theorem fileBlock_agree (h : Agree s s') (hshape : Shape s ino B) (hlow : RefsLow s ino)
    (hsys : 0 < s.systemBlock) (hi₀ : 0 ≤ ino) (hi₁ : ino < maxNodes) {n : Nat}
    (hresolves : Resolves B n) :
    blockRead s'.disk (getBlockIndex s'.disk (s'.inodeTable ino) n) =
      blockRead s.disk (getBlockIndex s.disk (s.inodeTable ino) n) := by
  rw [getBlockIndex_agree h hlow hi₀ hi₁ fun hm => hshape.path_of_resolves hm hresolves]
  rcases hshape.getBlockIndex_cases hresolves with ⟨_, _, hidx, _⟩ | ⟨_, hneg⟩
  · rw [hidx]
    exact h.read (hlow _)
  · exact h.read (by omega)

/-- The bytes of a write are stored alike. -/
theorem writeData_agree (h : Agree s s') (hb : Books strict A held s) (hino : ino ∈ A)
    (hshape : Shape s ino B) (hlow : RefsLow s ino) (hsys : 0 < s.systemBlock) (hi₀ : 0 ≤ ino)
    (hi₁ : ino < maxNodes) (h₀ : 0 ≤ offset) (h₁ : 1 ≤ size) (h₂ : offset + size ≤ 16777216)
    (hresolves : ∀ n, offset / 512 ≤ n → n < blocksOf (offset + size) → Resolves B n)
    (hdata : writeData ino buf size offset s = .ok (r, t)) :
    ∃ t', writeData ino buf size offset s' = .ok (r, t') ∧ Agree t t' := by
  have hstart : toInt (offset / 512) = ((offset / 512).toNat : Int) := by
    rw [toInt_of_range (by omega) (by omega), Int.toNat_of_nonneg (by omega)]
  have hshort : toShort ((offset / 512).toNat : Int) = ((offset / 512).toNat : Int) :=
    toShort_of_range (by omega) (by omega)
  have hfirst := fileBlock_agree h hshape hlow hsys hi₀ hi₁
    (hresolves (offset / 512).toNat (by omega) (by unfold blocksOf; omega))
  unfold writeData at hdata ⊢
  dsimp only at hdata ⊢
  rw [Int.tdiv_eq_ediv_of_nonneg h₀, Int.tmod_eq_emod_of_nonneg h₀,
    rangeBlocks_eq h₀ (Int.natCast_nonneg size) (by omega)] at hdata ⊢
  simp only [blockSize, hstart, hshort] at hdata ⊢
  rw [hfirst]
  split at hdata
  · cases hdata
  · rename_i hover
    have hret := Prod.mk.inj (Except.ok.inj hdata)
    rw [if_neg hover, ← hret.1, ← hret.2]
    refine ⟨_, rfl, Agree.modStat ?_ _ _⟩
    refine writeBack_agree h hb hino hshape hlow hsys hi₀ hi₁ _ _ 0 ?_ fun k hk₀ hk₁ => ?_
    · unfold blocksOf
      omega
    · exact hresolves k (by omega) (by unfold blocksOf at hk₁ ⊢; omega)

/-- The rounds of the growth loop. -/
theorem blocksNeeded_toNat {total stSize : Int} (hsize₀ : 0 ≤ stSize)
    (hsize₁ : stSize < 9223372036854775808) (ht₀ : 0 ≤ total) (ht₁ : total ≤ 16777216)
    (hlarge : total > toU64 (roundUp stSize)) :
    (blocksNeeded total stSize).toNat = addedBlocks total stSize := by
  have hround : toU64 (roundUp stSize) = blocksOf stSize * 512 := by
    rw [roundUp_eq hsize₀, toU64_of_range] <;> unfold blocksOf <;> omega
  have hbig : stSize < 16777216 := by
    rw [hround] at hlarge
    unfold blocksOf at hlarge
    omega
  rw [blocksNeeded_eq ht₀ ht₁ hsize₀ hbig]
  rfl

/-- A file grows alike in both states. -/
theorem growFile_agree {total : Int} (h : Agree s s') (hb : Books strict A held s) (hino : ino ∈ A)
    (hshape : Shape s ino B) (hres : Reserved s) (hi₀ : 0 ≤ ino) (hi₁ : ino < maxNodes)
    (hcount : (s.inodeTable ino).stat.stBlocks = B)
    (hsize₀ : 0 ≤ (s.inodeTable ino).stat.stSize)
    (hsize₁ : (s.inodeTable ino).stat.stSize < 9223372036854775808)
    (ht₀ : 0 ≤ total) (ht₁ : total ≤ 16777216)
    (hfit : B + addedBlocks total (s.inodeTable ino).stat.stSize ≤ 1110)
    (hgrow : growFile env ino total s = .ok (r, t)) (hroom : HasRoom t) :
    ∃ t', growFile env ino total s' = .ok (r, t') ∧ Agree t t' := by
  unfold growFile at hgrow ⊢
  dsimp only at hgrow ⊢
  rw [(h.node ino hi₀ hi₁).stat]
  split at hgrow
  · rename_i hlarge
    have hstart : toInt (s.inodeTable ino).stat.stBlocks = (B : Int) := by
      rw [hcount, toInt_of_range (by omega) (by omega)]
    have hneeded := blocksNeeded_toNat hsize₀ hsize₁ ht₀ ht₁ hlarge
    rw [hstart, hneeded] at hgrow ⊢
    rw [if_pos hlarge]
    exact growLoop_agree _ h hb hino hshape hres hi₀ hi₁ hfit hgrow hroom
  · rename_i hsmall
    have hret := Prod.mk.inj (Except.ok.inj hgrow)
    rw [if_neg hsmall, ← hret.1, ← hret.2]
    exact ⟨s', rfl, h⟩

/-- **A write does the same on both sides.** -/
theorem sfsWrite_agree {rule : SizeRule} (h : Agree s s') (hb : Blocks strict rule s)
    (hres : Reserved s) (hfile : OnFile s fh) (hok : WriteOk rule s fh size offset)
    (hwrite : sfsWrite env fh buf size offset s = .ok (r, t)) (hroom : HasRoom t) :
    ∃ t', sfsWrite env fh buf size offset s' = .ok (r, t') ∧ Agree t t' := by
  by_cases hfh : handleOutOfRange fh
  · rw [sfsWrite, if_pos hfh] at hwrite ⊢
    cases hwrite
    exact ⟨s', rfl, h⟩
  have hopen := h.opens _ (handleIndex_range hfh).1 (handleIndex_range hfh).2
  unfold sfsWrite at hwrite ⊢
  dsimp only at hwrite ⊢
  rw [hopen]
  rw [if_neg hfh] at hwrite ⊢
  unfold OnFile at hfile
  unfold WriteOk at hok
  generalize hi : (s.openFiles (handleIndex fh)).stIno = ino at hwrite hfile hok ⊢
  by_cases hneg : ino < 0
  · rw [if_pos hneg] at hwrite ⊢
    cases hwrite
    exact ⟨s', rfl, h⟩
  obtain ⟨hA, hF⟩ := hfile hfh (not_lt.mp hneg)
  rw [if_neg hneg] at hwrite ⊢
  rw [(h.node ino hA.1 hA.2.1).stat]
  by_cases hoff : offset > (s.inodeTable ino).stat.stSize
  · rw [if_pos hoff] at hwrite ⊢
    cases hwrite
    exact ⟨s', rfl, h⟩
  rw [if_neg hoff] at hwrite ⊢
  obtain ⟨h₁, hfit, _⟩ := hok hfh (not_lt.mp hneg) (not_lt.mp hoff)
  obtain ⟨B, hshape, hcount, hrule⟩ := hb.files ino hA hF
  have hsize₁ := rule.lt hrule
  rw [hcount] at hfit
  have h₀ := hfit.1
  have htotal := hfit.total_le (by exact_mod_cast h₁)
  have hu64 : toU64 (offset + size) = offset + size :=
    toU64_of_range (by omega) (by omega)
  rw [hu64] at hwrite ⊢
  obtain ⟨x, hgrow, hrest⟩ := bind_ok.mp hwrite
  obtain ⟨r₁, u⟩ := x
  obtain ⟨hr, hgrew, hbooks⟩ := (growFile_spec env hb.books hA hshape hcount (by omega) hsize₁
    (by omega) htotal (by exact_mod_cast hfit.2.1)).post _ hgrow
  dsimp only at hr hgrew hbooks hrest
  subst hr
  rw [if_neg (lt_irrefl 0)] at hrest
  have hroom' : HasRoom u := (writeData_front ino buf size offset u _ hrest).room hroom
  have hres' := hres.step (Or.inl (growFile_front env ino _ s _ hgrow)) hroom'
  obtain ⟨u', hgrow', hagree⟩ := growFile_agree h hb.books hA hshape hres hA.1 hA.2.1 hcount
    (by omega) hsize₁ (by omega) htotal (by exact_mod_cast hfit.2.1) hgrow hroom'
  rw [hgrow', ok_bind]
  dsimp only
  rw [if_neg (lt_irrefl 0)]
  exact writeData_agree hagree hbooks hA hgrew.shape (hres'.refsLow hbooks hA) hres'.system_pos
    hA.1 hA.2.1 h₀ h₁ htotal (fun n hn₀ hn₁ => by exact_mod_cast hfit.2.2 n hn₀ hn₁) hrest

end Write

end Sfs
