import CS416.Sfs.Accounting
import CS416.Sfs.Lookup
import CS416.Sfs.RemoveEntry
import CS416.Sfs.RoundTrip

/-!
# The text of a directory

The entries of a directory are a string that runs through its blocks.  The end
of the string is found by looking at bytes, but whether a new entry needs a
further block is read off `st_size`, which counts differently.  So an entry
arrives in full only under a condition on the two.
-/

namespace Sfs

open CInt CString Outcome

/-- Byte `p` of the blocks of the directory `cwd`, in order. -/
def dirByte (s : FS) (cwd : Int) (p : Nat) : UInt8 :=
  (blockRead s.disk (getBlockIndex s.disk (s.inodeTable cwd) (p / 512 : Nat))).byte (p % 512)

/-- The text of the directory `cwd`, up to the first `NUL`. -/
def textOf (s : FS) (cwd : Int) : Path :=
  (List.range (512 * (textEnd s cwd).1.toNat + (textEnd s cwd).2)).map (dirByte s cwd)

/-- Logical block `n` of `cwd`, which `get_block_index` serves, is `b`. -/
structure HasBlock (s : FS) (cwd : Int) (n : Nat) (b : Int) : Prop extends MapsTo s cwd n b where
  served : n < 1110
  nonneg : 0 ≤ b

/-- The blocks of `cwd` in order hold `text` and a `NUL`. -/
def HoldsText (s : FS) (cwd : Int) (text : Path) : Prop :=
  ∀ p ≤ text.length, ∃ b, HasBlock s cwd (p / 512) b ∧
    (blockRead s.disk b).byte (p % 512) = text.getD p 0

/-- From `s` to `t` the entry has been appended to the text of `cwd`, by way of a buffer of
`room` bytes that it has not overrun. -/
def AppendsEntry (room : Nat) (s t : FS) (cwd : Int) (entry : Path) : Prop :=
  (textEnd s cwd).2 + entry.length + 1 ≤ room ∧ HoldsText t cwd (textOf s cwd ++ entry)

/-- The blocks of the text of `cwd` are there, with the one in which it ends. -/
def EndsMapped (s : FS) (cwd : Int) : Prop :=
  ∀ m ≤ (textEnd s cwd).1.toNat, ∃ b, HasBlock s cwd m b

/-- The block behind the end of the text is there, and starts with what the entry has
beyond its first `k` bytes. -/
def RestThere (s : FS) (cwd : Int) (k : Nat) (entry : Path) : Prop :=
  ∃ b, HasBlock s cwd ((textEnd s cwd).1.toNat + 1) b ∧
    ∀ j, k + j ≤ entry.length → (blockRead s.disk b).byte j = entry.getD (k + j) 0

/-- The directory `cwd` takes the entry: the blocks of its text are there, and what does not
fit the last of them goes to a new one, or is there already. -/
structure TakesEntry (s : FS) (cwd : Int) (entry : Path) : Prop where
  there : EndsMapped s cwd
  rest : (textEnd s cwd).2 + entry.length < 512 ∨ GrowsDir s cwd (entry.length + 1) ∨
    RestThere s cwd (512 - (textEnd s cwd).2) entry

/-- A call whose blocks stay apart, though perhaps not all accounted for. -/
def BooksOk (s : FS) (c : Call) : Prop :=
  FuseOk s c ∧ BlockOk False anySize s c ∧
    ∀ fh buf size offset, c = .write fh buf size offset → OnFile s fh

/-- **What holds along a run** whose blocks stay apart. -/
theorem reached_books {s : FS} (h : Reached BooksOk s) : Tree s ∧ Blocks False anySize s := by
  apply h.invariant (I := fun s => Tree s ∧ Blocks False anySize s)
  · intro s hs
    exact ⟨fresh_tree hs, (fresh_state hs).blocks⟩
  · intro s c t _ hs hstep
    obtain ⟨ht, hb⟩ := hs
    obtain ⟨⟨hfuse, hok, hfile⟩, hret⟩ := hstep
    exact ⟨ht.exec hfuse hret, (hb.exec ht hfuse False.elim hfile hok hret).1⟩

section Text

variable {strict : Prop} {A : Set Int} {s t v : FS} {env : Env} {cwd b : Int} {n m : Nat}
  {entry : Path}

private theorem textEndFrom_pos (s : FS) (nd : Inode) (n : Nat) (k : Int)
    (h : (textEndFrom s nd n k).1 < k + n) : (textEndFrom s nd n k).2 < 512 := by
  induction n generalizing k with
  | zero =>
      have hk : k < k + 0 := h
      omega
  | succ n ih =>
      rw [textEndFrom] at h ⊢
      split
      · rename_i hlt
        dsimp only at hlt ⊢
        exact hlt
      · rename_i hfull
        rw [if_neg hfull] at h
        exact ih (k + 1) (by omega)

/-- A text that ends in a logical block ends before the end of the block. -/
theorem textEnd_pos (h : (textEnd s cwd).1.toNat < 1110) : (textEnd s cwd).2 < 512 := by
  unfold textEnd at h ⊢
  exact textEndFrom_pos s _ _ 0 (by omega)

/-- The text ends where `textEnd` says. -/
theorem length_textOf (s : FS) (cwd : Int) :
    (textOf s cwd).length = 512 * (textEnd s cwd).1.toNat + (textEnd s cwd).2 := by
  rw [textOf, List.length_map, List.length_range]

/-- The text consists of the directory's bytes. -/
theorem getD_textOf {p : Nat} (h : p < (textOf s cwd).length) :
    (textOf s cwd).getD p 0 = dirByte s cwd p := by
  rw [List.getD_eq_getElem _ _ h]
  simp [textOf]

/-- What has become of the text of `cwd` when `entry` was put behind it. -/
structure EntryAppended (env : Env) (s t : FS) (cwd : Int) (entry : Path) : Prop where
  maps : ∀ m ≤ (textEnd s cwd).1.toNat, ∀ b, HasBlock t cwd m b ↔ HasBlock s cwd m b
  before : ∀ m < (textEnd s cwd).1.toNat, ∀ b, HasBlock s cwd m b →
    blockRead t.disk b = blockRead s.disk b
  last : ∀ b, HasBlock s cwd (textEnd s cwd).1.toNat b → blockRead t.disk b =
    Block.ofFn (appendBuffer env (blockRead s.disk b) (textEnd s cwd).2 entry)
  grown : GrowsDir s cwd (entry.length + 1) → ∃ b blk,
    HasBlock t cwd ((textEnd s cwd).1.toNat + 1) b ∧ blockRead t.disk b =
      Block.ofFn fun j => appendBuffer env blk (textEnd s cwd).2 entry (512 + j)
  stays : ¬ GrowsDir s cwd (entry.length + 1) → ∀ b,
    (HasBlock t cwd ((textEnd s cwd).1.toNat + 1) b ↔
      HasBlock s cwd ((textEnd s cwd).1.toNat + 1) b) ∧
    (HasBlock s cwd ((textEnd s cwd).1.toNat + 1) b → blockRead t.disk b = blockRead s.disk b)

theorem blockRead_congr {d d' : Disk} (h : d' b = d b) : blockRead d' b = blockRead d b := by
  rw [blockRead, blockRead, h]

/-- The blocks of a directory are where the references of another state say. -/
theorem hasBlock_congr (hpath : ∀ p ∈ indexPath n, refs t (cwd, p) = refs s (cwd, p))
    (hdata : refs t (cwd, dataSlot n) = refs s (cwd, dataSlot n)) :
    HasBlock t cwd n b ↔ HasBlock s cwd n b := by
  constructor
  · intro h
    refine ⟨⟨?_, hdata ▸ h.data⟩, h.served, h.nonneg⟩
    intro p hp
    rw [← hpath p hp]
    exact h.path p hp
  · intro h
    refine ⟨⟨?_, hdata.trans h.data⟩, h.served, h.nonneg⟩
    intro p hp
    rw [hpath p hp]
    exact h.path p hp

/-- Two logical blocks are different blocks. -/
theorem HasBlock.ne (h : HasBlock s cwd m b) (hbooks : Books strict A ∅ s) (hcwd : cwd ∈ A)
    (hn : n < 1110) (hne : m ≠ n) : b ≠ refs s (cwd, dataSlot n) := by
  rw [← h.data]
  apply hbooks.ref_ne (x := (cwd, dataSlot m)) (y := (cwd, dataSlot n)) hcwd hcwd _ _ |>.symm
  · intro heq
    exact hne (dataSlot_inj h.served hn (Prod.mk.inj heq).2.symm)
  · rw [h.data]
    exact h.nonneg

/-- A block of a directory is in use. -/
theorem HasBlock.used (h : HasBlock s cwd m b) (hbooks : Books strict A ∅ s) (hcwd : cwd ∈ A) :
    s.diskBlocks b ≠ FREE := by
  rw [← h.data]
  apply hbooks.used_of_ref (x := (cwd, dataSlot m)) hcwd
  rw [h.data]
  exact h.nonneg

/-- A data block of a directory is none of its index blocks. -/
theorem HasBlock.not_index (h : HasBlock s cwd m b) (hbooks : Books strict A ∅ s)
    (hcwd : cwd ∈ A) {p : Slot} (hp : p.isIndex = true) : refs s (cwd, p) ≠ b := by
  rw [← h.data]
  apply hbooks.ref_ne (x := (cwd, dataSlot m)) (y := (cwd, p)) hcwd hcwd
  · intro heq
    have hidx := isIndex_dataSlot m
    rw [← (Prod.mk.inj heq).2, hp] at hidx
    cases hidx
  · rw [h.data]
    exact h.nonneg

/-- A block of a directory is a block of the disk. -/
theorem HasBlock.lt (h : HasBlock s cwd m b) (hbooks : Books strict A ∅ s) (hcwd : cwd ∈ A) :
    b < numBlocks := by
  have hlt := hbooks.ref_lt (x := (cwd, dataSlot m)) hcwd (by rw [h.data]; exact h.nonneg)
  rwa [h.data] at hlt

/-- **Entering a name, seen at the text.** -/
theorem appendEntry_text (env : Env) (h : Books strict A ∅ s) (hcwd : cwd ∈ A)
    (hfit : DirFits strict s cwd (entry.length + 1)) :
    OkUnless .noReturn (appendEntry env cwd entry s) fun t =>
      EntryAppended env s t cwd entry := by
  obtain ⟨hlt, hmapped, hgrows⟩ := hfit
  have hnonneg := textEnd_nonneg s cwd
  refine appendEntry_outcome ?_
  unfold putEntry
  generalize hn : (textEnd s cwd).1.toNat = n at hlt hmapped hgrows
  have hi : (textEnd s cwd).1 = n := by omega
  generalize hpos : (textEnd s cwd).2 = pos
  rw [hi]
  dsimp only
  have hidx : getBlockIndex s.disk (s.inodeTable cwd) n = refs s (cwd, dataSlot n) :=
    getBlockIndex_eq hlt (hmapped n (le_refl n))
  rw [hidx]
  generalize htarget : refs s (cwd, dataSlot n) = target
  generalize hbuf : appendBuffer env (blockRead s.disk target) pos entry = buf
  generalize hu : s.write target (Block.ofFn buf) = u
  obtain ⟨hbooks, hrefs⟩ := h.write_data hcwd (isIndex_dataSlot n) (Block.ofFn buf)
  rw [htarget, hu] at hbooks hrefs
  have hkept : ∀ sl, refs u (cwd, sl) = refs s (cwd, sl) := fun sl => hrefs (cwd, sl) hcwd
  have hused : u.diskBlocks = s.diskBlocks := by
    subst u
    rfl
  have hgrows' : GrowsDir u cwd (entry.length + 1) ↔ GrowsDir s cwd (entry.length + 1) := by
    subst u
    rfl
  refine (growDir_spec env hbooks hcwd buf (fun hg => ?_)).bind ?_
  · rw [hkept]
    exact hgrows (hgrows'.mp hg)
  intro t ht
  obtain ⟨hbooks', hg⟩ := ht
  apply OkUnless.pure
  -- up to the end of the text the references stay, and behind it if nothing has grown
  have hmaps : ∀ m, m ≤ n ∨ ¬ GrowsDir s cwd (entry.length + 1) → ∀ b,
      HasBlock t cwd m b ↔ HasBlock s cwd m b := by
    intro m hm b
    by_cases hgrow : GrowsDir s cwd (entry.length + 1)
    · have hle : m ≤ n := hm.resolve_right (not_not.mpr hgrow)
      apply hasBlock_congr
      · intro p hp
        rw [hg.index p (mem_indexPath_isIndex hp) (by rw [hkept]; exact hmapped m hle p hp),
          hkept]
      · have hne : dataSlot m ≠ dataSlot (n + 1) := by
          intro heq
          have hmn := dataSlot_inj (by omega) (hgrows hgrow).1 heq
          omega
        rw [hg.own _ (isIndex_dataSlot m) hne, hkept]
    · have htu : t = u := hg.stays (mt hgrows'.mp hgrow)
      rw [htu]
      exact hasBlock_congr (fun p _ => hkept p) (hkept _)
  -- a block that was the directory's is as it was before the growth
  have hold : ∀ m b, HasBlock s cwd m b → t.disk b = u.disk b := by
    intro m b hb
    apply hg.disk b
    · rw [hused]
      exact hb.used h hcwd
    · intro p hp _
      rw [hkept]
      exact hb.not_index h hcwd hp
  have hother : ∀ m b, m ≠ n → HasBlock s cwd m b → blockRead t.disk b = blockRead s.disk b := by
    intro m b hm hb
    have hne := hb.ne h hcwd hlt hm
    rw [htarget] at hne
    apply blockRead_congr
    rw [hold m b hb, ← hu]
    exact write_disk_ne hne
  generalize hw : t.modStat cwd _ = w
  have hwdisk : w.disk = t.disk := by
    subst w
    rfl
  have hwblock : ∀ m b, HasBlock w cwd m b ↔ HasBlock t cwd m b := by
    intro m b
    have hwrefs : ∀ x, refs w x = refs t x := by
      subst w
      exact refs_modStat _ _ _
    exact hasBlock_congr (fun p _ => hwrefs _) (hwrefs _)
  exact
    { maps := fun m hm b => (hwblock m b).trans (hmaps m (Or.inl (by omega)) b)
      before := fun m hm b hb => by
        rw [hwdisk]
        exact hother m b (by omega) hb
      last := fun b hb => by
        rw [hn] at hb
        have hbt : b = target := hb.data.symm.trans htarget
        rw [hwdisk, blockRead_congr (hold n b hb), ← hu, hpos, hbt, hbuf]
        rw [hbt] at hb
        exact blockRead_write_self (hb.lt h hcwd)
      grown := fun hgrow => by
        obtain ⟨hnew, hdisk⟩ := hg.added (hgrows'.mpr hgrow)
        refine ⟨refs t (cwd, dataSlot (n + 1)), blockRead s.disk target, (hwblock _ _).mpr ?_, ?_⟩
        · rw [hn]
          exact ⟨⟨hg.path (hgrows'.mpr hgrow), rfl⟩, (hgrows hgrow).1, hnew⟩
        · rw [hwdisk, hpos, hbuf, ← hdisk, blockRead_of_lt]
          exact hbooks'.ref_lt (x := (cwd, dataSlot (n + 1))) hcwd hnew
      stays := fun hgrow b => by
        rw [hn]
        refine ⟨(hwblock _ b).trans (hmaps _ (Or.inr hgrow) b), fun hb => ?_⟩
        rw [hwdisk]
        exact hother (n + 1) b (by omega) hb }

/-- The byte of the entry that the buffer holds behind the text. -/
theorem appendBuffer_entry (env : Env) (blk : Block) {pos j k : Nat} (hj : j = pos + k)
    (hk : k ≤ entry.length) : appendBuffer env blk pos entry j = entry.getD k 0 := by
  rw [appendBuffer, if_pos (by omega), hj, Nat.add_sub_cancel_left]
  by_cases hlt : k < entry.length
  · rw [List.getD_append _ _ _ _ hlt]
  · rw [List.getD_append_right _ _ _ _ (by omega), List.getD_eq_default entry _ (by omega),
      show k - entry.length = 0 by omega]
    rfl

private theorem appendBuffer_text (env : Env) (blk : Block) {pos j : Nat} (h₀ : j < pos)
    (h₁ : j < 512) : appendBuffer env blk pos entry j = blk.byte j := by
  rw [appendBuffer, if_neg (by omega), if_pos h₁]

/-- The text that is wanted, before and behind its old end. -/
theorem getD_text_old {p : Nat} (h : p < (textOf s cwd).length) :
    (textOf s cwd ++ entry).getD p 0 = dirByte s cwd p := by
  rw [List.getD_append _ _ _ _ h, getD_textOf h]

private theorem getD_text_new {p k : Nat} (h : p = (textOf s cwd).length + k) :
    (textOf s cwd ++ entry).getD p 0 = entry.getD k 0 := by
  rw [h, List.getD_append_right _ _ _ _ (by omega), Nat.add_sub_cancel_left]

/-- A byte of the directory lies in the block that has its logical number. -/
theorem HasBlock.dirByte_eq (h : HasBlock s cwd m b) {p : Nat} (hp : p / 512 = m) :
    dirByte s cwd p = (blockRead s.disk b).byte (p % 512) := by
  rw [dirByte, hp, h.getBlockIndex_eq h.served]

/-- **When the entry arrives**: what the directory holds afterwards is decided before. -/
theorem EntryAppended.holds_iff (h : EntryAppended env s t cwd entry)
    (hpos : (textEnd s cwd).2 < 512) (hshort : entry.length ≤ 512) :
    HoldsText t cwd (textOf s cwd ++ entry) ↔ TakesEntry s cwd entry := by
  have hlen := length_textOf s cwd
  have hsum : (textOf s cwd ++ entry).length = (textOf s cwd).length + entry.length :=
    List.length_append
  unfold HoldsText
  rw [hsum, hlen]
  constructor
  · intro hholds
    constructor
    · intro m hm
      obtain ⟨b, hb, _⟩ := hholds (512 * m) (by omega)
      rw [Nat.mul_div_cancel_left _ (by decide)] at hb
      exact ⟨b, (h.maps m hm b).mp hb⟩
    · by_cases hfits : (textEnd s cwd).2 + entry.length < 512
      · exact Or.inl hfits
      by_cases hgrow : GrowsDir s cwd (entry.length + 1)
      · exact Or.inr (Or.inl hgrow)
      obtain ⟨b, hb, _⟩ := hholds (512 * ((textEnd s cwd).1.toNat + 1)) (by omega)
      rw [Nat.mul_div_cancel_left _ (by decide)] at hb
      obtain ⟨hiff, hsame⟩ := h.stays hgrow b
      refine Or.inr (Or.inr ⟨b, hiff.mp hb, ?_⟩)
      intro j hj
      obtain ⟨c, hc, hbyte⟩ := hholds (512 * ((textEnd s cwd).1.toNat + 1) + j) (by omega)
      rw [show (512 * ((textEnd s cwd).1.toNat + 1) + j) / 512 = (textEnd s cwd).1.toNat + 1 by
        omega] at hc
      have hcb : c = b := hc.data.symm.trans hb.data
      rw [hcb, hsame (hiff.mp hb), getD_text_new (k := 512 - (textEnd s cwd).2 + j) (by omega),
        show (512 * ((textEnd s cwd).1.toNat + 1) + j) % 512 = j by omega] at hbyte
      exact hbyte
  · intro htakes p hp
    by_cases hbefore : p / 512 < (textEnd s cwd).1.toNat
    · -- a block that was full of the text
      obtain ⟨b, hblock⟩ := htakes.there _ hbefore.le
      refine ⟨_, (h.maps _ hbefore.le _).mpr hblock, ?_⟩
      rw [h.before _ hbefore _ hblock, getD_text_old (by omega), hblock.dirByte_eq rfl]
    by_cases hlast : p / 512 = (textEnd s cwd).1.toNat
    · -- the block in which it ended
      obtain ⟨b, hb⟩ := htakes.there _ (le_refl _)
      rw [hlast]
      refine ⟨b, (h.maps _ (le_refl _) b).mpr hb, ?_⟩
      rw [h.last b hb, Block.byte_ofFn _ (Nat.mod_lt _ (by decide))]
      by_cases hold : p % 512 < (textEnd s cwd).2
      · rw [appendBuffer_text env _ hold (by omega), getD_text_old (by omega),
          hb.dirByte_eq hlast]
      · rw [appendBuffer_entry env _ (k := p % 512 - (textEnd s cwd).2) (by omega) (by omega),
          getD_text_new (k := p % 512 - (textEnd s cwd).2) (by omega)]
    · -- the block behind it
      have hnext : p / 512 = (textEnd s cwd).1.toNat + 1 := by omega
      rw [hnext, getD_text_new (k := 512 - (textEnd s cwd).2 + p % 512) (by omega)]
      by_cases hgrow : GrowsDir s cwd (entry.length + 1)
      · obtain ⟨c, blk, hc, hread⟩ := h.grown hgrow
        refine ⟨c, hc, ?_⟩
        rw [hread, Block.byte_ofFn _ (Nat.mod_lt _ (by decide)),
          appendBuffer_entry env _ (k := 512 - (textEnd s cwd).2 + p % 512) (by omega) (by omega)]
      · obtain ⟨c, hc, hrest⟩ :=
          (htakes.rest.resolve_left (by omega)).resolve_left hgrow
        obtain ⟨hiff, hsame⟩ := h.stays hgrow c
        refine ⟨c, hiff.mpr hc, ?_⟩
        rw [hsame hc, hrest (p % 512) (by omega)]

end Text

section Calls

variable {strict : Prop} {rule : SizeRule} {s t v : FS} {env : Env} {cwd b : Int} {n : Nat}
  {path entry : Path} {mode : Nat} {fi fh : Int}

/-- The directory `cwd` has the same blocks with the same contents, and block `-1` is read
alike where it has none. -/
structure SameDir (s v : FS) (cwd : Int) : Prop where
  blocks : (v.inodeTable cwd).blocks = (s.inodeTable cwd).blocks
  size : (v.inodeTable cwd).stat.stSize = (s.inodeTable cwd).stat.stSize
  disk : ∀ p, v.disk (refs s (cwd, p)) = s.disk (refs s (cwd, p))

/-- The directory has the same blocks. -/
theorem SameDir.hasBlock (h : SameDir s v cwd) : HasBlock v cwd n b ↔ HasBlock s cwd n b :=
  hasBlock_congr (fun p _ => refs_congr h.blocks (fun p _ => h.disk p) p)
    (refs_congr h.blocks (fun p _ => h.disk p) _)

/-- They are read alike. -/
theorem SameDir.read (h : SameDir s v cwd) (hb : HasBlock s cwd n b) :
    blockRead v.disk b = blockRead s.disk b := by
  apply blockRead_congr
  have hdisk := h.disk (dataSlot n)
  rwa [hb.data] at hdisk

/-- The text of the directory is the same. -/
theorem SameDir.textOf (h : SameDir s v cwd) (hend : textEnd v cwd = textEnd s cwd)
    (hmapped : ∀ m ≤ (textEnd s cwd).1.toNat, ∀ p ∈ indexPath m, 0 ≤ refs s (cwd, p))
    (hlt : (textEnd s cwd).1.toNat < 1110) : Sfs.textOf v cwd = Sfs.textOf s cwd := by
  unfold Sfs.textOf
  rw [hend]
  apply List.map_congr_left
  intro p hp
  have hp' := List.mem_range.mp hp
  have hpos := textEnd_pos hlt
  have hle : p / 512 ≤ (textEnd s cwd).1.toNat := by omega
  rw [dirByte, dirByte, blockRead_logical h.blocks h.disk (by omega) (hmapped _ hle)]

/-- The directory takes an entry in both states or in neither. -/
theorem SameDir.takesEntry (h : SameDir s v cwd) (hend : textEnd v cwd = textEnd s cwd) :
    TakesEntry v cwd entry ↔ TakesEntry s cwd entry := by
  have hlast : EndsMapped v cwd ↔ EndsMapped s cwd := by
    unfold EndsMapped
    rw [hend]
    exact forall₂_congr fun m _ => exists_congr fun b => h.hasBlock
  have hgrows : GrowsDir v cwd (entry.length + 1) ↔ GrowsDir s cwd (entry.length + 1) := by
    rw [GrowsDir, GrowsDir, h.size]
  have hrest : ∀ k, RestThere v cwd k entry ↔ RestThere s cwd k entry := by
    intro k
    unfold RestThere
    rw [hend]
    apply exists_congr
    intro b
    rw [h.hasBlock]
    apply and_congr_right
    intro hb
    rw [h.read hb]
  constructor
  · intro htakes
    refine ⟨hlast.mp htakes.there, ?_⟩
    rw [← hend, ← hgrows, ← hrest]
    exact htakes.rest
  · intro htakes
    refine ⟨hlast.mpr htakes.there, ?_⟩
    rw [hend, hgrows, hrest]
    exact htakes.rest

/-- The call has come to the directory `cwd` unchanged, and appends `entry` there. -/
def Appends (env : Env) (strict : Prop) (s t : FS) (cwd : Int) (entry : Path) : Prop :=
  ∃ v, Books strict (allocated v) ∅ v ∧ cwd ∈ allocated v ∧ SameDir s v cwd ∧
    appendEntry env cwd entry v = .ok t

/-- `sfs_create` appends the entry to the parent. -/
theorem sfsCreate_appends (h : Blocks strict rule s) (ht : Tree s)
    (hfuse : FuseOk s (.create path mode)) (hcr : sfsCreate env path mode fi s = .ok (0, fh, t)) :
    ∃ k, Entry s k ∧ IsParent (pathOf s k) path ∧ pathLookup s path < 0 ∧
      0 ≤ (getMapping s).1 ∧ Appends env strict s t (inoOf s k) (newEntry s path) := by
  rcases sfsCreate_cases ht hfuse _ hcr with ⟨hr, _⟩ | ⟨_, _, _, _, _, hr, _⟩ |
    ⟨u, m, i, k, fh', hp, hn, he, hm, hi, _, happ⟩
  · cases hr
  · cases hr
  obtain ⟨hk, hkd, hkp⟩ := he.parent
  have hA := ht.dir_allocated hk
  have hki : inoOf s k ≠ i := by
    intro heq
    apply not_mem_allocated hp.free
    rw [← heq]
    exact hA
  obtain ⟨hu, _, _⟩ := h.newFile hp hn
  have hv := hu.same (t := enterName m i path
    (u.setName m { u.nameTable m with avail := ALLOCD })) rfl rfl rfl
  refine ⟨k, hk, hkp, pathLookup_new hfuse.2.2.1 he.fresh ht, hm ▸ he.slot.1, ⟨_, hv.books, ?_,
    ⟨hn.blocks_ne _ hki, by rw [he.stat_ne _ hki], ?_⟩, ?_⟩⟩
  · refine ⟨hA.1, hA.2.1, ?_⟩
    rw [he.avail_ne _ hki]
    exact hA.2.2
  · intro p
    exact congrFun hn.disk _
  · rw [newEntry, ← hi]
    exact happ

/-- `sfs_mkdir` appends the entry to the parent. -/
theorem sfsMkdir_appends (h : Blocks strict rule s) (ht : Tree s)
    (hfuse : FuseOk s (.mkdir path mode)) (hmk : sfsMkdir env path mode s = .ok (0, t)) :
    ∃ k, Entry s k ∧ IsParent (pathOf s k) path ∧ pathLookup s path < 0 ∧
      0 ≤ (getMapping s).1 ∧ Appends env strict s t (inoOf s k) (newEntry s path) := by
  rcases sfsMkdir_cases ht hfuse _ hmk with ⟨hr, _⟩ | ⟨_, _, _, _, _, hr, _⟩ |
    ⟨u, m, i, k, b, hp, hn, he, hm, hi, _, happ⟩
  · cases hr
  · cases hr
  obtain ⟨hk, hkd, hkp⟩ := he.parent
  have hA := ht.dir_allocated hk
  have hki : inoOf s k ≠ i := by
    intro heq
    apply not_mem_allocated hp.free
    rw [← heq]
    exact hA
  obtain ⟨hu, _, hfirst⟩ := h.newDir hp hn
  generalize hw : enterName m i path
    (u.setName m { u.nameTable m with avail := ALLOCD }) = w at he happ
  have hwnode : w.inodeTable = u.inodeTable := by rw [← hw]; rfl
  have hwdisk : w.disk = u.disk := by rw [← hw]; rfl
  have hwB := hu.same hwnode (by rw [← hw]; rfl) hwdisk
  have hiw : i ∈ allocated w := ⟨hp.range.1, hp.range.2, he.avail⟩
  -- the header goes to the first block of the new directory
  have hb : refs w (i, dataSlot 0) = b := by
    rw [refs, hwnode, hwdisk]
    exact hfirst
  have hv := hwB.writeData hiw (isIndex_dataSlot 0) (textBlock (dirHeader i (inoOf s k)))
  rw [hb] at hv
  refine ⟨k, hk, hkp, pathLookup_new hfuse.2.1 he.fresh ht, hm ▸ he.slot.1, ⟨_, hv.books, ?_,
    ⟨?_, by rw [FS.write_inodeTable, he.stat_ne _ hki], ?_⟩, ?_⟩⟩
  · refine ⟨hA.1, hA.2.1, ?_⟩
    rw [FS.write_inodeTable, he.avail_ne _ hki]
    exact hA.2.2
  · rw [FS.write_inodeTable, hwnode, hn.blocks_ne _ hki]
  · intro p
    exact ((SameDisk.of_eq (hwdisk.trans hn.disk)).write hn.block.1 hn.block.2.2 _).ref h.books
      (x := (inoOf s k, p)) hA
  · rw [newEntry, ← hi]
    exact happ

/-- A new entry is shorter than a quarter of a block and a bit. -/
theorem length_newEntry (hfits : PathFits path) (hfree : HasFreeInode s) :
    (newEntry s path).length ≤ 132 := by
  obtain ⟨i, hget, h₀, h₁, _⟩ := getInode_of_free hfree
  have hname : (getName path).length ≤ path.length := by
    unfold getName
    split
    · rename_i hroot
      rw [hroot]
    · split
      · exact Nat.zero_le _
      · rw [List.length_drop]
        omega
  have hfits' := hfits.1
  have hdigits := length_showInt (n := (getInode s).1) (by rw [hget]; exact h₀)
    (by rw [hget]; exact h₁)
  simp only [maxPathLen] at hfits'
  rw [newEntry, dirEntry, List.cons_append, List.length_cons, List.length_append,
    List.length_cons]
  omega

/-- An append that its directory can take, seen at the text. -/
theorem Appends.holds_iff (h : Appends env strict s t cwd entry)
    (hfit : DirFits strict s cwd (entry.length + 1)) (hshort : entry.length ≤ 512) :
    HoldsText t cwd (textOf s cwd ++ entry) ↔ TakesEntry s cwd entry := by
  obtain ⟨v, hbooks, hcwd, hsame, happ⟩ := h
  obtain ⟨hend, hfit'⟩ := hfit.congr hsame.blocks hsame.size hsame.disk
  have happended := (appendEntry_text env hbooks hcwd hfit').post t happ
  rw [← hsame.textOf hend hfit.mapped hfit.lt, ← hsame.takesEntry hend]
  exact happended.holds_iff (textEnd_pos hfit'.lt) hshort

/-- **When an entry is appended to a directory as it should be.** -/
theorem appends_entry_iff {k : Int} (h : Reached BooksOk s) (hk : Entry s k)
    (hkp : IsParent (pathOf s k) path) :
    (∀ env mode fi fh t, BooksOk s (.create path mode) →
      sfsCreate env path mode fi s = .ok (0, fh, t) →
      (AppendsEntry 1024 s t (inoOf s k) (newEntry s path) ↔
        TakesEntry s (inoOf s k) (newEntry s path))) ∧
    (∀ env mode t, BooksOk s (.mkdir path mode) → sfsMkdir env path mode s = .ok (0, t) →
      (AppendsEntry 512 s t (inoOf s k) (newEntry s path) ↔
        EndsMapped s (inoOf s k) ∧
          (textEnd s (inoOf s k)).2 + (newEntry s path).length < 512)) := by
  obtain ⟨ht, hb⟩ := reached_books h
  have hsame : ∀ j, Entry s j → IsParent (pathOf s j) path → j = k := fun j hj hjp =>
    ht.path_inj j k hj hk (hjp.unique hkp)
  constructor
  · intro env mode fi fh t hok hcr
    obtain ⟨hfuse, hblock, _⟩ := hok
    obtain ⟨j, hj, hjp, hnew, hmap, happ⟩ := sfsCreate_appends hb ht hfuse hcr
    obtain rfl := hsame j hj hjp
    have hshort := length_newEntry hfuse.1 hfuse.2.2.2
    have hfit := hblock hnew hmap j hj hjp
    have hpos := textEnd_pos hfit.lt
    have hiff := happ.holds_iff hfit (by omega)
    unfold AppendsEntry
    rw [hiff]
    constructor
    · intro hall
      exact hall.2
    · intro htakes
      exact ⟨by omega, htakes⟩
  · intro env mode t hok hmk
    obtain ⟨hfuse, hblock, _⟩ := hok
    obtain ⟨j, hj, hjp, hnew, hmap, happ⟩ := sfsMkdir_appends hb ht hfuse hmk
    obtain rfl := hsame j hj hjp
    have hshort := length_newEntry hfuse.1 hfuse.2.2
    have hfit := hblock hnew hmap j hj hjp
    have hpos := textEnd_pos hfit.lt
    have hiff := happ.holds_iff hfit (by omega)
    unfold AppendsEntry
    rw [hiff]
    constructor
    · intro hall
      exact ⟨hall.2.there, by omega⟩
    · intro hall
      exact ⟨by omega, hall.1, Or.inl hall.2⟩

/-- `/a` goes into the root of a fresh mount as a file or as a directory. -/
theorem appends_entry_root :
    (∃ fh t, sfsCreate zeroEnv (rootPath letterA) 0o100644 0 firstMount = .ok (0, fh, t) ∧
      HoldsText t 0 (dirHeader 0 0 ++ dirEntry [letterA] 1)) ∧
    ∃ t, sfsMkdir zeroEnv (rootPath letterA) 0o755 firstMount = .ok (0, t) ∧
      HoldsText t 0 (dirHeader 0 0 ++ dirEntry [letterA] 1) := by
  have htree := fresh_tree fresh_firstMount
  have hino : inoOf firstMount 0 = 0 := by decide +kernel
  have hpar : IsParent (pathOf firstMount 0) (rootPath letterA) := by
    rw [htree.root.2.1]
    exact ⟨by decide, [letterA], by decide, by decide, rfl⟩
  have hfuse := fuseOk_root firstMount letterA (by decide +kernel)
  have hfits := @fits_root False firstMount letterA htree (by decide) hino
    (by decide +kernel) (by decide +kernel)
  have hentry : newEntry firstMount (rootPath letterA) = dirEntry [letterA] 1 := by
    decide +kernel
  have htext : textOf firstMount 0 = dirHeader 0 0 := by decide +kernel
  have hroom : (textEnd firstMount 0).2 + (dirEntry [letterA] 1).length < 512 := by
    decide +kernel
  have hends : EndsMapped firstMount 0 := by
    have hzero : (textEnd firstMount 0).1.toNat = 0 := by decide +kernel
    unfold EndsMapped
    rw [hzero]
    intro m hm
    obtain rfl := Nat.le_zero.mp hm
    exact ⟨0, ⟨nofun, by decide +kernel⟩, by decide, le_refl 0⟩
  obtain ⟨hcreate, hmkdir⟩ := appends_entry_iff (reached_firstMount BooksOk) htree.root.1 hpar
  rw [hino, hentry] at hcreate hmkdir
  constructor
  · obtain ⟨⟨fh, t⟩, hcr⟩ : ∃ a, sfsCreate zeroEnv (rootPath letterA) 0o100644 0 firstMount =
        .ok (0, a) := ok_of_result (by decide +kernel)
    have hiff := hcreate _ _ _ _ _ ⟨hfuse.1, fun _ _ => hfits, nofun⟩ hcr
    have happ := hiff.mpr ⟨hends, Or.inl hroom⟩
    rw [AppendsEntry, htext] at happ
    exact ⟨fh, t, hcr, happ.2⟩
  · obtain ⟨t, hmk⟩ : ∃ t, sfsMkdir zeroEnv (rootPath letterA) 0o755 firstMount = .ok (0, t) :=
      ok_of_result (by decide +kernel)
    have hiff := hmkdir _ _ _ ⟨hfuse.2, fun _ _ => hfits, nofun⟩ hmk
    have happ := hiff.mpr ⟨hends, hroom⟩
    rw [AppendsEntry, htext] at happ
    exact ⟨t, hmk, happ.2⟩

/-- `sfs_create` of a name in the root. -/
def createName (name : Path) (s : FS) : FS :=
  after zeroEnv (.create (slash :: name) 0o100644) s

/-- Three names of 126 bytes in the root of a fresh mount: the text takes 395 bytes. -/
def nearlyFull : FS :=
  createName (List.replicate 126 letterC) (createName (List.replicate 126 letterB)
    (createName (List.replicate 126 letterA) firstMount))

private theorem reached_createName {name : Path} (h : Reached FuseOk s) (hready : NameReady s name)
    (hret : returns zeroEnv (.create (slash :: name) 0o100644) s = true) :
    Reached FuseOk (createName name s) :=
  reached_after zeroEnv _ h (fuseOk_name s name hready).1 hret

private theorem reached_nearlyFull : Reached FuseOk nearlyFull := by
  apply reached_createName _ (by decide +kernel) (by decide +kernel)
  apply reached_createName _ (by decide +kernel) (by decide +kernel)
  exact reached_createName (reached_firstMount FuseOk) (by decide +kernel) (by decide +kernel)

private theorem textEnd_nearlyFull : textEnd nearlyFull 0 = (0, 395) := by decide +kernel

/-- `mkdir` with one more name of 126 bytes: `sprintf` writes 525 bytes to a buffer of 512. -/
theorem mkdir_overruns_buffer :
    ¬ ∀ s path k, Reached FuseOk s → Entry s k → IsParent (pathOf s k) path →
      (∀ env mode fi fh t, FuseOk s (.create path mode) →
        sfsCreate env path mode fi s = .ok (0, fh, t) →
        AppendsEntry 1024 s t (inoOf s k) (newEntry s path)) ∧
      ∀ env mode t, FuseOk s (.mkdir path mode) → sfsMkdir env path mode s = .ok (0, t) →
        AppendsEntry 512 s t (inoOf s k) (newEntry s path) := by
  intro hclaim
  have hready : NameReady nearlyFull (List.replicate 126 100) := by decide +kernel
  have hino : inoOf nearlyFull 0 = 0 := by decide +kernel
  have hentry : (newEntry nearlyFull (slash :: List.replicate 126 100)).length = 129 := by
    decide +kernel
  obtain ⟨t, hmk⟩ : ∃ t, sfsMkdir zeroEnv (slash :: List.replicate 126 100) 0o755 nearlyFull =
      .ok (0, t) := ok_of_result (by decide +kernel)
  have hend := textEnd_nearlyFull
  have hreached := reached_nearlyFull
  generalize nearlyFull = s at hmk hready hino hentry hend hreached
  have htree := reached_tree hreached
  have hpar : IsParent (pathOf s 0) (slash :: List.replicate 126 100) := by
    rw [htree.root.2.1]
    exact ⟨by decide, List.replicate 126 100, by decide, by decide, rfl⟩
  have happ := (hclaim s _ 0 hreached htree.root.1 hpar).2 zeroEnv 0o755 t
    (fuseOk_name s _ hready).2 hmk
  have hroom := happ.1
  rw [hino, hend, hentry] at hroom
  exact absurd hroom (by decide)

end Calls

end Sfs
