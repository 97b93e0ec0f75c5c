import CS416.Sfs.BlockMap

/-!
# The specification of `set_block_index`

Setting the slot of a logical block below 1110 changes no other reference, but
fills the empty index slots on the way with blocks that were free.  Only index
blocks of that inode are written.
-/

namespace Sfs

open CInt Outcome

/-- Block `b` has been entered as logical block `n` of inode `ino`. -/
structure Placed (A : Set Int) (s t : FS) (ino : Int) (n : Nat) (b : Int) : Prop where
  keeps : Keeps s t
  blocks_ne : ∀ j, j ≠ ino → (t.inodeTable j).blocks = (s.inodeTable j).blocks
  data : refs t (ino, dataSlot n) = b
  path : ∀ p ∈ indexPath n, 0 ≤ refs t (ino, p)
  other : ∀ sl, sl ≠ dataSlot n → refs t (ino, sl) = refs s (ino, sl) ∨
    (sl ∈ indexPath n ∧ refs s (ino, sl) < 0 ∧ 0 ≤ refs t (ino, sl) ∧
      refs t (ino, sl) < numBlocks ∧ s.diskBlocks (refs t (ino, sl)) = FREE)
  refs_ne : ∀ x, x.1 ∈ A → x.1 ≠ ino → refs t x = refs s x
  used : ∀ c, s.diskBlocks c ≠ FREE → t.diskBlocks c = s.diskBlocks c
  disk : ∀ c, (∀ p ∈ indexPath n, refs t (ino, p) ≠ c) → t.disk c = s.disk c

/-- The empty index slot `p` of inode `ino` has received the free block `c`. -/
structure Opens (A : Set Int) (s t : FS) (ino : Int) (p : Slot) (c : Int) : Prop where
  keeps : Keeps s t
  blocks_ne : ∀ j, j ≠ ino → (t.inodeTable j).blocks = (s.inodeTable j).blocks
  empty : refs s (ino, p) < 0
  bounds : 0 ≤ c ∧ c < numBlocks
  free : s.diskBlocks c = FREE
  refs_eq : ∀ x, x.1 ∈ A → refs t x = Function.update (refs s) (ino, p) c x
  used : ∀ c', s.diskBlocks c' ≠ FREE → t.diskBlocks c' = s.diskBlocks c'
  disk : ∀ c', c' ≠ c → t.disk c' = s.disk c'

/-- Block `b` has been entered; index blocks are still owned, and ledgers that held `b` are
kept. -/
structure Inserted (A : Set Int) (s t : FS) (ino : Int) (n : Nat) (b : Int) : Prop where
  placed : Placed A s t ino n b
  owns : OwnsIndex A t
  books : ∀ (strict : Prop) (held : Set Int), Books strict A held s → b ∈ held →
    (strict → refs s (ino, dataSlot n) < 0) → Books strict A (held \ {b}) t

section Placing

variable {A held : Set Int} {strict : Prop} {s t u : FS} {ino b c : Int} {n : Nat} {p : Slot}

/-- Opening an index block on the way first. -/
theorem Opens.placed (ho : Opens A s t ino p c) (hino : ino ∈ A) (hp : p ∈ indexPath n)
    (h : Placed A t u ino n b) : Placed A s u ino n b := by
  have hpd : p ≠ dataSlot n := by
    rintro rfl
    exact not_mem_indexPath n n hp
  have hself : refs t (ino, p) = c := by
    rw [ho.refs_eq (ino, p) hino, Function.update_self]
  have hsame : ∀ sl, sl ≠ p → refs t (ino, sl) = refs s (ino, sl) := fun sl hsl => by
    rw [ho.refs_eq (ino, sl) hino, Function.update_of_ne (by simp [hsl])]
  have hkept : refs u (ino, p) = c := by
    have hc := ho.bounds.1
    rcases h.other p hpd with heq | ⟨_, hneg, _⟩
    · rw [heq, hself]
    · omega
  refine
    { keeps := ho.keeps.trans h.keeps
      blocks_ne := fun j hj => (h.blocks_ne j hj).trans (ho.blocks_ne j hj)
      data := h.data
      path := h.path
      other := fun sl hsl => ?_
      refs_ne := fun x hx hne => ?_
      used := fun c' hc' => ?_
      disk := fun c' hc' => ?_ }
  · by_cases hslp : sl = p
    · subst sl
      right
      rw [hkept]
      exact ⟨hp, ho.empty, ho.bounds.1, ho.bounds.2, ho.free⟩
    · rcases h.other sl hsl with heq | ⟨hmem, hneg, h₀, h₁, hfree⟩
      · exact Or.inl (heq.trans (hsame sl hslp))
      · refine Or.inr ⟨hmem, by rw [← hsame sl hslp]; exact hneg, h₀, h₁, ?_⟩
        by_contra hused
        rw [ho.used _ hused] at hfree
        exact hused hfree
  · rw [h.refs_ne x hx hne, ho.refs_eq x hx, Function.update_of_ne]
    intro heq
    exact hne (congrArg Prod.fst heq)
  · rw [h.used c' (by rw [ho.used c' hc']; exact hc'), ho.used c' hc']
  · rw [h.disk c' hc', ho.disk c']
    rintro rfl
    exact hc' p hp hkept

private theorem placed_of_update (hino : ino ∈ A) (hkeeps : Keeps s t)
    (hblocks : ∀ j, j ≠ ino → (t.inodeTable j).blocks = (s.inodeTable j).blocks)
    (hrefs : ∀ x, x.1 ∈ A → refs t x = Function.update (refs s) (ino, dataSlot n) b x)
    (hpath : ∀ p ∈ indexPath n, 0 ≤ refs s (ino, p))
    (hused : t.diskBlocks = s.diskBlocks)
    (hdisk : ∀ c, (∀ p ∈ indexPath n, refs s (ino, p) ≠ c) → t.disk c = s.disk c) :
    Placed A s t ino n b := by
  have hother : ∀ sl, sl ≠ dataSlot n → refs t (ino, sl) = refs s (ino, sl) := fun sl hsl => by
    rw [hrefs (ino, sl) hino, Function.update_of_ne (by simp [hsl])]
  have hmem : ∀ p ∈ indexPath n, refs t (ino, p) = refs s (ino, p) := fun p hp =>
    hother p fun heq => not_mem_indexPath n n (heq ▸ hp)
  refine
    { keeps := hkeeps
      blocks_ne := hblocks
      data := by rw [hrefs (ino, dataSlot n) hino, Function.update_self]
      path := fun p hp => by rw [hmem p hp]; exact hpath p hp
      other := fun sl hsl => Or.inl (hother sl hsl)
      refs_ne := fun x hx hne => ?_
      used := fun c _ => by rw [hused]
      disk := fun c hc => hdisk c fun p hp => by rw [← hmem p hp]; exact hc p hp }
  rw [hrefs x hx, Function.update_of_ne]
  intro heq
  exact hne (congrArg Prod.fst heq)

/-- Opening the last index block together with its first entry. -/
theorem placed_of_open (hino : ino ∈ A) (hp : p ∈ indexPath n) (hkeeps : Keeps s t)
    (hblocks : ∀ j, j ≠ ino → (t.inodeTable j).blocks = (s.inodeTable j).blocks)
    (hneg : refs s (ino, p) < 0) (hc : Taken s c u)
    (hrefs : ∀ x, x.1 ∈ A → refs t x =
      Function.update (Function.update (refs s) (ino, p) c) (ino, dataSlot n) b x)
    (hpath : ∀ q ∈ indexPath n, q ≠ p → 0 ≤ refs s (ino, q))
    (hused : t.diskBlocks = Function.update s.diskBlocks c ALLOCD)
    (hdisk : ∀ c', c' ≠ c → (∀ q ∈ indexPath n, q ≠ p → refs s (ino, q) ≠ c') →
      t.disk c' = s.disk c') :
    Placed A s t ino n b := by
  have hpd : ∀ q ∈ indexPath n, q ≠ dataSlot n := fun q hq heq =>
    not_mem_indexPath n n (heq ▸ hq)
  have hself : refs t (ino, p) = c := by
    rw [hrefs (ino, p) hino, Function.update_of_ne (by simp [hpd p hp]), Function.update_self]
  have hother : ∀ sl, sl ≠ dataSlot n → sl ≠ p → refs t (ino, sl) = refs s (ino, sl) :=
    fun sl hsl hslp => by
      rw [hrefs (ino, sl) hino, Function.update_of_ne (by simp [hsl]),
        Function.update_of_ne (by simp [hslp])]
  refine
    { keeps := hkeeps
      blocks_ne := hblocks
      data := by rw [hrefs (ino, dataSlot n) hino, Function.update_self]
      path := fun q hq => ?_
      other := fun sl hsl => ?_
      refs_ne := fun x hx hne => ?_
      used := fun c' hc' => ?_
      disk := fun c' hc' => ?_ }
  · by_cases hqp : q = p
    · rw [hqp, hself]
      exact hc.nonneg
    · rw [hother q (hpd q hq) hqp]
      exact hpath q hq hqp
  · by_cases hslp : sl = p
    · rw [hslp, hself]
      exact Or.inr ⟨hp, hneg, hc.nonneg, hc.lt, hc.free⟩
    · exact Or.inl (hother sl hsl hslp)
  · have hne' : ∀ sl, x ≠ (ino, sl) := fun sl heq => hne (congrArg Prod.fst heq)
    rw [hrefs x hx, Function.update_of_ne (hne' _), Function.update_of_ne (hne' _)]
  · have hcc : c' ≠ c := by
      rintro rfl
      exact hc' hc.free
    rw [hused, Function.update_of_ne hcc]
  · refine hdisk c' ?_ fun q hq hqp => ?_
    · rintro rfl
      exact hc' p hp hself
    · rw [← hother q (hpd q hq) hqp]
      exact hc' q hq

end Placing

section Open

variable {strict : Prop} {A held : Set Int} {s : FS} {ino b : Int} {n : Nat}

/-- The index block is there, or a block is taken for it. -/
theorem openSingle_cases (ino : Int) (s : FS) :
    OkUnless .noReturn (openSingle ino s) fun r =>
      0 ≤ refs s (ino, .single) ∧ r = (blockRead s.disk (refs s (ino, .single)), s) ∨
      refs s (ino, .single) < 0 ∧ ∃ c t, Taken s c t ∧
        r = ((blockRead t.disk c).fillShorts 100 (-1), t.setBlocks ino 10 c) := by
  unfold openSingle
  split
  · rename_i hneg
    refine (getBlock_outcome s).bind ?_
    rintro ⟨c, t⟩ hc
    exact OkUnless.pure (Or.inr ⟨hneg, c, t, hc, rfl⟩)
  · rename_i hpos
    exact OkUnless.pure (Or.inl ⟨not_lt.mp hpos, rfl⟩)

/-- The doubly indirect block is there, or a block is taken for it. -/
theorem openDouble_cases (env : Env) (ino : Int) (s : FS) :
    OkUnless .noReturn (openDouble env ino s) fun r =>
      0 ≤ refs s (ino, .double) ∧ r = (blockRead s.disk (refs s (ino, .double)), s) ∨
      refs s (ino, .double) < 0 ∧ ∃ c t, Taken s c t ∧
        r = ((Block.ofFn env.junk).fillShorts 10 (-1),
          (t.setBlocks ino 11 c).write c ((Block.ofFn env.junk).fillShorts 10 (-1))) := by
  unfold openDouble
  split
  · rename_i hneg
    refine (getBlock_outcome s).bind ?_
    rintro ⟨c, t⟩ hc
    exact OkUnless.pure (Or.inr ⟨hneg, c, t, hc, rfl⟩)
  · rename_i hpos
    exact OkUnless.pure (Or.inl ⟨not_lt.mp hpos, rfl⟩)

/-- The block below it is there, or a block is taken for it. -/
theorem openSub_cases (ino : Int) (k : Nat) (buf : Block) (s : FS) :
    OkUnless .noReturn (openSub ino k buf s) fun r =>
      0 ≤ buf.short k ∧ r = (buf.short k, blockRead s.disk (buf.short k), s) ∨
      buf.short k < 0 ∧ ∃ c t, Taken s c t ∧
        r = (c, (buf.setShort k c).fillShorts 100 (-1),
          t.write (refs t (ino, .double)) (buf.setShort k c)) := by
  unfold openSub
  split
  · rename_i hneg
    refine (getBlock_outcome s).bind ?_
    rintro ⟨c, t⟩ hc
    exact OkUnless.pure (Or.inr ⟨hneg, c, t, hc, rfl⟩)
  · rename_i hpos
    exact OkUnless.pure (Or.inl ⟨not_lt.mp hpos, rfl⟩)

/-- A direct block is entered. -/
theorem refs_setBlocks_direct {v : Int} (hn : n < 10) (x : Int × Slot) :
    refs (s.setBlocks ino n v) x =
      Function.update (refs s) (ino, .direct (Fin.ofNat 10 n)) v x := by
  have hval : ((Fin.ofNat 10 n : Fin 10) : Nat) = n := by
    rw [Fin.val_ofNat, Nat.mod_eq_of_lt hn]
  obtain ⟨i, sl⟩ := x
  by_cases hi : i = ino
  · subst i
    cases sl with
    | direct l =>
        by_cases hl : l = Fin.ofNat 10 n
        · rw [hl, Function.update_self]
          simp only [refs, slotRef, FS.setBlocks_blocks_self, hval]
          exact Function.update_self _ _ _
        · have hl' : (l : Nat) ≠ n := fun heq => hl (Fin.ext (heq.trans hval.symm))
          have hne : (ino, Slot.direct l) ≠ (ino, Slot.direct (Fin.ofNat 10 n)) := fun heq => by
            rw [Prod.mk.injEq, Slot.direct.injEq] at heq
            exact hl heq.2
          rw [Function.update_of_ne hne]
          simp only [refs, slotRef, FS.setBlocks_blocks_self]
          exact Function.update_of_ne (by omega) _ _
    | single | double | sdata _ | sub _ | ddata _ _ =>
        rw [Function.update_of_ne (by simp)]
        simp only [refs, slotRef, FS.setBlocks_blocks_self, FS.setBlocks_disk]
        rw [Function.update_of_ne (by omega)]
  · rw [Function.update_of_ne (by simp [hi])]
    simp only [refs, FS.setBlocks_disk]
    rw [FS.setBlocks_inodeTable_ne _ _ _ _ hi]

/-- The held block goes into its slot. -/
theorem Books.place {t : FS} (h : Books strict A held s) (hino : ino ∈ A) (hb : b ∈ held)
    {sl : Slot} (hempty : strict → refs s (ino, sl) < 0) (hmark : marked t = marked s)
    (hrefs : ∀ x, x.1 ∈ A → refs t x = Function.update (refs s) (ino, sl) b x) :
    Books strict A (held \ {b}) t := by
  have hled := Ledger.place h hb (x := (ino, sl)) hino hempty
  unfold Books
  rw [hmark]
  exact hled.congr hrefs

/-- The marks depend on `disk_blocks` only. -/
theorem marked_congr {t : FS} (h : t.diskBlocks = s.diskBlocks) : marked t = marked s := by
  unfold marked
  rw [h]

/-- A free block goes into an empty index slot, and the held block behind it. -/
theorem Books.place_open {t u : FS} {c : Int} {p sl : Slot} (h : Books strict A held s)
    (hino : ino ∈ A) (hb : b ∈ held) (hc : Taken s c u) (hneg : refs s (ino, p) < 0)
    (hsl : p ≠ sl) (hempty : strict → refs s (ino, sl) < 0)
    (hmark : marked t = marked u)
    (hrefs : ∀ x, x.1 ∈ A → refs t x =
      Function.update (Function.update (refs s) (ino, p) c) (ino, sl) b x) :
    Books strict A (held \ {b}) t := by
  have hbc : b ≠ c := by
    rintro rfl
    exact not_mem_marked hc.free (h.held_used b hb)
  have hcheld : c ∉ held := fun hmem => not_mem_marked hc.free (h.held_used c hmem)
  have htake := h.take hc
  have hopen := Ledger.place htake (Set.mem_insert c held) (x := (ino, p)) hino
    (fun _ => by rw [hc.state]; exact hneg)
  have hput := Ledger.place hopen (b := b) ⟨Set.mem_insert_of_mem c hb, hbc⟩
    (x := (ino, sl)) hino (fun hs => by
      rw [Function.update_of_ne (by simp [Ne.symm hsl]), hc.state]
      exact hempty hs)
  have hheld : (insert c held \ {c}) \ {b} = held \ {b} := by
    rw [Set.insert_sdiff_self_of_notMem hcheld]
  rw [hheld] at hput
  unfold Books
  rw [hmark]
  refine hput.congr fun x hx => ?_
  rw [hrefs x hx, hc.state]
  rfl

/-- A data slot is no index slot. -/
theorem OwnsIndex.place {t : FS} (h : OwnsIndex A s) (hmark : marked t = marked s)
    (hrefs : ∀ x, x.1 ∈ A → refs t x = Function.update (refs s) (ino, dataSlot n) b x) :
    OwnsIndex A t := by
  unfold OwnsIndex
  rw [hmark]
  apply h.congr
  intro x hx
  rw [hrefs x hx.1, Function.update_of_ne]
  intro heq
  have hidx := hx.2
  rw [heq, isIndex_dataSlot] at hidx
  cases hidx

/-- A free block goes into an empty index slot. -/
theorem OwnsIndex.open {t u : FS} {c : Int} {p : Slot} (h : OwnsIndex A s) (hino : ino ∈ A)
    (hp : p.isIndex = true) (hc : Taken s c u) (hmark : marked t = marked u)
    (hrefs : ∀ x ∈ indexSlots A, refs t x = Function.update (refs s) (ino, p) c x) :
    OwnsIndex A t := by
  have htake := Ledger.take h hc.nonneg (not_mem_marked hc.free)
  rw [← marked_setUsed hc.nonneg hc.lt, ← hc.state] at htake
  have hopen := htake.place (Set.mem_insert c ∅) (x := (ino, p)) ⟨hino, hp⟩ False.elim
  unfold OwnsIndex
  rw [hmark]
  exact (hopen.weaken (Set.empty_subset _)).congr hrefs

/-- A free block goes into an empty index slot, and a block number behind it. -/
theorem OwnsIndex.place_open {t u : FS} {c : Int} {p : Slot} (h : OwnsIndex A s)
    (hino : ino ∈ A) (hp : p.isIndex = true) (hc : Taken s c u) (hmark : marked t = marked u)
    (hrefs : ∀ x, x.1 ∈ A → refs t x =
      Function.update (Function.update (refs s) (ino, p) c) (ino, dataSlot n) b x) :
    OwnsIndex A t := by
  apply h.open hino hp hc hmark
  intro x hx
  rw [hrefs x hx.1, Function.update_of_ne]
  intro heq
  have hidx := hx.2
  rw [heq, isIndex_dataSlot] at hidx
  cases hidx

/-- `set_block_index` on a direct block. -/
theorem setBlockIndex_direct (h : OwnsIndex A s) (hino : ino ∈ A) (hn : n < 10) :
    Inserted A s (s.setBlocks ino n b) ino n b := by
  have hslot : dataSlot n = .direct (Fin.ofNat 10 n) := if_pos hn
  have hpath : indexPath n = [] := if_pos hn
  have hrefs : ∀ x : Int × Slot, x.1 ∈ A → refs (s.setBlocks ino n b) x =
      Function.update (refs s) (ino, dataSlot n) b x := fun x _ => by
    rw [hslot]
    exact refs_setBlocks_direct hn x
  refine ⟨placed_of_update hino (keeps_setBlocks s ino n b) (fun j hj => ?_) hrefs
    (by simp [hpath]) rfl (fun _ _ => rfl), h.place rfl hrefs,
    fun _ _ hbooks hb hempty => hbooks.place hino hb hempty rfl hrefs⟩
  rw [FS.setBlocks_inodeTable_ne _ _ _ _ hj]

/-- `set_block_index` on a block behind `blocks[10]`. -/
theorem setBlockIndex_single (h : OwnsIndex A s) (hino : ino ∈ A) (h₁ : ¬ n < 10)
    (h₂ : n < 110) (hb₀ : -32768 ≤ b) (hb₁ : b < 32768) :
    OkUnless .noReturn (do
        let (buf, s) ← openSingle ino s
        return s.write ((s.inodeTable ino).blocks 10)
          (buf.setShort (Fin.ofNat 100 (n - 10) : Fin 100) b))
      fun t => Inserted A s t ino n b := by
  have hslot : dataSlot n = .sdata (Fin.ofNat 100 (n - 10)) := by
    rw [dataSlot, if_neg h₁, if_pos h₂]
  have hpath : indexPath n = [.single] := by rw [indexPath, if_neg h₁, if_pos h₂]
  refine (openSingle_cases ino s).bind ?_
  rintro ⟨buf, u⟩ (⟨hpos, heq⟩ | ⟨hneg, c, t, hc, heq⟩) <;> cases heq
  · have hrefs : ∀ x : Int × Slot, x.1 ∈ A → refs _ x =
        Function.update (refs s) (ino, dataSlot n) b x := fun x hx => by
      rw [hslot]
      exact h.refs_write_sdata hino hpos hb₀ hb₁ (Fin.ofNat 100 (n - 10)) hx
    refine OkUnless.pure ⟨placed_of_update hino (keeps_write _ _ _) (fun _ _ => rfl) hrefs
      (by simpa [hpath] using hpos) rfl (fun c hc => ?_), h.place rfl hrefs,
      fun _ _ hbooks hb hempty => hbooks.place hino hb hempty rfl hrefs⟩
    have hne : refs s (ino, .single) ≠ c := hc .single (by simp [hpath])
    exact Function.update_of_ne (Ne.symm hne) _ _
  · have hself : ((t.setBlocks ino 10 c).inodeTable ino).blocks 10 = c := by simp
    dsimp only
    rw [hself]
    have hrefs : ∀ x : Int × Slot, x.1 ∈ A → refs _ x = Function.update
        (Function.update (refs s) (ino, .single) c) (ino, dataSlot n) b x := fun x hx => by
      rw [hslot]
      exact h.refs_open_sdata (blockRead t.disk c) hneg hc hb₀ hb₁
        (Fin.ofNat 100 (n - 10)) hx
    refine OkUnless.pure ⟨placed_of_open (p := .single) hino (by simp [hpath]) ?_ ?_ hneg hc
      hrefs (by simp [hpath]) ?_ ?_, h.place_open hino rfl hc (marked_congr rfl) hrefs,
      fun _ _ hbooks hb hempty => hbooks.place_open hino hb hc hneg (by simp [hslot]) hempty
        (marked_congr rfl) hrefs⟩
    · exact (hc.keeps.trans (keeps_setBlocks t ino 10 c)).trans (keeps_write _ _ _)
    · intro j hj
      rw [FS.write_inodeTable, FS.setBlocks_inodeTable_ne _ _ _ _ hj, hc.state,
        FS.setUsed_inodeTable]
    · rw [FS.write_diskBlocks, FS.setBlocks_diskBlocks, hc.state, FS.setUsed_diskBlocks]
    · intro c' hne _
      rw [FS.write_disk, FS.setBlocks_disk, hc.state, FS.setUsed_disk]
      exact Function.update_of_ne hne _ _

/-- `set_block_index` behind `blocks[11]`, once that block is there. -/
theorem setBlockIndex_sub (h : OwnsIndex A s) (hino : ino ∈ A) (h₂ : ¬ n < 110)
    (hdouble : 0 ≤ refs s (ino, .double)) (hb₀ : -32768 ≤ b) (hb₁ : b < 32768) :
    OkUnless .noReturn (do
        let (subIndex, buf, s) ← openSub ino (Fin.ofNat 10 ((n - 110) / 100) : Fin 10)
          (blockRead s.disk (refs s (ino, .double))) s
        return s.write subIndex (buf.setShort (Fin.ofNat 100 (n - 110) : Fin 100) b))
      fun t => Inserted A s t ino n b := by
  generalize hj : Fin.ofNat 10 ((n - 110) / 100) = j
  have hslot : dataSlot n = .ddata j (Fin.ofNat 100 (n - 110)) := by
    rw [dataSlot, if_neg (by omega), if_neg h₂, hj]
  have hpath : indexPath n = [.double, .sub j] := by
    rw [indexPath, if_neg (by omega), if_neg h₂, hj]
  have hsub : refs s (ino, .sub j) = (blockRead s.disk (refs s (ino, .double))).short j :=
    entry_nonneg j hdouble
  refine (openSub_cases ino j _ s).bind ?_
  rintro r (⟨hpos, rfl⟩ | ⟨hneg, c, t, hc, rfl⟩)
  · rw [← hsub] at hpos ⊢
    have hrefs : ∀ x : Int × Slot, x.1 ∈ A → refs _ x =
        Function.update (refs s) (ino, dataSlot n) b x := fun x hx => by
      rw [hslot]
      exact h.refs_write_ddata hino j hpos hb₀ hb₁ (Fin.ofNat 100 (n - 110)) hx
    refine OkUnless.pure ⟨placed_of_update hino (keeps_write _ _ _) (fun _ _ => rfl) hrefs
      ?_ rfl (fun c hc => ?_), h.place rfl hrefs,
      fun _ _ hbooks hb hempty => hbooks.place hino hb hempty rfl hrefs⟩
    · intro p hp
      rw [hpath] at hp
      rcases List.mem_cons.mp hp with rfl | hp
      · exact hdouble
      · rw [List.mem_singleton.mp hp]
        exact hpos
    · have hne : refs s (ino, .sub j) ≠ c := hc (.sub j) (by simp [hpath])
      exact Function.update_of_ne (Ne.symm hne) _ _
  · rw [← hsub] at hneg
    have htdouble : refs t (ino, .double) = refs s (ino, .double) := by rw [hc.state]; rfl
    rw [htdouble]
    have hrefs : ∀ x : Int × Slot, x.1 ∈ A → refs _ x = Function.update
        (Function.update (refs s) (ino, .sub j) c) (ino, dataSlot n) b x := fun x hx => by
      rw [hslot]
      exact h.refs_open_ddata ((blockRead s.disk (refs s (ino, .double))).setShort j c)
        hino hdouble j hneg hc hb₀ hb₁ (Fin.ofNat 100 (n - 110)) hx
    refine OkUnless.pure ⟨placed_of_open (p := .sub j) hino (by simp [hpath]) ?_ ?_ hneg hc
      hrefs ?_ ?_ ?_, h.place_open hino rfl hc (marked_congr rfl) hrefs,
      fun _ _ hbooks hb hempty => hbooks.place_open hino hb hc hneg (by simp [hslot]) hempty
        (marked_congr rfl) hrefs⟩
    · exact (hc.keeps.trans (keeps_write t _ _)).trans (keeps_write _ _ _)
    · intro i hi
      rw [FS.write_inodeTable, FS.write_inodeTable, hc.state, FS.setUsed_inodeTable]
    · intro q hq hne
      rw [hpath] at hq
      rcases List.mem_cons.mp hq with rfl | hq
      · exact hdouble
      · exact absurd (List.mem_singleton.mp hq) hne
    · rw [FS.write_diskBlocks, FS.write_diskBlocks, hc.state, FS.setUsed_diskBlocks]
    · intro c' hne hq
      have hd := hq .double (by simp [hpath]) (by simp)
      simp only [FS.write_disk]
      rw [hc.state, FS.setUsed_disk]
      unfold blockWrite
      simp only [Function.update_of_ne hne, Function.update_of_ne (Ne.symm hd)]

/-- **`set_block_index` enters the block number**, and owns the index blocks it is reached
through. -/
theorem setBlockIndex_inserted (env : Env) (h : OwnsIndex A s) (hino : ino ∈ A)
    (hn : n < 1110) (hb₀ : -32768 ≤ b) (hb₁ : b < 32768) :
    OkUnless .noReturn (setBlockIndex env ino n b s) fun t => Inserted A s t ino n b := by
  unfold setBlockIndex
  by_cases h₁ : n < 10
  · rw [if_pos (show (n : Int) < 10 by omega)]
    exact OkUnless.pure (setBlockIndex_direct h hino h₁)
  rw [if_neg (show ¬ (n : Int) < 10 by omega)]
  by_cases h₂ : n < 110
  · rw [if_pos (show (n : Int) < 110 by omega)]
    have hk : ((n : Int) - 10).toNat = ((Fin.ofNat 100 (n - 10) : Fin 100) : Nat) := by
      rw [Fin.val_ofNat]
      omega
    rw [hk]
    exact setBlockIndex_single h hino h₁ h₂ hb₀ hb₁
  rw [if_neg (show ¬ (n : Int) < 110 by omega), if_pos (show (n : Int) ≤ 1110 by omega)]
  have hj : (((n : Int) - 110) / 100).toNat =
      ((Fin.ofNat 10 ((n - 110) / 100) : Fin 10) : Nat) := by
    rw [Fin.val_ofNat]
    omega
  have hk : (((n : Int) - 110) % 100).toNat =
      ((Fin.ofNat 100 (n - 110) : Fin 100) : Nat) := by
    rw [Fin.val_ofNat]
    omega
  rw [hj, hk]
  refine (openDouble_cases env ino s).bind ?_
  rintro ⟨buf, u⟩ (⟨hpos, heq⟩ | ⟨hneg, c, t, hc, heq⟩) <;> cases heq
  · exact setBlockIndex_sub h hino h₂ hpos hb₀ hb₁
  · have hslot : dataSlot n ≠ .double := by
      rw [dataSlot, if_neg h₁, if_neg h₂]
      simp
    have hmem : Slot.double ∈ indexPath n := by
      rw [indexPath, if_neg h₁, if_neg h₂]
      simp
    generalize hu : (t.setBlocks ino 11 c).write c ((Block.ofFn env.junk).fillShorts 10 (-1)) = u
    have hrefs : ∀ x : Int × Slot, x.1 ∈ A → refs u x =
        Function.update (refs s) (ino, .double) c x := fun x hx => by
      rw [← hu]
      exact h.refs_open_double (Block.ofFn env.junk) hneg hc hx
    have hopens : Opens A s u ino .double c := by
      refine ⟨?_, fun i hi => ?_, hneg, ⟨hc.nonneg, hc.lt⟩, hc.free, hrefs, fun c' hc' => ?_,
        fun c' hc' => ?_⟩
      · rw [← hu]
        exact (hc.keeps.trans (keeps_setBlocks t ino 11 c)).trans (keeps_write _ _ _)
      · rw [← hu, FS.write_inodeTable, FS.setBlocks_inodeTable_ne _ _ _ _ hi, hc.state,
          FS.setUsed_inodeTable]
      · have hne : c' ≠ c := by
          rintro rfl
          exact hc' hc.free
        rw [← hu, FS.write_diskBlocks, FS.setBlocks_diskBlocks, hc.state,
          FS.setUsed_diskBlocks, Function.update_of_ne hne]
      · rw [← hu]
        simp only [FS.write_disk, FS.setBlocks_disk]
        rw [hc.state, FS.setUsed_disk]
        exact Function.update_of_ne hc' _ _
    have hmark : marked u = marked t := by
      rw [← hu]
      exact marked_congr rfl
    have howns : OwnsIndex A u := h.open hino rfl hc hmark fun x hx => hrefs x hx.1
    have hself : refs u (ino, .double) = c := by
      rw [hrefs (ino, .double) hino, Function.update_self]
    have hbuf : blockRead u.disk (refs u (ino, .double)) =
        (Block.ofFn env.junk).fillShorts 10 (-1) := by
      rw [hself, ← hu]
      exact blockRead_write_self hc.lt
    have hdata : refs u (ino, dataSlot n) = refs s (ino, dataSlot n) := by
      rw [hrefs (ino, dataSlot n) hino, Function.update_of_ne (by simp [hslot])]
    have hnext := setBlockIndex_sub (n := n) howns hino h₂ (by rw [hself]; exact hc.nonneg) hb₀ hb₁
    rw [hbuf] at hnext
    refine hnext.imp fun v hv => ⟨hopens.placed hino hmem hv.placed, hv.owns, ?_⟩
    intro strict held hbooks hb hempty
    apply hv.books strict held _ hb fun hs => by rw [hdata]; exact hempty hs
    have hcheld : c ∉ held := fun hmem => not_mem_marked hc.free (hbooks.held_used c hmem)
    have hopen := Ledger.place (hbooks.take hc) (Set.mem_insert c held) (x := (ino, .double))
      hino (fun _ => by rw [hc.state]; exact hneg)
    rw [Set.insert_sdiff_self_of_notMem hcheld] at hopen
    unfold Books
    rw [hmark]
    apply hopen.congr
    intro x hx
    rw [hrefs x hx, hc.state]
    rfl

/-- **`set_block_index` enters the block and keeps the books.** -/
theorem setBlockIndex_spec (env : Env) (h : Books strict A held s) (hino : ino ∈ A)
    (hn : n < 1110) (hb : b ∈ held) (hempty : strict → refs s (ino, dataSlot n) < 0) :
    OkUnless .noReturn (setBlockIndex env ino n b s) fun t =>
      Placed A s t ino n b ∧ Books strict A (held \ {b}) t := by
  obtain ⟨hb₀, hb₁⟩ := h.bounds hb
  have henter := setBlockIndex_inserted env h.ownsIndex hino hn (b := b) (by omega) hb₁
  exact henter.imp fun t ht => ⟨ht.placed, ht.books strict held h hb hempty⟩

end Open

end Sfs
