import CS416.Sfs.Frames

/-!
# The name table is a tree

`name_table` lists the paths of all files.  The parent of a path is found by
cutting the string at its last slash, and the only record of how many children
a directory has is `st_nlink`.  `Tree` is the invariant that ties these
together; inserting a leaf and erasing one keep it.
-/

namespace Sfs

open CInt Search Outcome

/-- `p` is a name in the directory `q`. -/
def IsParent (q p : Path) : Prop :=
  q ≠ [] ∧ ∃ name, name ≠ [] ∧ slash ∉ name ∧
    p = (if q = [slash] then [] else q) ++ slash :: name

private theorem lastSlashFrom_none {i : Nat} {pos : Option Nat} {name : Path}
    (h : slash ∉ name) : lastSlashFrom i pos name = pos := by
  induction name generalizing i with
  | nil => rfl
  | cons c cs ih =>
      simp only [List.mem_cons, not_or] at h
      rw [lastSlashFrom, if_neg (Ne.symm h.1)]
      exact ih h.2

/-- The last slash stands before the last name. -/
theorem lastSlashFrom_append {i : Nat} {pos : Option Nat} {dir name : Path}
    (h : slash ∉ name) :
    lastSlashFrom i pos (dir ++ slash :: name) = some (i + dir.length) := by
  induction dir generalizing i pos with
  | nil => simp [lastSlashFrom, lastSlashFrom_none h]
  | cons c cs ih =>
      rw [List.cons_append, lastSlashFrom, ih, List.length_cons]
      congr 1
      omega

/-- The root has no parent. -/
theorem IsParent.ne_root {q p : Path} (h : IsParent q p) : p ≠ [slash] := by
  obtain ⟨_, name, hne, _, rfl⟩ := h
  intro heq
  have hlen := congrArg List.length heq
  simp only [List.length_append, List.length_cons, List.length_nil] at hlen
  exact hne (List.length_eq_zero_iff.mp (by omega))

/-- `get_cwd_path` finds the parent. -/
theorem IsParent.getCwdPath_eq {q p : Path} (h : IsParent q p) : getCwdPath p = q := by
  have hroot := h.ne_root
  obtain ⟨hq, name, hne, hslash, rfl⟩ := h
  unfold getCwdPath
  rw [if_neg hroot, lastSlash, lastSlashFrom_append hslash]
  by_cases hq' : q = [slash]
  · simp [hq']
  · have hlen : q.length ≠ 0 := fun h => hq (List.length_eq_zero_iff.mp h)
    obtain ⟨n, hn⟩ := Nat.exists_eq_succ_of_ne_zero hlen
    simp only [hq', if_false, Nat.zero_add, hn, Nat.succ_eq_add_one]
    rw [← Nat.succ_eq_add_one, ← hn]
    simp

/-- A path has one parent. -/
theorem IsParent.unique {q q' p : Path} (h : IsParent q p) (h' : IsParent q' p) :
    q = q' := h.getCwdPath_eq.symm.trans h'.getCwdPath_eq

/-- A path is not its own parent. -/
theorem IsParent.ne {q p : Path} (h : IsParent q p) : q ≠ p := by
  rintro rfl
  have hroot := h.ne_root
  obtain ⟨_, name, _, _, heq⟩ := h
  rw [if_neg hroot] at heq
  have hlen := congrArg List.length heq
  simp at hlen

/-- A path with a parent is not empty. -/
theorem IsParent.ne_nil {q p : Path} (h : IsParent q p) : p ≠ [] := by
  obtain ⟨_, name, _, _, rfl⟩ := h
  simp

/-- `m` is the number of an allocated entry of `name_table`. -/
def Entry (s : FS) (m : Int) : Prop :=
  0 ≤ m ∧ m < maxLink ∧ (s.nameTable m).avail = ALLOCD

instance (s : FS) (m : Int) : Decidable (Entry s m) :=
  inferInstanceAs (Decidable (_ ∧ _ ∧ _))

/-- The inode that entry `m` maps to. -/
def inoOf (s : FS) (m : Int) : Int := (s.nameTable m).stIno

def pathOf (s : FS) (m : Int) : Path := (s.nameTable m).path

def IsDir (s : FS) (m : Int) : Prop :=
  isDirMode (s.inodeTable (inoOf s m)).stat.stMode = true

instance (s : FS) (m : Int) : Decidable (IsDir s m) :=
  inferInstanceAs (Decidable (_ = true))

/-- The entries whose parent is the path `q`. -/
def children (s : FS) (q : Path) : Set Int := {m | Entry s m ∧ IsParent q (pathOf s m)}

/-- **The tree invariant.** -/
structure Tree (s : FS) : Prop where
  avail_name : ∀ m, 0 ≤ m → m < maxLink →
    (s.nameTable m).avail = FREE ∨ (s.nameTable m).avail = ALLOCD
  free_path : ∀ m, 0 ≤ m → m < maxLink → (s.nameTable m).avail = FREE → pathOf s m = []
  root : Entry s 0 ∧ pathOf s 0 = [slash] ∧ IsDir s 0
  path_ne : ∀ m, Entry s m → pathOf s m ≠ []
  path_inj : ∀ m n, Entry s m → Entry s n → pathOf s m = pathOf s n → m = n
  ino_range : ∀ m, Entry s m → 0 ≤ inoOf s m ∧ inoOf s m < maxNodes
  ino_avail : ∀ m, Entry s m → (s.inodeTable (inoOf s m)).avail = ALLOCD
  ino_inj : ∀ m n, Entry s m → Entry s n → inoOf s m = inoOf s n → m = n
  parent : ∀ m, Entry s m → pathOf s m ≠ [slash] →
    ∃ k, Entry s k ∧ IsDir s k ∧ IsParent (pathOf s k) (pathOf s m)
  nlink : ∀ m, Entry s m → IsDir s m →
    (s.inodeTable (inoOf s m)).stat.stNlink = 2 + (children s (pathOf s m)).ncard

private theorem children_subset (s : FS) (q : Path) : children s q ⊆ Set.Ico 0 maxLink :=
  fun _ h => ⟨h.1.1, h.1.2.1⟩

private theorem children_finite (s : FS) (q : Path) : (children s q).Finite :=
  (Set.finite_Ico 0 maxLink).subset (children_subset s q)

/-- A directory has at most as many children as the table has entries. -/
theorem children_ncard_le (s : FS) (q : Path) : (children s q).ncard ≤ 128 := by
  refine (Set.ncard_le_ncard (children_subset s q) (Set.finite_Ico 0 maxLink)).trans ?_
  rw [← Finset.coe_Ico, Set.ncard_coe_finset, Int.card_Ico]
  decide

/-- The first match of `path_lookup` is the only one. -/
theorem pathLookup_eq {s : FS} {m : Int} {p : Path} (h₀ : 0 ≤ m) (h₁ : m < maxLink)
    (hp : (s.nameTable m).path = p)
    (huniq : ∀ j, 0 ≤ j → j < maxLink → (s.nameTable j).path = p → j = m) :
    pathLookup s p = m := by
  have hfind : findFrom (fun i => (s.nameTable i).path = p) maxLink.toNat 0 = some m := by
    refine findFrom_eq_some h₀ (by simpa using h₁) (by simpa using hp) ?_
    intro j hj hjm
    have hne : (s.nameTable j).path ≠ p := fun hjp =>
      absurd (huniq j hj (by omega) hjp) (by omega)
    simpa using hne
  rw [pathLookup, hfind, Option.getD_some]

/-- What `path_lookup` finds has the path. -/
theorem pathLookup_spec {s : FS} {p : Path} (h : 0 ≤ pathLookup s p) :
    pathLookup s p < maxLink ∧ (s.nameTable (pathLookup s p)).path = p := by
  unfold pathLookup at h ⊢
  cases hfind : findFrom (fun i => (s.nameTable i).path = p) maxLink.toNat 0 with
  | none => simp [hfind] at h
  | some k =>
      obtain ⟨_, hlt, hp, _⟩ := findFrom_some hfind
      exact ⟨by simpa using hlt, by simpa using hp⟩

/-- A path that is not found is in no entry. -/
theorem pathLookup_none {s : FS} {p : Path} (h : pathLookup s p < 0) {m : Int}
    (h₀ : 0 ≤ m) (h₁ : m < maxLink) : (s.nameTable m).path ≠ p := by
  unfold pathLookup at h
  cases hfind : findFrom (fun i => (s.nameTable i).path = p) maxLink.toNat 0 with
  | none => simpa using findFrom_none hfind m h₀ (by simpa using h₁)
  | some k =>
      obtain ⟨h₂, _, _, _⟩ := findFrom_some hfind
      rw [hfind, Option.getD_some] at h
      omega

/-- The same names, on inodes that look the same to the tree. -/
structure SameTree (s t : FS) : Prop where
  names : t.nameTable = s.nameTable
  node : ∀ m, Entry s m →
    (t.inodeTable (inoOf s m)).avail = (s.inodeTable (inoOf s m)).avail ∧
    (t.inodeTable (inoOf s m)).stat.stMode = (s.inodeTable (inoOf s m)).stat.stMode ∧
    (t.inodeTable (inoOf s m)).stat.stNlink = (s.inodeTable (inoOf s m)).stat.stNlink

/-- The tree does not depend on sizes. -/
theorem Relinks.sameTree {s t : FS} {i : Int} (h : Relinks s t i id) : SameTree s t := by
  refine ⟨h.names, fun m _ => ⟨h.avail _, h.mode _, ?_⟩⟩
  by_cases hm : inoOf s m = i
  · rw [hm]
    exact h.nlink
  · exact h.nlink_ne _ hm

namespace Tree

variable {s t : FS} {m n i k : Int} {path : Path}

/-- An entry with a path is in use. -/
theorem entry_of_path (h : Tree s) (h₀ : 0 ≤ m) (h₁ : m < maxLink)
    (hp : pathOf s m ≠ []) : Entry s m := by
  rcases h.avail_name m h₀ h₁ with hf | ha
  · exact absurd (h.free_path m h₀ h₁ hf) hp
  · exact ⟨h₀, h₁, ha⟩

/-- `path_lookup` inverts `pathOf`. -/
theorem lookup (h : Tree s) (hm : Entry s m) : pathLookup s (pathOf s m) = m := by
  refine pathLookup_eq hm.1 hm.2.1 rfl ?_
  intro j h₀ h₁ hj
  have hj' : Entry s j := h.entry_of_path h₀ h₁ (by
    unfold pathOf
    rw [hj]
    exact h.path_ne m hm)
  exact h.path_inj j m hj' hm hj

/-- Looking a nonempty path up finds an entry or nothing. -/
theorem lookup_entry (h : Tree s) (hp : path ≠ []) (hl : 0 ≤ pathLookup s path) :
    Entry s (pathLookup s path) ∧ pathOf s (pathLookup s path) = path := by
  obtain ⟨hlt, heq⟩ := pathLookup_spec hl
  exact ⟨h.entry_of_path hl hlt (by rw [pathOf, heq]; exact hp), heq⟩

/-- The link count of a directory is small. -/
theorem nlink_bounds (h : Tree s) (hm : Entry s m) (hd : IsDir s m) :
    2 ≤ (s.inodeTable (inoOf s m)).stat.stNlink ∧
      (s.inodeTable (inoOf s m)).stat.stNlink ≤ 130 := by
  have hcard := children_ncard_le s (pathOf s m)
  rw [h.nlink m hm hd]
  omega

/-- A child takes the link count of its parent beyond 2. -/
theorem nlink_of_child (h : Tree s) (hk : Entry s k) (hd : IsDir s k) (hm : Entry s m)
    (hp : IsParent (pathOf s k) (pathOf s m)) :
    2 < (s.inodeTable (inoOf s k)).stat.stNlink := by
  have hpos : 0 < (children s (pathOf s k)).ncard :=
    (Set.ncard_pos (children_finite s _)).mpr ⟨m, hm, hp⟩
  rw [h.nlink k hk hd]
  omega

/-- **The emptiness test is exact.** -/
theorem nlink_iff (h : Tree s) (hk : Entry s k) (hd : IsDir s k) :
    2 < (s.inodeTable (inoOf s k)).stat.stNlink ↔
      ∃ m, Entry s m ∧ IsParent (pathOf s k) (pathOf s m) := by
  constructor
  · intro hlt
    rw [h.nlink k hk hd] at hlt
    have hpos : 0 < (children s (pathOf s k)).ncard := by omega
    exact (Set.ncard_pos (children_finite s _)).mp hpos
  · rintro ⟨m, hm, hp⟩
    exact h.nlink_of_child hk hd hm hp

/-- The tree sees the names, and of the inodes with a name the flag, the type
and the link count. -/
theorem congr (h : Tree s) (hsame : SameTree s t) : Tree t := by
  obtain ⟨hnames, hnode⟩ := hsame
  have hentry : ∀ m, Entry t m ↔ Entry s m := fun m => by simp [Entry, hnames]
  have hpath : ∀ m, pathOf t m = pathOf s m := fun m => by simp [pathOf, hnames]
  have hino : ∀ m, inoOf t m = inoOf s m := fun m => by simp [inoOf, hnames]
  have hdir : ∀ m, Entry s m → (IsDir t m ↔ IsDir s m) := fun m hm => by
    rw [IsDir, IsDir, hino, (hnode m hm).2.1]
  have hchild : ∀ q, children t q = children s q := fun q => by
    ext m
    simp [children, hentry, hpath]
  constructor
  case avail_name => simpa only [hnames] using h.avail_name
  case free_path => simpa only [hnames, hpath] using h.free_path
  case root =>
    exact ⟨(hentry 0).mpr h.root.1, (hpath 0).trans h.root.2.1,
      (hdir 0 h.root.1).mpr h.root.2.2⟩
  case path_ne => simpa only [hentry, hpath] using h.path_ne
  case path_inj => simpa only [hentry, hpath] using h.path_inj
  case ino_range => simpa only [hentry, hino] using h.ino_range
  case ino_avail =>
    intro m hm
    rw [hino, (hnode m ((hentry m).mp hm)).1]
    exact h.ino_avail m ((hentry m).mp hm)
  case ino_inj => simpa only [hentry, hino] using h.ino_inj
  case parent =>
    intro m hm hne
    rw [hpath] at hne
    obtain ⟨k, hk, hkd, hkp⟩ := h.parent m ((hentry m).mp hm) hne
    refine ⟨k, (hentry k).mpr hk, (hdir k hk).mpr hkd, ?_⟩
    rw [hpath, hpath]
    exact hkp
  case nlink =>
    intro m hm hd
    have hm' := (hentry m).mp hm
    rw [hino, hpath, hchild, (hnode m hm').2.2, h.nlink m hm' ((hdir m hm').mp hd)]

/-- What a call that enters the leaf `path` changes: entry `m` and inode `i`
were free, and the link count of the parent, entry `k`, goes up. -/
structure Inserts (s t : FS) (m i k : Int) (path : Path) : Prop where
  slot : 0 ≤ m ∧ m < maxLink ∧ (s.nameTable m).avail = FREE
  node : 0 ≤ i ∧ i < maxNodes ∧ (s.inodeTable i).avail = FREE
  parent : Entry s k ∧ IsDir s k ∧ IsParent (pathOf s k) path
  fresh : ∀ j, Entry s j → pathOf s j ≠ path
  names : t.nameTable = Function.update s.nameTable m ⟨ALLOCD, i, path⟩
  avail : (t.inodeTable i).avail = ALLOCD
  avail_ne : ∀ j, j ≠ i → (t.inodeTable j).avail = (s.inodeTable j).avail
  mode_ne : ∀ j, j ≠ i → (t.inodeTable j).stat.stMode = (s.inodeTable j).stat.stMode
  nlink_dir : isDirMode (t.inodeTable i).stat.stMode = true →
    (t.inodeTable i).stat.stNlink = 2
  nlink_parent : (t.inodeTable (inoOf s k)).stat.stNlink =
    (s.inodeTable (inoOf s k)).stat.stNlink + 1
  nlink_ne : ∀ j, j ≠ i → j ≠ inoOf s k →
    (t.inodeTable j).stat.stNlink = (s.inodeTable j).stat.stNlink

/-- A leaf below `path` would need `path` in the table. -/
theorem no_children (h : Tree s)
    (hnew : ∀ j, Entry s j → pathOf s j ≠ path) : children s path = ∅ := by
  rw [Set.eq_empty_iff_forall_notMem]
  rintro j ⟨hj, hp⟩
  obtain ⟨k, hk, _, hkp⟩ := h.parent j hj hp.ne_root
  exact hnew k hk (hkp.unique hp)

section Insert

variable (h : Tree s) (hins : Inserts s t m i k path)

include hins in
/-- There is one entry more. -/
theorem inserts_entry (j : Int) : Entry t j ↔ j = m ∨ Entry s j := by
  by_cases hj : j = m
  · subst j
    simp [Entry, hins.names, hins.slot.1, hins.slot.2.1]
  · simp [Entry, hins.names, hj]

include hins in
/-- The others have the same paths and inodes. -/
theorem inserts_old {j : Int} (hj : Entry s j) :
    j ≠ m ∧ pathOf t j = pathOf s j ∧ inoOf t j = inoOf s j := by
  have hne : j ≠ m := by
    rintro rfl
    have hfree := hins.slot.2.2
    rw [hj.2.2] at hfree
    exact absurd hfree (by decide)
  simp [pathOf, inoOf, hins.names, hne]

include h hins in
private theorem inserts_ino_ne {j : Int} (hj : Entry s j) : inoOf s j ≠ i := by
  rintro rfl
  have hfree := hins.node.2.2
  rw [h.ino_avail j hj] at hfree
  exact absurd hfree (by decide)

include h hins in
/-- The others are directories as before. -/
theorem inserts_isDir {j : Int} (hj : Entry s j) : IsDir t j ↔ IsDir s j := by
  obtain ⟨_, _, hino⟩ := inserts_old hins hj
  rw [IsDir, IsDir, hino, hins.mode_ne _ (inserts_ino_ne h hins hj)]

include hins in
private theorem inserts_mem_children (q : Path) (j : Int) :
    j ∈ children t q ↔ j = m ∧ IsParent q path ∨ j ∈ children s q := by
  have hpm : pathOf t m = path := by simp [pathOf, hins.names]
  by_cases hj : Entry s j
  · obtain ⟨hne, hpj, _⟩ := inserts_old hins hj
    simp [children, inserts_entry hins, hj, hne, hpj]
  · by_cases hjm : j = m
    · subst j
      simp [children, inserts_entry hins, hj, hpm]
    · simp [children, inserts_entry hins, hj, hjm]

include hins in
/-- The parent has one child more. -/
theorem inserts_children_parent {q : Path} (hq : IsParent q path) :
    children t q = insert m (children s q) := by
  ext j
  simp [inserts_mem_children hins, hq]

include hins in
/-- The others have the same children. -/
theorem inserts_children_other {q : Path} (hq : ¬ IsParent q path) :
    children t q = children s q := by
  ext j
  simp [inserts_mem_children hins, hq]

include h hins in
/-- **Inserting a leaf keeps the tree.** -/
theorem insert : Tree t := by
  obtain ⟨hk, hkd, hkp⟩ := hins.parent
  have hpm : pathOf t m = path := by simp [pathOf, hins.names]
  have him : inoOf t m = i := by simp [inoOf, hins.names]
  have hentry := inserts_entry hins
  constructor
  case avail_name =>
    intro j h₀ h₁
    by_cases hj : j = m
    · subst j
      simp [hins.names]
    · simpa [hins.names, hj] using h.avail_name j h₀ h₁
  case free_path =>
    intro j h₀ h₁ hf
    have hj : j ≠ m := by
      rintro rfl
      simp [hins.names] at hf
    simp only [hins.names, Function.update_of_ne hj] at hf
    simpa [pathOf, hins.names, hj] using h.free_path j h₀ h₁ hf
  case root =>
    have hpath := (inserts_old hins h.root.1).2.1
    exact ⟨(hentry 0).mpr (Or.inr h.root.1), hpath.trans h.root.2.1,
      (inserts_isDir h hins h.root.1).mpr h.root.2.2⟩
  case path_ne =>
    intro j hj
    rcases (hentry j).mp hj with rfl | hj
    · rw [hpm]
      exact hkp.ne_nil
    · rw [(inserts_old hins hj).2.1]
      exact h.path_ne j hj
  case path_inj =>
    intro j l hj hl heq
    rcases (hentry j).mp hj with rfl | hj <;> rcases (hentry l).mp hl with rfl | hl
    · rfl
    · rw [hpm, (inserts_old hins hl).2.1] at heq
      exact absurd heq.symm (hins.fresh l hl)
    · rw [hpm, (inserts_old hins hj).2.1] at heq
      exact absurd heq (hins.fresh j hj)
    · rw [(inserts_old hins hj).2.1, (inserts_old hins hl).2.1] at heq
      exact h.path_inj j l hj hl heq
  case ino_range =>
    intro j hj
    rcases (hentry j).mp hj with rfl | hj
    · rw [him]
      exact ⟨hins.node.1, hins.node.2.1⟩
    · rw [(inserts_old hins hj).2.2]
      exact h.ino_range j hj
  case ino_avail =>
    intro j hj
    rcases (hentry j).mp hj with rfl | hj
    · rw [him]
      exact hins.avail
    · rw [(inserts_old hins hj).2.2, hins.avail_ne _ (inserts_ino_ne h hins hj)]
      exact h.ino_avail j hj
  case ino_inj =>
    intro j l hj hl heq
    rcases (hentry j).mp hj with rfl | hj <;> rcases (hentry l).mp hl with rfl | hl
    · rfl
    · rw [him, (inserts_old hins hl).2.2] at heq
      exact absurd heq.symm (inserts_ino_ne h hins hl)
    · rw [him, (inserts_old hins hj).2.2] at heq
      exact absurd heq (inserts_ino_ne h hins hj)
    · rw [(inserts_old hins hj).2.2, (inserts_old hins hl).2.2] at heq
      exact h.ino_inj j l hj hl heq
  case parent =>
    intro j hj hne
    rcases (hentry j).mp hj with rfl | hj
    · refine ⟨k, (hentry k).mpr (Or.inr hk), (inserts_isDir h hins hk).mpr hkd, ?_⟩
      rw [hpm, (inserts_old hins hk).2.1]
      exact hkp
    · have hpj := (inserts_old hins hj).2.1
      obtain ⟨l, hl, hld, hlp⟩ := h.parent j hj (hpj ▸ hne)
      refine ⟨l, (hentry l).mpr (Or.inr hl), (inserts_isDir h hins hl).mpr hld, ?_⟩
      rw [hpj, (inserts_old hins hl).2.1]
      exact hlp
  case nlink =>
    intro j hj hd
    rcases (hentry j).mp hj with rfl | hj
    · -- the new leaf has no children yet
      have hnone : children t path = ∅ := by
        rw [inserts_children_other hins (fun hp : IsParent path path => hp.ne rfl),
          no_children h hins.fresh]
      rw [hpm, hnone, him, hins.nlink_dir (by simpa [IsDir, him] using hd)]
      simp
    · obtain ⟨_, hpj, hij⟩ := inserts_old hins hj
      have hold := h.nlink j hj ((inserts_isDir h hins hj).mp hd)
      rw [hpj, hij]
      by_cases hjk : j = k
      · subst j
        have hnot : m ∉ children s (pathOf s k) := fun hmem =>
          (inserts_old hins hmem.1).1 rfl
        rw [inserts_children_parent hins hkp, Set.ncard_insert_of_notMem hnot (children_finite s _),
          hins.nlink_parent, hold]
        push_cast
        ring
      · have hnp : ¬ IsParent (pathOf s j) path := fun hp =>
          hjk (h.path_inj j k hj hk (hp.unique hkp))
        rw [inserts_children_other hins hnp, hins.nlink_ne _ (inserts_ino_ne h hins hj)
          (fun heq => hjk (h.ino_inj j k hj hk heq)), hold]

end Insert

/-- What a call that deletes the leaf at entry `m` changes. -/
structure Erases (s t : FS) (m k : Int) : Prop where
  entry : Entry s m
  parent : Entry s k ∧ IsDir s k ∧ IsParent (pathOf s k) (pathOf s m)
  leaf : children s (pathOf s m) = ∅
  names : t.nameTable = Function.update s.nameTable m ⟨FREE, -1, []⟩
  avail_ne : ∀ j, j ≠ inoOf s m → (t.inodeTable j).avail = (s.inodeTable j).avail
  mode_ne : ∀ j, j ≠ inoOf s m →
    (t.inodeTable j).stat.stMode = (s.inodeTable j).stat.stMode
  nlink_parent : (t.inodeTable (inoOf s k)).stat.stNlink =
    (s.inodeTable (inoOf s k)).stat.stNlink - 1
  nlink_ne : ∀ j, j ≠ inoOf s m → j ≠ inoOf s k →
    (t.inodeTable j).stat.stNlink = (s.inodeTable j).stat.stNlink

section Erase

variable (h : Tree s) (her : Erases s t m k)

include her in
/-- There is one entry less. -/
theorem erases_entry (j : Int) : Entry t j ↔ j ≠ m ∧ Entry s j := by
  by_cases hj : j = m
  · subst j
    simp [Entry, her.names]
  · simp [Entry, her.names, hj]

include her in
/-- The others have the same paths and inodes. -/
theorem erases_old {j : Int} (hj : j ≠ m) :
    pathOf t j = pathOf s j ∧ inoOf t j = inoOf s j := by
  simp [pathOf, inoOf, her.names, hj]

include h her in
/-- None of them has the inode of the one that is removed. -/
theorem erases_ino_ne {j : Int} (hj : Entry s j) (hjm : j ≠ m) :
    inoOf s j ≠ inoOf s m := fun heq => hjm (h.ino_inj j m hj her.entry heq)

include h her in
/-- The others are directories as before. -/
theorem erases_isDir {j : Int} (hj : Entry s j) (hjm : j ≠ m) :
    IsDir t j ↔ IsDir s j := by
  rw [IsDir, IsDir, (erases_old her hjm).2, her.mode_ne _ (erases_ino_ne h her hj hjm)]

include her in
/-- The children are those of before without it. -/
theorem erases_children (q : Path) : children t q = children s q \ {m} := by
  ext j
  by_cases hj : j = m
  · subst j
    simp [children, erases_entry her]
  · simp [children, erases_entry her, hj, (erases_old her hj).1]

include her in
/-- The root is not removed. -/
theorem erases_ne_root : pathOf s m ≠ [slash] := her.parent.2.2.ne_root

include h her in
/-- **Erasing a leaf keeps the tree.** -/
theorem erase : Tree t := by
  obtain ⟨hk, hkd, hkp⟩ := her.parent
  have hentry := erases_entry her
  have hm₀ : (0 : Int) ≠ m := by
    rintro rfl
    exact erases_ne_root her h.root.2.1
  constructor
  case avail_name =>
    intro j h₀ h₁
    by_cases hj : j = m
    · subst j
      simp [her.names]
    · simpa [her.names, hj] using h.avail_name j h₀ h₁
  case free_path =>
    intro j h₀ h₁ hf
    by_cases hj : j = m
    · subst j
      simp [pathOf, her.names]
    · simp only [her.names, Function.update_of_ne hj] at hf
      simpa [pathOf, her.names, hj] using h.free_path j h₀ h₁ hf
  case root =>
    exact ⟨(hentry 0).mpr ⟨hm₀, h.root.1⟩, (erases_old her hm₀).1.trans h.root.2.1,
      (erases_isDir h her h.root.1 hm₀).mpr h.root.2.2⟩
  case path_ne =>
    intro j hj
    obtain ⟨hjm, hj⟩ := (hentry j).mp hj
    rw [(erases_old her hjm).1]
    exact h.path_ne j hj
  case path_inj =>
    intro j l hj hl heq
    obtain ⟨hjm, hj⟩ := (hentry j).mp hj
    obtain ⟨hlm, hl⟩ := (hentry l).mp hl
    rw [(erases_old her hjm).1, (erases_old her hlm).1] at heq
    exact h.path_inj j l hj hl heq
  case ino_range =>
    intro j hj
    obtain ⟨hjm, hj⟩ := (hentry j).mp hj
    rw [(erases_old her hjm).2]
    exact h.ino_range j hj
  case ino_avail =>
    intro j hj
    obtain ⟨hjm, hj⟩ := (hentry j).mp hj
    rw [(erases_old her hjm).2, her.avail_ne _ (erases_ino_ne h her hj hjm)]
    exact h.ino_avail j hj
  case ino_inj =>
    intro j l hj hl heq
    obtain ⟨hjm, hj⟩ := (hentry j).mp hj
    obtain ⟨hlm, hl⟩ := (hentry l).mp hl
    rw [(erases_old her hjm).2, (erases_old her hlm).2] at heq
    exact h.ino_inj j l hj hl heq
  case parent =>
    intro j hj hne
    obtain ⟨hjm, hj⟩ := (hentry j).mp hj
    have hpj := (erases_old her hjm).1
    obtain ⟨l, hl, hld, hlp⟩ := h.parent j hj (hpj ▸ hne)
    -- the erased entry was the parent of nothing
    have hlm : l ≠ m := by
      rintro rfl
      have hmem : j ∈ children s (pathOf s l) := ⟨hj, hlp⟩
      rw [her.leaf] at hmem
      exact hmem
    refine ⟨l, (hentry l).mpr ⟨hlm, hl⟩, (erases_isDir h her hl hlm).mpr hld, ?_⟩
    rw [hpj, (erases_old her hlm).1]
    exact hlp
  case nlink =>
    intro j hj hd
    obtain ⟨hjm, hj⟩ := (hentry j).mp hj
    have hold := h.nlink j hj ((erases_isDir h her hj hjm).mp hd)
    rw [(erases_old her hjm).1, (erases_old her hjm).2, erases_children her]
    by_cases hjk : j = k
    · subst j
      have hmem : m ∈ children s (pathOf s k) := ⟨her.entry, hkp⟩
      have hcard := Set.ncard_sdiff_singleton_add_one hmem (children_finite s _)
      rw [her.nlink_parent, hold]
      omega
    · have hnot : m ∉ children s (pathOf s j) := fun hmem =>
        hjk (h.path_inj j k hj hk (hmem.2.unique hkp))
      rw [Set.sdiff_singleton_eq_self hnot, her.nlink_ne _ (erases_ino_ne h her hj hjm)
        (fun heq => hjk (h.ino_inj j k hj hk heq)), hold]

end Erase

end Tree

end Sfs
