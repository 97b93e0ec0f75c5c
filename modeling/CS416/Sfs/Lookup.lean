import CS416.Sfs.FreshState

/-!
# Finding a created path again

`sfs_create` and `sfs_mkdir` store the path with `sprintf`, the path being the
format, in a field of 128 bytes.  A path that fits and has no `%` is found
again by `path_lookup`, and the lookups of all other paths stay as they are.
-/

namespace Sfs

open CInt Search Outcome

/-- `name_table` is not exhausted. -/
def HasFreeName (s : FS) : Prop := ∃ m, 0 ≤ m ∧ m < maxLink ∧ (s.nameTable m).avail = FREE

/-- The tables have a free inode, a free name, a free handle and a free block. -/
structure Room (s : FS) : Prop where
  inode : HasFreeInode s
  name : HasFreeName s
  handle : 0 ≤ getFh s
  block : HasFreeBlock s

/-- The path is not in `name_table`. -/
def NewPath (s : FS) (path : Path) : Prop := ∀ m, Entry s m → pathOf s m ≠ path

/-- What a call on the new `path` promises: it fails and `name_table` stays as it is, or
the path is found, on the new inode, and all other absolute paths as before. -/
def FoundAgain (s t : FS) (path : Path) (r : Int) : Prop :=
  r < 0 ∧ t.nameTable = s.nameTable ∨
  r = 0 ∧ Entry t (pathLookup t path) ∧ inoOf t (pathLookup t path) = (getInode s).1 ∧
    ∀ q, q.head? = some slash → q ≠ path → pathLookup t q = pathLookup s q

/-- A call that returns `r`, by its result alone. -/
theorem ok_of_result {α : Type} {x : Except Stop (Int × α)} {r : Int}
    (h : x.toOption.map Prod.fst = some r) : ∃ a, x = .ok (r, a) := by
  cases x with
  | error e => cases h
  | ok p =>
      obtain ⟨code, a⟩ := p
      obtain rfl : code = r := Option.some.inj h
      exact ⟨a, rfl⟩

section Lookup

variable {s t : FS} {env : Env} {path : Path} {mode : Nat} {fi : Int}

/-- Where a name is free, `get_mapping` takes the first one. -/
theorem getMapping_of_free (h : HasFreeName s) : ∃ m,
    getMapping s = (m, s.setName m { s.nameTable m with avail := ALLOCD }) ∧
      0 ≤ m ∧ m < maxLink ∧ (s.nameTable m).avail = FREE := by
  rcases getMapping_cases s with hcase | hfull
  · exact hcase
  · obtain ⟨m, h₀, h₁, hm⟩ := h
    obtain ⟨j, hj⟩ := findFrom_isSome (p := fun i => (s.nameTable i).avail = FREE)
      (n := maxLink.toNat) h₀ (by simpa using h₁) (by simpa using hm)
    have hrange := (findFrom_some hj).1
    unfold getMapping at hfull
    rw [hj] at hfull
    have hneg : j = -1 := congrArg Prod.fst hfull
    omega

/-- With a path that fits, only a missing block stops `sfs_create`. -/
theorem sfsCreate_stops (hfits : PathFits path) :
    OkUnless .noReturn (sfsCreate env path mode fi s) fun _ => True := by
  unfold sfsCreate
  split
  · exact OkUnless.pure trivial
  dsimp only
  split_ifs
  · exact OkUnless.pure trivial
  · exact (appendEntry_relinks env _ _ _).bind fun _ _ => OkUnless.pure trivial

/-- With a path that fits, only a missing block stops `sfs_mkdir`. -/
theorem sfsMkdir_stops (hfits : PathFits path) :
    OkUnless .noReturn (sfsMkdir env path mode s) fun _ => True := by
  unfold sfsMkdir
  split
  · exact OkUnless.pure trivial
  refine (getBlock_outcome _).bind ?_
  intro r _
  dsimp only
  split_ifs
  · exact OkUnless.pure trivial
  · exact (appendEntry_relinks env _ _ _).bind fun _ _ => OkUnless.pure trivial

/-- A path that does not fit is undefined behaviour once a name is free. -/
theorem sfsCreate_undefined (hnew : pathLookup s path < 0) (hname : HasFreeName s)
    (hfits : ¬ PathFits path) : sfsCreate env path mode fi s = .error .undefined := by
  obtain ⟨m, hget, h₀, _⟩ := getMapping_of_free hname
  unfold sfsCreate
  rw [if_neg (show ¬ pathLookup s path > 0 by omega)]
  generalize hu : ((getInode s).2.setOpen _ _).modStat (getInode s).1 _ = u
  have hnames : u.nameTable = s.nameTable := by
    subst u
    unfold getInode
    split <;> rfl
  have hmap : (getMapping u).1 = m := by rw [getMapping_congr hnames, hget]
  dsimp only
  rw [hu, if_neg (show ¬ (getMapping u).1 < 0 by omega), if_pos hfits]

/-- A path that the format does not copy ends the call. -/
theorem sfsMkdir_undefined (hnew : pathLookup s path < 0) (hname : HasFreeName s)
    (hblock : HasFreeBlock s) (hfits : ¬ PathFits path) :
    sfsMkdir env path mode s = .error .undefined := by
  obtain ⟨m, hget, h₀, _⟩ := getMapping_of_free hname
  unfold sfsMkdir
  rw [if_neg (show ¬ pathLookup s path > 0 by omega)]
  generalize hu : (getInode s).2.modStat (getInode s).1 _ = u
  have hsame : u.nameTable = s.nameTable ∧ u.diskBlocks = s.diskBlocks := by
    subst u
    unfold getInode
    split <;> exact ⟨rfl, rfl⟩
  have hfree : HasFreeBlock u := by
    unfold HasFreeBlock
    rw [hsame.2]
    exact hblock
  obtain ⟨b, hb, _⟩ := getBlock_of_free hfree
  have hmap : (getMapping ((u.setUsed b ALLOCD).setBlocks (getInode s).1 0 b)).1 = m := by
    have hcongr := getMapping_congr (s := s)
      (t := (u.setUsed b ALLOCD).setBlocks (getInode s).1 0 b) hsame.1
    rw [hcongr, hget]
  dsimp only
  rw [hu, hb, ok_bind]
  dsimp only
  rw [hmap, if_neg (show ¬ m < 0 by omega), if_pos hfits]

/-- Where only a free entry has received the path, the lookups of other paths stay. -/
theorem pathLookup_inserts {m i k : Int} {q : Path} (h : Tree s)
    (hins : Tree.Inserts s t m i k path) (hq : q ≠ []) (hne : q ≠ path) :
    pathLookup t q = pathLookup s q := by
  obtain ⟨h₀, h₁, hfree⟩ := hins.slot
  have hempty : (s.nameTable m).path = [] := h.free_path m h₀ h₁ hfree
  have hsame : (fun i => decide ((t.nameTable i).path = q)) =
      fun i => decide ((s.nameTable i).path = q) := by
    funext j
    by_cases hj : j = m
    · subst j
      rw [hins.names, Function.update_self, hempty]
      simp [hne.symm, hq.symm]
    · rw [hins.names, Function.update_of_ne hj]
  unfold pathLookup
  rw [hsame]

/-- A leaf that has been inserted is found. -/
theorem foundAgain_inserts {m k : Int} (h : Tree s)
    (hins : Tree.Inserts s t m (getInode s).1 k path) : FoundAgain s t path 0 := by
  have ht : Tree t := h.insert hins
  have hentry : Entry t m := (Tree.inserts_entry hins m).mpr (Or.inl rfl)
  have hpath : pathOf t m = path := by
    rw [pathOf, hins.names, Function.update_self]
  have hlook : pathLookup t path = m := by
    rw [← hpath]
    exact ht.lookup hentry
  right
  refine ⟨rfl, ?_, ?_, ?_⟩
  · rw [hlook]
    exact hentry
  · rw [hlook, inoOf, hins.names, Function.update_self]
  · intro q hq hne
    apply pathLookup_inserts h hins _ hne
    rintro rfl
    cases hq

/-- A file that is created is found. -/
theorem sfsCreate_found (h : Tree s) (hok : FuseOk s (.create path mode)) :
    OkUnless .noReturn (sfsCreate env path mode fi s) fun r =>
      FoundAgain s r.2.2 path r.1 := by
  refine (sfsCreate_stops hok.1).of_post ((sfsCreate_tree h hok).imp ?_)
  intro r hr
  rcases hr with ⟨hsame, hneg⟩ | ⟨hzero, k, hins⟩
  · exact Or.inl ⟨hneg, hsame.names⟩
  · rw [hzero]
    exact foundAgain_inserts h hins

/-- A directory that is made is found. -/
theorem sfsMkdir_found (h : Tree s) (hok : FuseOk s (.mkdir path mode)) :
    OkUnless .noReturn (sfsMkdir env path mode s) fun r => FoundAgain s r.2 path r.1 := by
  refine (sfsMkdir_stops hok.1).of_post ((sfsMkdir_tree h hok).imp ?_)
  intro r hr
  rcases hr with ⟨hsame, hneg⟩ | ⟨hzero, k, hins⟩
  · exact Or.inl ⟨hneg, hsame.names⟩
  · rw [hzero]
    exact foundAgain_inserts h hins

/-- **When a created path is found again**: the path fits the table and has no conversion. -/
theorem created_path_found_iff (h : Reached FuseOk s) (hroom : Room s)
    (hpar : HasParent s path) (hnew : NewPath s path) :
    ((∀ env mode fi, isRegMode mode = true →
      OkUnless .noReturn (sfsCreate env path mode fi s) fun r =>
        FoundAgain s r.2.2 path r.1) ↔ PathFits path) ∧
    ((∀ env mode, OkUnless .noReturn (sfsMkdir env path mode s) fun r =>
        FoundAgain s r.2 path r.1) ↔ PathFits path) := by
  have htree := reached_tree h
  have hlook : pathLookup s path < 0 := pathLookup_new hpar hnew htree
  have hundefined : ∀ {α : Type} {x : Except Stop α} {P : α → Prop}, x = .error .undefined →
      ¬ OkUnless .noReturn x P := by
    intro α x P hx hfound
    rw [hx] at hfound
    rcases hfound with heq | ⟨_, heq, _⟩ <;> cases heq
  constructor <;> constructor
  · intro hfound
    by_contra hfits
    exact hundefined (sfsCreate_undefined hlook hroom.name hfits)
      (hfound zeroEnv 0o100644 0 (by decide))
  · intro hfits env mode fi hreg
    exact sfsCreate_found htree ⟨hfits, hreg, hpar, hroom.inode⟩
  · intro hfound
    by_contra hfits
    exact hundefined (sfsMkdir_undefined hlook hroom.name hroom.block hfits)
      (hfound zeroEnv 0o755)
  · intro hfits env mode
    exact sfsMkdir_found htree ⟨hfits, hpar, hroom.inode⟩

/-- A one-letter name in the root of a fresh mount. -/
theorem room_firstMount : Room firstMount :=
  ⟨⟨127, by decide +kernel⟩, ⟨127, by decide +kernel⟩, by decide +kernel, ⟨9, by decide +kernel⟩⟩

/-- On a first mount a name in the root is new. -/
theorem newPath_firstMount {c : UInt8} : NewPath firstMount (rootPath c) := by
  have hfresh := fresh_state fresh_firstMount
  intro m hm hpath
  rw [(hfresh.entry_iff m).mp hm, pathOf, hfresh.root_name] at hpath
  cases hpath

/-- The root is there to take it. -/
theorem hasParent_firstMount {c : UInt8} (hc : c ≠ slash) :
    HasParent firstMount (rootPath c) := by
  have htree := fresh_tree fresh_firstMount
  refine ⟨0, htree.root.1, htree.root.2.2, ?_⟩
  rw [htree.root.2.1]
  exact ⟨by decide, [c], by simp, by simpa using hc.symm, rfl⟩

/-- `/a` is found again, `/%` is not. -/
theorem created_path_found_root :
    (∀ env mode fi, isRegMode mode = true →
      OkUnless .noReturn (sfsCreate env (rootPath letterA) mode fi firstMount) fun r =>
        FoundAgain firstMount r.2.2 (rootPath letterA) r.1) ∧
    ¬ ∀ env mode, OkUnless .noReturn (sfsMkdir env (rootPath percent) mode firstMount)
      fun r => FoundAgain firstMount r.2 (rootPath percent) r.1 := by
  constructor
  · exact (created_path_found_iff (reached_firstMount FuseOk) room_firstMount
      (hasParent_firstMount (by decide)) newPath_firstMount).1.mpr (by decide)
  · intro hfound
    exact absurd ((created_path_found_iff (reached_firstMount FuseOk) room_firstMount
      (hasParent_firstMount (by decide)) newPath_firstMount).2.mp hfound) (by decide)

/-- `create /%` on a fresh mount: the path is used as a format. -/
theorem percent_path_lost :
    ¬ ∀ s path, Reached FuseOk s → Room s → HasParent s path → NewPath s path →
      ∀ env mode fi, isRegMode mode = true →
        OkUnless .noReturn (sfsCreate env path mode fi s) fun r =>
          FoundAgain s r.2.2 path r.1 := by
  intro hclaim
  have hpar := hasParent_firstMount (c := percent) (by decide)
  have hfound := hclaim firstMount (rootPath percent) (reached_firstMount FuseOk)
    room_firstMount hpar newPath_firstMount zeroEnv 0o100644 0 (by decide)
  have hlook := pathLookup_new hpar newPath_firstMount (fresh_tree fresh_firstMount)
  rw [sfsCreate_undefined hlook room_firstMount.name (by decide)] at hfound
  rcases hfound with heq | ⟨_, heq, _⟩ <;> cases heq

end Lookup

end Sfs
