import CS416.Lib.Script
import CS416.Sfs.Accounting
import CS416.Sfs.FileFrames
import CS416.Sfs.OpenHandles

/-!
# The file store

`FileStore` says what the calls are for: paths name directories and files, a
file is its bytes, and a handle is open on a file.  It has no blocks, inodes,
link counts or directory texts.  Along runs whose writes append within the
size limit, the file system answers every call as the file store does.
-/

namespace Sfs

open CInt Search Outcome

/-- What a path names: a directory, or the file with a number. -/
inductive Node
  | dir
  | file (id : Int)

/-- The names, the bytes of the files, and the files behind the handles. -/
structure FileStore where
  node : Path → Option Node
  bytes : Int → List UInt8
  opened : Int → Option Int

/-- What the caller of a file system call gets. -/
inductive Reply
  | result (r : Int)
  | handle (r fh : Int)
  | bytes (r : Int) (data : List UInt8)
  deriving DecidableEq

/-- One call with all that it hands back. -/
def serve (env : Env) (c : Call) (s : FS) : Except Stop (Reply × FS) :=
  match c with
  | .create path mode => do
      let (r, fh, s) ← sfsCreate env path mode 0 s
      return (.handle r fh, s)
  | .openFile path =>
      let (r, fh, s) := sfsOpen path 0 s
      return (.handle r fh, s)
  | .read fh size offset => do
      let (r, data) ← sfsRead fh size offset s
      return (.bytes r data, s)
  | c => do
      let (r, s) ← exec env c s
      return (.result r, s)

namespace FileStore

/-- No path names the file `id`, and no handle is open on it. -/
def Unused (a : FileStore) (id : Int) : Prop :=
  (∀ p, a.node p ≠ some (.file id)) ∧ ∀ fh, a.opened fh ≠ some id

/-- The file behind `fi->fh`. -/
def behind (a : FileStore) (fh : Int) : Option Int :=
  if handleOutOfRange fh then none else a.opened (handleIndex fh)

/-- The lowest handle that is not open. -/
def Offers (a : FileStore) (fh : Int) : Prop :=
  0 ≤ fh ∧ fh < maxLink ∧ a.opened fh = none ∧ ∀ fh', 0 ≤ fh' → fh' < fh → a.opened fh' ≠ none

/-- There are `MAX_LINK` names. -/
def NamesFull (a : FileStore) : Prop := {p | a.node p ≠ none}.ncard = 128

/-- All handles are open. -/
def Full (a : FileStore) : Prop := ∀ fh, 0 ≤ fh → fh < maxLink → a.opened fh ≠ none

/-- What `fi->fh` gets: the lowest handle that is not open, or -1 as a `uint64_t`. -/
def Gets (a : FileStore) (fh : Int) : Prop := a.Offers fh ∨ a.Full ∧ fh = toU64 (-1)

/-- Something is named below the directory `path`. -/
def HasChild (a : FileStore) (path : Path) : Prop := ∃ p, a.node p ≠ none ∧ IsParent path p

def name (a : FileStore) (path : Path) (n : Option Node) : FileStore :=
  { a with node := Function.update a.node path n }

def store (a : FileStore) (id : Int) (data : List UInt8) : FileStore :=
  { a with bytes := Function.update a.bytes id data }

def setHandle (a : FileStore) (fh : Int) (id : Option Int) : FileStore :=
  { a with opened := Function.update a.opened fh id }

/-- What a call does, by its outcome.  When all handles are open `sfs_create` makes the file all
the same. -/
inductive Step (a : FileStore) : Call → Reply → FileStore → Prop
  | createExists {path mode} : a.node path ≠ none →
      Step a (.create path mode) (.handle (-EEXIST) 0) a
  | createNoName {path mode fh} : a.node path = none → a.NamesFull → a.Gets fh →
      Step a (.create path mode) (.handle (-ENOMEM) fh) a
  | create {path mode id fh} : a.node path = none → ¬ a.NamesFull → a.Unused id → a.Offers fh →
      Step a (.create path mode) (.handle 0 fh)
        (((a.name path (some (.file id))).store id []).setHandle fh (some id))
  | createUnopened {path mode id} : a.node path = none → ¬ a.NamesFull → a.Unused id → a.Full →
      Step a (.create path mode) (.handle 0 (toU64 (-1)))
        ((a.name path (some (.file id))).store id [])
  | mkdirExists {path mode} : a.node path ≠ none → Step a (.mkdir path mode) (.result (-EEXIST)) a
  | mkdirNoName {path mode} : a.node path = none → a.NamesFull →
      Step a (.mkdir path mode) (.result (-ENOMEM)) a
  | mkdir {path mode} : a.node path = none → ¬ a.NamesFull →
      Step a (.mkdir path mode) (.result 0) (a.name path (some .dir))
  | openNone {path} : a.node path = none → Step a (.openFile path) (.handle (-ENOENT) 0) a
  | openDir {path} : a.node path = some .dir → Step a (.openFile path) (.handle (-EISDIR) 0) a
  | openFull {path id} : a.node path = some (.file id) → a.Full →
      Step a (.openFile path) (.handle (-ENOMEM) 0) a
  | openFile {path id fh} : a.node path = some (.file id) → a.Offers fh →
      Step a (.openFile path) (.handle fh fh) (a.setHandle fh (some id))
  | writeClosed {fh buf size offset} : a.behind fh = none →
      Step a (.write fh buf size offset) (.result (-EBADF)) a
  | writeBeyond {fh buf size offset id} : a.behind fh = some id →
      ((a.bytes id).length : Int) < offset → Step a (.write fh buf size offset) (.result 0) a
  | write {fh buf size id} {offset : Int} : a.behind fh = some id → offset = (a.bytes id).length →
      Step a (.write fh buf size offset) (.result size)
        (a.store id (a.bytes id ++ (List.range size).map buf))
  | readClosed {fh size offset} : a.behind fh = none →
      Step a (.read fh size offset) (.bytes (-EBADF) []) a
  | readEnd {fh size offset id} : a.behind fh = some id →
      ((a.bytes id).length : Int) ≤ offset → Step a (.read fh size offset) (.bytes eofCode []) a
  | read {fh size id} {offset : Int} : a.behind fh = some id → 0 ≤ offset →
      offset < (a.bytes id).length → Step a (.read fh size offset)
        (.bytes (((a.bytes id).drop offset.toNat).take size).length
          (((a.bytes id).drop offset.toNat).take size)) a
  | release {fh} : Step a (.release fh) (.result 0) (a.setHandle (toInt fh) none)
  | unlink {path id} : a.node path = some (.file id) →
      Step a (.unlink path) (.result 0) (a.name path none)
  | rmdirFull {path} : a.node path = some .dir → a.HasChild path →
      Step a (.rmdir path) (.result (-ENOTEMPTY)) a
  | rmdir {path} : a.node path = some .dir → ¬ a.HasChild path →
      Step a (.rmdir path) (.result 0) (a.name path none)

/-- One handle is offered. -/
theorem Offers.unique {a : FileStore} {fh fh' : Int} (h : a.Offers fh) (h' : a.Offers fh') :
    fh = fh' := by
  obtain ⟨h₀, _, hfree, hleast⟩ := h
  obtain ⟨h₀', _, hfree', hleast'⟩ := h'
  rcases lt_trichotomy fh fh' with hlt | heq | hlt
  · exact absurd hfree (hleast' fh h₀ hlt)
  · exact heq
  · exact absurd hfree' (hleast fh' h₀' hlt)

private theorem Offers.not_full {a : FileStore} {fh : Int} (h : a.Offers fh) : ¬ a.Full :=
  fun hfull => hfull fh h.1 h.2.1 h.2.2.1

/-- What `fi->fh` gets is determined. -/
theorem Gets.unique {a : FileStore} {fh fh' : Int} (h : a.Gets fh) (h' : a.Gets fh') :
    fh = fh' := by
  rcases h with hoff | ⟨hfull, rfl⟩ <;> rcases h' with hoff' | ⟨hfull', rfl⟩
  · exact hoff.unique hoff'
  · exact absurd hfull' hoff.not_full
  · exact absurd hfull hoff'.not_full
  · rfl

/-- **A call has one answer.** -/
theorem Step.reply_unique {a b b' : FileStore} {c : Call} {o o' : Reply} (h : a.Step c o b)
    (h' : a.Step c o' b') : o = o' := by
  cases h <;> cases h' <;>
    grind [Offers.unique, Offers.not_full, Gets.unique]

/-- A call and its answer. -/
def Answers (a : FileStore) (l : Env × Call) (o : Reply) (b : FileStore) : Prop := a.Step l.2 o b

/-- The store after a first mount. -/
def fresh : FileStore where
  node p := if p = [slash] then some .dir else none
  bytes _ := []
  opened _ := none

end FileStore

/-- A call of a run that is served: FUSE can make it, the directories can take their entries,
no file is unlinked while it is open, a released handle is in the table, and an accepted write
appends within the size limit. -/
def StoreOk (s : FS) : Call → Prop
  | .write fh _ size offset =>
      ¬ handleOutOfRange fh → 0 ≤ inodeOf s (handleIndex fh) →
        offset ≤ (s.inodeTable (inodeOf s (handleIndex fh))).stat.stSize →
        offset = (s.inodeTable (inodeOf s (handleIndex fh))).stat.stSize ∧ 1 ≤ size ∧
          offset + size ≤ maxFileBlocks * blockSize
  | .read _ size offset => 0 ≤ offset ∧ offset + size < 18446744073709551616
  | .release fh => 0 ≤ toInt fh ∧ toInt fh < maxLink
  | .mkdir path mode =>
      isDirMode (mode ||| S_IFDIR) = true ∧ FuseOk s (.mkdir path mode) ∧
        BlockOk False anySize s (.mkdir path mode)
  | c => FuseOk s c ∧ HandleOk s c ∧ BlockOk False anySize s c

/-- A call of such a run, and its answer. -/
def Replies (s : FS) (l : Env × Call) (o : Reply) (t : FS) : Prop :=
  StoreOk s l.2 ∧ serve l.1 l.2 s = .ok (o, t)

/-- The names of the state `s`. -/
def nodeOf (s : FS) (m : Int) : Node :=
  if IsDir s m then .dir else .file (inoOf s m)

def ShowsNames (s : FS) (node : Path → Option Node) : Prop :=
  ∀ p n, node p = some n ↔ ∃ m, Entry s m ∧ pathOf s m = p ∧ nodeOf s m = n

def ShowsHandles (s : FS) (opened : Int → Option Int) : Prop :=
  ∀ fh id, opened fh = some id ↔
    0 ≤ fh ∧ fh < maxLink ∧ 0 ≤ id ∧ (s.openFiles fh).stIno = id

def ShowsBytes (s : FS) (bytes : Int → List UInt8) : Prop :=
  ∀ j ∈ allocated s, IsFile s j → Holds s j (bytes j) ∧ (bytes j).length ≤ 568320

/-- **The file store of a state.** -/
structure Shows (s : FS) (a : FileStore) : Prop where
  names : ShowsNames s a.node
  handles : ShowsHandles s a.opened
  bytes : ShowsBytes s a.bytes

/-- What holds along these runs. -/
structure Sound (s : FS) : Prop where
  tree : Tree s
  blocks : Blocks False anySize s
  handles : Handles s

section Names

variable {s t : FS} {f : Path → Option Node} {m i k j : Int} {path p : Path}

private theorem nodeOf_congr (hino : inoOf t j = inoOf s j) (hdir : IsDir t j ↔ IsDir s j) :
    nodeOf t j = nodeOf s j := by
  unfold nodeOf
  by_cases hd : IsDir s j
  · rw [if_pos hd, if_pos (hdir.mpr hd)]
  · rw [if_neg hd, if_neg (mt hdir.mp hd), hino]

/-- An entry of `name_table` is in the store. -/
theorem ShowsNames.some_of_entry (h : ShowsNames s f) (hj : Entry s j) :
    f (pathOf s j) = some (nodeOf s j) :=
  (h _ _).mpr ⟨j, hj, rfl, rfl⟩

/-- A path that is found. -/
theorem ShowsNames.found (h : ShowsNames s f) (ht : Tree s) (hne : path ≠ [])
    (hl : 0 ≤ pathLookup s path) :
    Entry s (pathLookup s path) ∧ f path = some (nodeOf s (pathLookup s path)) := by
  obtain ⟨hentry, hpath⟩ := ht.lookup_entry hne hl
  exact ⟨hentry, (h _ _).mpr ⟨_, hentry, hpath, rfl⟩⟩

/-- A path that no entry has. -/
theorem ShowsNames.none_of_fresh (h : ShowsNames s f)
    (hfresh : ∀ j, Entry s j → pathOf s j ≠ path) : f path = none := by
  refine Option.eq_none_iff_forall_ne_some.mpr fun n hn => ?_
  obtain ⟨m, hm, hpath, _⟩ := (h path n).mp hn
  exact hfresh m hm hpath

/-- A path that is not found is not in the store. -/
theorem ShowsNames.not_found (h : ShowsNames s f) (hl : pathLookup s path < 0) :
    f path = none :=
  h.none_of_fresh fun _ hj => pathLookup_none hl hj.1 hj.2.1

/-- The names depend on the tree only. -/
theorem ShowsNames.sameTree (h : ShowsNames s f) (hsame : SameTree s t) : ShowsNames t f := by
  have hentry : ∀ m, Entry t m ↔ Entry s m := fun m => by rw [Entry, Entry, hsame.names]
  have hpath : ∀ m, pathOf t m = pathOf s m := fun m => by rw [pathOf, pathOf, hsame.names]
  have hino : ∀ m, inoOf t m = inoOf s m := fun m => by rw [inoOf, inoOf, hsame.names]
  have hnode : ∀ m, Entry s m → nodeOf t m = nodeOf s m := by
    intro m hm
    refine nodeOf_congr (hino m) ?_
    rw [IsDir, IsDir, hino, (hsame.node m hm).2.1]
  intro p n
  rw [h p n]
  refine exists_congr fun m => ?_
  rw [hentry, hpath]
  refine and_congr_right fun hm => ?_
  rw [hnode m hm]

/-- A name more. -/
theorem ShowsNames.inserts (h : ShowsNames s f) (ht : Tree s) (hins : Tree.Inserts s t m i k path) :
    ShowsNames t (Function.update f path (some (nodeOf t m))) := by
  have hold : ∀ j, Entry s j → pathOf t j = pathOf s j ∧ nodeOf t j = nodeOf s j := by
    intro j hj
    obtain ⟨_, hpath, hino⟩ := Tree.inserts_old hins hj
    exact ⟨hpath, nodeOf_congr hino (Tree.inserts_isDir ht hins hj)⟩
  have hnew : pathOf t m = path := by
    rw [pathOf, hins.names, Function.update_self]
  intro p n
  by_cases hp : p = path
  · rw [hp, Function.update_self]
    constructor
    · intro heq
      exact ⟨m, (Tree.inserts_entry hins m).mpr (Or.inl rfl), hnew, Option.some.inj heq⟩
    · intro hfound
      obtain ⟨j, hj, hpath, hn⟩ := hfound
      rcases (Tree.inserts_entry hins j).mp hj with rfl | hj'
      · rw [hn]
      · exact absurd ((hold j hj').1.symm.trans hpath) (hins.fresh j hj')
  · rw [Function.update_of_ne hp, h p n]
    constructor
    · intro hfound
      obtain ⟨j, hj, hpath, hn⟩ := hfound
      exact ⟨j, (Tree.inserts_entry hins j).mpr (Or.inr hj), (hold j hj).1.trans hpath,
        (hold j hj).2.trans hn⟩
    · intro hfound
      obtain ⟨j, hj, hpath, hn⟩ := hfound
      rcases (Tree.inserts_entry hins j).mp hj with rfl | hj'
      · exact absurd (hpath.symm.trans hnew) hp
      · exact ⟨j, hj', (hold j hj').1.symm.trans hpath, (hold j hj').2.symm.trans hn⟩

/-- A name less. -/
theorem ShowsNames.erases (h : ShowsNames s f) (ht : Tree s) (her : Tree.Erases s t m k) :
    ShowsNames t (Function.update f (pathOf s m) none) := by
  have hold : ∀ j, Entry s j → j ≠ m → pathOf t j = pathOf s j ∧ nodeOf t j = nodeOf s j := by
    intro j hj hne
    obtain ⟨hpath, hino⟩ := Tree.erases_old her hne
    exact ⟨hpath, nodeOf_congr hino (Tree.erases_isDir ht her hj hne)⟩
  intro p n
  by_cases hp : p = pathOf s m
  · rw [hp, Function.update_self]
    refine iff_of_false (by simp) ?_
    intro hfound
    obtain ⟨j, hj, hpath, _⟩ := hfound
    obtain ⟨hne, hj'⟩ := (Tree.erases_entry her j).mp hj
    exact hne (ht.path_inj j m hj' her.entry ((hold j hj' hne).1.symm.trans hpath))
  · rw [Function.update_of_ne hp, h p n]
    constructor
    · intro hfound
      obtain ⟨j, hj, hpath, hn⟩ := hfound
      have hne : j ≠ m := by
        rintro rfl
        exact hp hpath.symm
      exact ⟨j, (Tree.erases_entry her j).mpr ⟨hne, hj⟩, (hold j hj hne).1.trans hpath,
        (hold j hj hne).2.trans hn⟩
    · intro hfound
      obtain ⟨j, hj, hpath, hn⟩ := hfound
      obtain ⟨hne, hj'⟩ := (Tree.erases_entry her j).mp hj
      exact ⟨j, hj', (hold j hj' hne).1.symm.trans hpath, (hold j hj' hne).2.symm.trans hn⟩

/-- There are `MAX_LINK` names when no entry is free. -/
theorem ShowsNames.full_iff (h : ShowsNames s f) (ht : Tree s) :
    {p | f p ≠ none}.ncard = 128 ↔ ∀ m, 0 ≤ m → m < maxLink → Entry s m := by
  have himage : {p | f p ≠ none} = pathOf s '' {m | Entry s m} := by
    ext p
    constructor
    · intro hp
      obtain ⟨n, hn⟩ := Option.ne_none_iff_exists'.mp hp
      obtain ⟨m, hm, hpath, _⟩ := (h p n).mp hn
      exact ⟨m, hm, hpath⟩
    · intro hfound hnone
      obtain ⟨m, hm, hpath⟩ := hfound
      rw [← hpath, h.some_of_entry hm] at hnone
      cases hnone
  have hsub : {m | Entry s m} ⊆ Set.Ico 0 maxLink := fun m hm => ⟨hm.1, hm.2.1⟩
  have hcard : (Set.Ico (0 : Int) maxLink).ncard = 128 := by
    rw [← Finset.coe_Ico, Set.ncard_coe_finset, Int.card_Ico]
    rfl
  have hinj : Set.InjOn (pathOf s) {m | Entry s m} := fun m hm n hn => ht.path_inj m n hm hn
  rw [himage, hinj.ncard_image]
  constructor
  · intro hfull m h₀ h₁
    have heq := Set.eq_of_subset_of_ncard_le hsub (by rw [hfull, hcard])
      (Set.finite_Ico 0 maxLink)
    have hm : m ∈ {m | Entry s m} := by
      rw [heq]
      exact ⟨h₀, h₁⟩
    exact hm
  · intro hall
    rw [← hcard]
    congr 1
    exact Set.Subset.antisymm hsub fun m hm => hall m hm.1 hm.2

/-- `get_mapping` fails when all names are in use. -/
theorem entries_of_getMapping (ht : Tree s) (hfull : (getMapping s).1 < 0) :
    ∀ m, 0 ≤ m → m < maxLink → Entry s m := by
  intro m h₀ h₁
  rcases ht.avail_name m h₀ h₁ with hfree | havail
  · unfold getMapping at hfull
    cases hfind : findFrom (fun i => (s.nameTable i).avail = FREE) maxLink.toNat 0 with
    | none =>
        have hnot := findFrom_none hfind m h₀ (by simpa using h₁)
        exact absurd hfree (by simpa using hnot)
    | some i =>
        obtain ⟨hi, _⟩ := findFrom_some hfind
        rw [hfind] at hfull
        dsimp only at hfull
        omega
  · exact ⟨h₀, h₁, havail⟩

end Names

section Handles

variable {s t : FS} {a : FileStore} {f : Int → Option Int} {fh i : Int} {e : FileEntry}

/-- The handles depend on `open_files` only. -/
theorem ShowsHandles.congr (h : ShowsHandles s f) (hopen : t.openFiles = s.openFiles) :
    ShowsHandles t f := by
  intro fh id
  rw [hopen]
  exact h fh id

private theorem ShowsHandles.none_of_neg (h : ShowsHandles s f)
    (hneg : (s.openFiles fh).stIno < 0) :
    f fh = none := by
  refine Option.eq_none_iff_forall_ne_some.mpr fun id hid => ?_
  obtain ⟨_, _, hid₀, hino⟩ := (h fh id).mp hid
  omega

private theorem ShowsHandles.some_of_nonneg (h : ShowsHandles s f) (h₀ : 0 ≤ fh) (h₁ : fh < maxLink)
    (hino : 0 ≤ (s.openFiles fh).stIno) : f fh = some (s.openFiles fh).stIno :=
  (h fh _).mpr ⟨h₀, h₁, hino, rfl⟩

/-- A handle is opened. -/
theorem ShowsHandles.opens (h : ShowsHandles s f) (h₀ : 0 ≤ fh) (h₁ : fh < maxLink)
    (hi : 0 ≤ i) (hopen : t.openFiles = Function.update s.openFiles fh ⟨1, i, 0⟩) :
    ShowsHandles t (Function.update f fh (some i)) := by
  intro fh' id
  rw [hopen]
  by_cases hfh : fh' = fh
  · rw [hfh, Function.update_self, Function.update_self]
    constructor
    · intro heq
      obtain rfl := Option.some.inj heq
      exact ⟨h₀, h₁, hi, rfl⟩
    · intro hfound
      obtain ⟨_, _, _, heq⟩ := hfound
      exact congrArg some heq
  · rw [Function.update_of_ne hfh, Function.update_of_ne hfh]
    exact h fh' id

/-- A handle is closed. -/
theorem ShowsHandles.closes (h : ShowsHandles s f)
    (hopen : t.openFiles = Function.update s.openFiles fh ⟨0, -1, 0⟩) :
    ShowsHandles t (Function.update f fh none) := by
  intro fh' id
  rw [hopen]
  by_cases hfh : fh' = fh
  · rw [hfh, Function.update_self, Function.update_self]
    refine iff_of_false (by simp) ?_
    intro hfound
    obtain ⟨_, _, hid, heq⟩ := hfound
    have heq : (-1 : Int) = id := heq
    omega
  · rw [Function.update_of_ne hfh, Function.update_of_ne hfh]
    exact h fh' id

/-- The entry in front of the table is no handle. -/
theorem ShowsHandles.outside (h : ShowsHandles s f) (hneg : fh < 0)
    (hopen : t.openFiles = Function.update s.openFiles fh e) : ShowsHandles t f := by
  intro fh' id
  rw [h fh' id, hopen]
  refine and_congr_right fun h₀ => ?_
  rw [Function.update_of_ne (by omega)]

/-- A handle that is given up at once. -/
theorem ShowsHandles.givenUp (h : ShowsHandles s f)
    (hopen : t.openFiles = Function.update s.openFiles (getFh s) ⟨0, -1, 0⟩) :
    ShowsHandles t f := by
  by_cases hfh : 0 ≤ getFh s
  · have hclosed := h.closes hopen
    rw [← h.none_of_neg (getFh_free hfh), Function.update_eq_self] at hclosed
    exact hclosed
  · exact h.outside (not_le.mp hfh) hopen

/-- A handle that is found fits into `fi->fh`. -/
theorem toU64_getFh (hfh : 0 ≤ getFh s) : toU64 (getFh s) = getFh s := by
  have hrange := (getFh_range s).2
  simp only [maxLink] at hrange
  exact toU64_of_range hfh (by omega)

private theorem getFh_least (h : 0 ≤ getFh s) {fh : Int} (h₀ : 0 ≤ fh) (hlt : fh < getFh s) :
    0 ≤ (s.openFiles fh).stIno := by
  unfold getFh at h hlt
  cases hfind : findFrom (fun i => (s.openFiles i).stIno < 0) maxLink.toNat 0 with
  | none =>
      rw [hfind] at h
      exact absurd h (by decide)
  | some k =>
      obtain ⟨_, _, _, hleast⟩ := findFrom_some hfind
      rw [hfind] at hlt
      simpa using hleast fh h₀ hlt

private theorem handlesFull_of_getFh (h : getFh s < 0) : HandlesFull s := by
  intro fh h₀ h₁
  unfold getFh at h
  cases hfind : findFrom (fun i => (s.openFiles i).stIno < 0) maxLink.toNat 0 with
  | none => simpa using findFrom_none hfind fh h₀ (by simpa using h₁)
  | some k =>
      obtain ⟨hk, _⟩ := findFrom_some hfind
      rw [hfind, Option.getD_some] at h
      omega

/-- The handle that `get_fh` finds. -/
theorem Shows.offers (h : Shows s a) (hfh : 0 ≤ getFh s) : a.Offers (getFh s) := by
  refine ⟨hfh, (getFh_range s).2, h.handles.none_of_neg (getFh_free hfh), fun fh h₀ hlt hnone => ?_⟩
  have hrange := (getFh_range s).2
  rw [h.handles.some_of_nonneg h₀ (by omega) (getFh_least hfh h₀ hlt)] at hnone
  cases hnone

/-- Where `get_fh` finds none, the store has no handle left. -/
theorem Shows.full (h : Shows s a) (hfh : getFh s < 0) : a.Full := by
  intro fh h₀ h₁ hnone
  rw [h.handles.some_of_nonneg h₀ h₁ (handlesFull_of_getFh hfh fh h₀ h₁)] at hnone
  cases hnone

private theorem getFh_none (h : getFh s < 0) : getFh s = -1 := by
  have hrange := (getFh_range s).1
  omega

/-- `fi->fh` gets what the store gives. -/
theorem Shows.gets (h : Shows s a) : a.Gets (toU64 (getFh s)) := by
  by_cases hfh : 0 ≤ getFh s
  · rw [toU64_getFh hfh]
    exact Or.inl (h.offers hfh)
  · rw [getFh_none (not_le.mp hfh)]
    exact Or.inr ⟨h.full (not_le.mp hfh), rfl⟩

private theorem Shows.behind_none (h : Shows s a)
    (hfh : handleOutOfRange fh ∨ inodeOf s (handleIndex fh) < 0) : a.behind fh = none := by
  unfold FileStore.behind
  split
  · rfl
  · exact h.handles.none_of_neg (hfh.resolve_left ‹_›)

private theorem Shows.behind_some (h : Shows s a) (hfh : ¬ handleOutOfRange fh)
    (hino : 0 ≤ inodeOf s (handleIndex fh)) :
    a.behind fh = some (inodeOf s (handleIndex fh)) := by
  obtain ⟨h₀, h₁⟩ := handleIndex_range hfh
  exact (if_neg hfh).trans (h.handles.some_of_nonneg h₀ h₁ hino)

end Handles

section Bytes

variable {s t : FS} {f : Int → List UInt8} {i : Int} {w : List UInt8}

/-- No file has changed. -/
theorem ShowsBytes.stays (h : ShowsBytes s f)
    (hfiles : ∀ j ∈ allocated t, IsFile t j → FileStays s t j) : ShowsBytes t f := by
  intro j hj hfile
  obtain ⟨hjs, hfs, hsame⟩ := hfiles j hj hfile
  obtain ⟨hw, hlen⟩ := h j hjs hfs
  exact ⟨hsame.holds hw hlen, hlen⟩

/-- One file holds `w` now. -/
theorem ShowsBytes.update (h : ShowsBytes s f) (hlen : w.length ≤ 568320)
    (hfiles : ∀ j ∈ allocated t, IsFile t j → j = i ∧ Holds t i w ∨ j ≠ i ∧ FileStays s t j) :
    ShowsBytes t (Function.update f i w) := by
  intro j hj hfile
  rcases hfiles j hj hfile with ⟨rfl, hw⟩ | ⟨hne, hjs, hfs, hsame⟩
  · rw [Function.update_self]
    exact ⟨hw, hlen⟩
  · rw [Function.update_of_ne hne]
    obtain ⟨hw, hlen'⟩ := h j hjs hfs
    exact ⟨hsame.holds hw hlen', hlen'⟩

end Bytes

section Conditions

variable {s t : FS} {a : FileStore} {c : Call} {fh offset : Int} {size : Nat} {buf : Nat → UInt8}
  {i : Int}

private theorem StoreOk.fuseOk (hok : StoreOk s c) : FuseOk s c := by
  cases c with
  | create path mode => exact hok.1
  | mkdir path mode => exact hok.2.1
  | openFile path => exact hok.1
  | write fh buf size offset => exact trivial
  | read fh size offset => exact trivial
  | release fh => exact trivial
  | unlink path => exact hok.1
  | rmdir path => exact hok.1

private theorem StoreOk.handleOk (hok : StoreOk s c) : HandleOk s c := by
  cases c with
  | create path mode => exact hok.2.1
  | mkdir path mode => exact trivial
  | openFile path => exact hok.2.1
  | write fh buf size offset => exact trivial
  | read fh size offset => exact trivial
  | release fh => exact trivial
  | unlink path => exact hok.2.1
  | rmdir path => exact hok.2.1

/-- An append within the limit fits into the block map. -/
theorem StoreOk.writeOk (hs : Sound s) (h : Shows s a)
    (hok : StoreOk s (.write fh buf size offset)) : WriteOk anySize s fh size offset := by
  intro hfh hino hoff
  obtain ⟨hend, h₁, hlimit⟩ := hok hfh hino hoff
  obtain ⟨hA, hF⟩ := hs.handles.onFile fh hfh hino
  obtain ⟨hw, hlen⟩ := h.bytes _ hA hF
  generalize a.bytes (s.openFiles (handleIndex fh)).stIno = w at hw hlen
  have hsize : (s.inodeTable (s.openFiles (handleIndex fh)).stIno).stat.stSize = w.length := hw.size
  have hcount : (s.inodeTable (s.openFiles (handleIndex fh)).stIno).stat.stBlocks =
      (blocksOf w.length).toNat := hw.count
  obtain rfl : offset = w.length := hend.trans hsize
  simp only [maxFileBlocks, blockSize] at hlimit
  rw [hsize, hcount]
  refine ⟨h₁, writeFits_append h₁ (by omega), ?_⟩
  show toInt64 ((w.length : Int) + size) < 9223372036854775808
  rw [toInt64_of_range (by omega) (by omega)]
  omega

/-- A call that is served meets the condition on blocks. -/
theorem StoreOk.blockOk (hs : Sound s) (h : Shows s a) (hok : StoreOk s c) :
    BlockOk False anySize s c := by
  cases c with
  | create path mode => exact hok.2.2
  | mkdir path mode => exact hok.2.2
  | openFile path => exact trivial
  | write fh buf size offset => exact hok.writeOk hs h
  | read fh size offset => exact trivial
  | release fh => exact trivial
  | unlink path => exact hok.2.2
  | rmdir path => exact hok.2.2

/-- **Every served call keeps the invariants.** -/
theorem Sound.exec (hs : Sound s) (h : Shows s a) (hok : StoreOk s c) (hret : Returns s c t) :
    Sound t := by
  obtain ⟨ht, hb, hh⟩ := hs
  exact ⟨ht.exec hok.fuseOk hret,
    (hb.exec ht hok.fuseOk False.elim (fun fh _ _ _ _ => hh.onFile fh)
      (hok.blockOk ⟨ht, hb, hh⟩ h) hret).1,
    hh.exec ht hok.fuseOk hok.handleOk hret⟩

/-- An inode that is free has no name and no handle. -/
theorem Shows.unused (h : Shows s a) (hs : Sound s) (hi : i ∉ allocated s) : a.Unused i := by
  constructor
  · intro p hp
    obtain ⟨m, hm, _, hn⟩ := (h.names p _).mp hp
    unfold nodeOf at hn
    split at hn
    · cases hn
    · obtain rfl := Node.file.inj hn
      exact hi (hs.tree.dir_allocated hm)
  · intro fh hfh
    obtain ⟨h₀, h₁, hid, rfl⟩ := (h.handles fh i).mp hfh
    exact hi (hs.handles fh h₀ h₁ hid).1

end Conditions

section Entering

variable {s t : FS} {a : FileStore} {env : Env} {path : Path} {mode : Nat} {r fi fh : Int}

/-- The handle of `sfs_create`, and the kind of the new inode. -/
theorem sfsCreate_opens (ht : Tree s) (hfuse : FuseOk s (.create path mode))
    (hl : ¬ pathLookup s path > 0) (hcr : sfsCreate env path mode fi s = .ok (r, fh, t)) :
    fh = toU64 (getFh s) ∧
      (r = -ENOMEM ∧ (getMapping s).1 < 0 ∧
          t.openFiles = Function.update s.openFiles (getFh s) ⟨0, -1, 0⟩ ∨
        r = 0 ∧ isDirMode (t.inodeTable (getInode s).1).stat.stMode = false ∧
          t.openFiles = Function.update s.openFiles (getFh s) ⟨1, (getInode s).1, 0⟩) := by
  have hindex := handleIndex_toU64_getFh s
  have hint : toInt (toU64 (getFh s)) = getFh s := (handleIndex_getFh s).symm.trans hindex
  rcases sfsCreate_eq env fi ht hfuse hl with ⟨u, i, _, hn, hm, heq⟩ |
    ⟨u, m, i, k, _, hn, he, _, hi, heq⟩
  · rw [heq] at hcr
    obtain ⟨rfl, hrest⟩ := Prod.mk.inj (Except.ok.inj hcr)
    obtain ⟨rfl, rfl⟩ := Prod.mk.inj hrest
    refine ⟨rfl, Or.inl ⟨rfl, hm, ?_⟩⟩
    rw [freeFh, FS.setOpen_openFiles, (freeInode_names i u).2.1, hn.opens, hint,
      Function.update_idem]
  · rw [heq] at hcr
    obtain ⟨t', happ, hrt⟩ := bind_ok.mp hcr
    obtain ⟨rfl, hrest⟩ := Prod.mk.inj (Except.ok.inj hrt)
    obtain ⟨rfl, rfl⟩ := Prod.mk.inj hrest
    have hrel := (appendEntry_relinks env (inoOf s k) _ _).post _ happ
    subst hi
    refine ⟨rfl, Or.inr ⟨rfl, ?_, ?_⟩⟩
    · rw [hrel.mode]
      exact not_isDir_of_isReg hn.mode
    · rw [← hindex]
      exact hrel.opens.trans hn.opens

/-- A path with a parent is not empty. -/
theorem HasParent.ne_nil (hpar : HasParent s path) : path ≠ [] := by
  obtain ⟨_, _, _, hkp⟩ := hpar
  exact hkp.ne_nil

/-- A path that `sfs_create` and `sfs_mkdir` find. -/
theorem Shows.exists_of_lookup (h : Shows s a) (ht : Tree s) (hpar : HasParent s path)
    (hl : pathLookup s path > 0) : a.node path ≠ none := by
  obtain ⟨_, hfound⟩ := h.names.found ht hpar.ne_nil (le_of_lt hl)
  rw [hfound]
  exact Option.some_ne_none _

private theorem Shows.new_of_lookup (h : Shows s a) (ht : Tree s) (hpar : HasParent s path)
    (hl : ¬ pathLookup s path > 0) : a.node path = none :=
  h.names.none_of_fresh (ht.fresh_of_lookup hpar hl)

/-- A new name takes a free entry. -/
theorem Shows.not_namesFull {m i k : Int} (h : Shows s a) (ht : Tree s)
    (hins : Tree.Inserts s t m i k path) : ¬ a.NamesFull := by
  intro hfull
  obtain ⟨h₀, h₁, hfree⟩ := hins.slot
  have hentry := (h.names.full_iff ht).mp hfull m h₀ h₁
  rw [hentry.2.2] at hfree
  exact absurd hfree (by decide)

private theorem nodeOf_new {m i k : Int} (hins : Tree.Inserts s t m i k path) :
    nodeOf t m = if isDirMode (t.inodeTable i).stat.stMode = true then .dir else .file i := by
  have hino : inoOf t m = i := by
    rw [inoOf, hins.names, Function.update_self]
  unfold nodeOf
  by_cases hd : isDirMode (t.inodeTable i).stat.stMode = true
  · rw [if_pos hd, if_pos (show IsDir t m by rw [IsDir, hino]; exact hd)]
  · rw [if_neg hd, if_neg (show ¬ IsDir t m by rw [IsDir, hino]; exact hd), hino]

/-- **`sfs_create` in the file store.** -/
theorem Shows.create (h : Shows s a) (hs : Sound s) (hok : StoreOk s (.create path mode))
    (hcr : sfsCreate env path mode 0 s = .ok (r, fh, t)) :
    ∃ b, a.Step (.create path mode) (.handle r fh) b ∧ Shows t b := by
  have hfuse := hok.fuseOk
  have hfiles := fun j (hj : j ∈ allocated t) (hfile : IsFile t j) =>
    sfsCreate_files hs.blocks hs.tree hfuse (hok.blockOk hs h) hcr hj hfile
  by_cases hl : pathLookup s path > 0
  · rw [sfsCreate, if_pos hl] at hcr
    obtain ⟨rfl, hrest⟩ := Prod.mk.inj (Except.ok.inj hcr)
    obtain ⟨rfl, rfl⟩ := Prod.mk.inj hrest
    exact ⟨a, .createExists (h.exists_of_lookup hs.tree hfuse.2.2.1 hl), h⟩
  have hnone := h.new_of_lookup hs.tree hfuse.2.2.1 hl
  have htree := sfsCreate_tree hs.tree hfuse _ hcr
  dsimp only at htree
  obtain ⟨rfl, ⟨rfl, hm, hopens⟩ | ⟨rfl, hreg, hopens⟩⟩ := sfsCreate_opens hs.tree hfuse hl hcr
  · have hsame : SameTree s t := by
      rcases htree with ⟨hsame, _⟩ | ⟨heq, _⟩
      · exact hsame
      · exact absurd heq (by decide)
    have hfull : a.NamesFull :=
      (h.names.full_iff hs.tree).mpr (entries_of_getMapping hs.tree hm)
    refine ⟨a, .createNoName hnone hfull h.gets, h.names.sameTree hsame, h.handles.givenUp hopens,
      h.bytes.stays fun j hj hfile => ?_⟩
    rcases hfiles j hj hfile with hstays | ⟨heq, _⟩
    · exact hstays
    · exact absurd heq (by decide)
  · obtain ⟨k, hins⟩ : ∃ k, Tree.Inserts s t (getMapping s).1 (getInode s).1 k path := by
      rcases htree with ⟨_, hneg⟩ | ⟨_, hins⟩
      · exact absurd hneg (by decide)
      · exact hins
    have hnew : (getInode s).1 ∉ allocated s := not_mem_allocated hins.node.2.2
    have hnames := h.names.inserts hs.tree hins
    rw [nodeOf_new hins, if_neg (by rw [hreg]; decide)] at hnames
    have hbytes : ShowsBytes t (Function.update a.bytes (getInode s).1 []) := by
      refine h.bytes.update (by decide) fun j hj hfile => ?_
      rcases hfiles j hj hfile with hstays | ⟨_, hji, hholds⟩
      · refine Or.inr ⟨?_, hstays⟩
        rintro rfl
        exact hnew hstays.1
      · subst hji
        exact Or.inl ⟨rfl, hholds⟩
    have hfull := h.not_namesFull hs.tree hins
    have hunused := h.unused hs hnew
    by_cases hfh : 0 ≤ getFh s
    · rw [toU64_getFh hfh]
      exact ⟨_, .create hnone hfull hunused (h.offers hfh), hnames,
        h.handles.opens hfh (getFh_range s).2 hins.node.1 hopens, hbytes⟩
    · rw [getFh_none (not_le.mp hfh)]
      exact ⟨_, .createUnopened hnone hfull hunused (h.full (not_le.mp hfh)), hnames,
        h.handles.outside (not_le.mp hfh) hopens, hbytes⟩

/-- `sfs_mkdir` opens nothing. -/
theorem sfsMkdir_opens (ht : Tree s) (hfuse : FuseOk s (.mkdir path mode))
    (hmk : sfsMkdir env path mode s = .ok (r, t)) : t.openFiles = s.openFiles := by
  rcases sfsMkdir_cases ht hfuse _ hmk with ⟨_, hts⟩ | ⟨u, i, b, _, hn, _, hts⟩ |
    ⟨u, m, i, k, b, _, hn, _, _, _, _, happ⟩
  · exact congrArg FS.openFiles hts
  · exact (congrArg FS.openFiles hts).trans ((freeInode_names i u).2.1.trans hn.opens)
  · have hrel := (appendEntry_relinks env (inoOf s k) _ _).post _ happ
    exact hrel.opens.trans hn.opens

/-- What `sfs_mkdir` returns for a path that is not found. -/
theorem sfsMkdir_result (ht : Tree s) (hfuse : FuseOk s (.mkdir path mode))
    (hl : ¬ pathLookup s path > 0) (hmk : sfsMkdir env path mode s = .ok (r, t)) :
    r = -ENOMEM ∧ (getMapping s).1 < 0 ∨ r = 0 := by
  rcases sfsMkdir_eq env ht hfuse hl with ⟨heq, _⟩ | ⟨u, i, b, _, _, hm, heq⟩ |
    ⟨u, m, i, k, b, _, _, _, _, _, heq⟩
  · rw [heq] at hmk
    cases hmk
  · rw [heq] at hmk
    exact Or.inl ⟨(Prod.mk.inj (Except.ok.inj hmk)).1.symm, hm⟩
  · rw [heq] at hmk
    obtain ⟨t', _, hrt⟩ := bind_ok.mp hmk
    exact Or.inr (Prod.mk.inj (Except.ok.inj hrt)).1.symm

/-- **`sfs_mkdir` in the file store.** -/
theorem Shows.mkdir (h : Shows s a) (hs : Sound s) (hok : StoreOk s (.mkdir path mode))
    (hmk : sfsMkdir env path mode s = .ok (r, t)) :
    ∃ b, a.Step (.mkdir path mode) (.result r) b ∧ Shows t b := by
  have hfuse := hok.fuseOk
  by_cases hl : pathLookup s path > 0
  · rw [sfsMkdir, if_pos hl] at hmk
    obtain ⟨rfl, rfl⟩ := Prod.mk.inj (Except.ok.inj hmk)
    exact ⟨a, .mkdirExists (h.exists_of_lookup hs.tree hfuse.2.1 hl), h⟩
  have hnone := h.new_of_lookup hs.tree hfuse.2.1 hl
  have htree := sfsMkdir_tree hs.tree hfuse _ hmk
  dsimp only at htree
  have hhandles := h.handles.congr (sfsMkdir_opens hs.tree hfuse hmk)
  have hbytes := h.bytes.stays fun j hj hfile =>
    sfsMkdir_files hs.blocks hs.tree hfuse (hok.blockOk hs h) hok.1 hmk hj hfile
  rcases sfsMkdir_result hs.tree hfuse hl hmk with ⟨rfl, hm⟩ | rfl
  · have hsame : SameTree s t := by
      rcases htree with ⟨hsame, _⟩ | ⟨heq, _⟩
      · exact hsame
      · exact absurd heq (by decide)
    refine ⟨a, .mkdirNoName hnone ?_, h.names.sameTree hsame, hhandles, hbytes⟩
    exact (h.names.full_iff hs.tree).mpr (entries_of_getMapping hs.tree hm)
  · obtain ⟨k, hins⟩ : ∃ k, Tree.Inserts s t (getMapping s).1 (getInode s).1 k path := by
      rcases htree with ⟨_, hneg⟩ | ⟨_, hins⟩
      · exact absurd hneg (by decide)
      · exact hins
    have hnames := h.names.inserts hs.tree hins
    have hdir := (sfsMkdir_node hfuse.2.2 hl hmk).2
    rw [nodeOf_new hins, if_pos (by rw [hdir]; exact hok.1)] at hnames
    exact ⟨_, .mkdir hnone (h.not_namesFull hs.tree hins), hnames, hhandles, hbytes⟩

end Entering

section Files

variable {s t u v : FS} {A : Set Int} {a : FileStore} {env : Env} {path : Path} {r fh offset : Int}
  {size : Nat} {buf buf' : Nat → UInt8} {ino : Int} {B m : Nat}

/-- Names and inodes as they were. -/
theorem sameTree_of_tables (hnames : t.nameTable = s.nameTable)
    (hnode : t.inodeTable = s.inodeTable) : SameTree s t :=
  ⟨hnames, fun _ _ => by rw [hnode]; exact ⟨rfl, rfl, rfl⟩⟩

/-- **`sfs_open` in the file store.** -/
theorem Shows.openFile (h : Shows s a) (hs : Sound s) (hok : StoreOk s (.openFile path))
    (hopen : sfsOpen path 0 s = (r, fh, t)) :
    ∃ b, a.Step (.openFile path) (.handle r fh) b ∧ Shows t b := by
  unfold sfsOpen at hopen
  dsimp only at hopen
  by_cases hl : pathLookup s path < 0
  · rw [if_pos hl] at hopen
    obtain ⟨rfl, hrest⟩ := Prod.mk.inj hopen
    obtain ⟨rfl, rfl⟩ := Prod.mk.inj hrest
    exact ⟨a, .openNone (h.names.not_found hl), h⟩
  obtain ⟨hentry, hfound⟩ := h.names.found hs.tree hok.2.1 (not_lt.mp hl)
  rw [if_neg hl] at hopen
  by_cases hd : isDirMode (s.inodeTable (s.nameTable (pathLookup s path)).stIno).stat.stMode = true
  · rw [if_pos hd] at hopen
    obtain ⟨rfl, hrest⟩ := Prod.mk.inj hopen
    obtain ⟨rfl, rfl⟩ := Prod.mk.inj hrest
    rw [nodeOf, if_pos (show IsDir s _ from hd)] at hfound
    exact ⟨a, .openDir hfound, h⟩
  rw [if_neg hd] at hopen
  rw [nodeOf, if_neg (show ¬ IsDir s _ from hd)] at hfound
  by_cases hfull : getFh s < 0
  · rw [if_pos hfull] at hopen
    obtain ⟨rfl, hrest⟩ := Prod.mk.inj hopen
    obtain ⟨rfl, rfl⟩ := Prod.mk.inj hrest
    exact ⟨a, .openFull hfound (h.full hfull), h⟩
  have hfh := not_lt.mp hfull
  rw [if_neg hfull, handleIndex_toU64_getFh, toU64_getFh hfh] at hopen
  obtain ⟨rfl, hrest⟩ := Prod.mk.inj hopen
  obtain ⟨rfl, rfl⟩ := Prod.mk.inj hrest
  refine ⟨_, .openFile hfound (h.offers hfh), h.names.sameTree (sameTree_of_tables rfl rfl), ?_,
    h.bytes.stays fun j hj hfile => .of_tables rfl rfl hj hfile⟩
  exact h.handles.opens hfh (getFh_range s).2 (hs.tree.ino_range _ hentry).1
    (FS.setOpen_openFiles ..)

/-- **`sfs_release` in the file store.** -/
theorem Shows.release (h : Shows s a) (fh : Int) :
    ∃ b, a.Step (.release fh) (.result (sfsRelease fh s).1) b ∧ Shows (sfsRelease fh s).2 b :=
  ⟨_, .release, h.names.sameTree (sameTree_of_tables rfl rfl),
    h.handles.closes (FS.setOpen_openFiles ..),
    h.bytes.stays fun _ hj hfile => .of_tables rfl rfl hj hfile⟩

/-- **`sfs_unlink` in the file store.** -/
theorem Shows.unlink (h : Shows s a) (hs : Sound s) (hok : StoreOk s (.unlink path))
    (hun : sfsUnlink env path s = .ok (r, t)) :
    ∃ b, a.Step (.unlink path) (.result r) b ∧ Shows t b := by
  have hfuse := hok.fuseOk
  obtain ⟨m, k, hpath, her⟩ := sfsUnlink_tree hs.tree hfuse _ hun
  obtain ⟨m', _, u, hm, hpath', hreg, _, hr, hu, hts⟩ := sfsUnlink_cases hs.tree hfuse _ hun
  obtain rfl : r = 0 := hr
  have hnode : a.node path = some (.file (inoOf s m')) := by
    rw [← hpath', h.names.some_of_entry hm]
    refine congrArg some (if_neg fun hd => ?_)
    rw [IsDir, not_isDir_of_isReg hreg] at hd
    cases hd
  have hopens : t.openFiles = s.openFiles :=
    (congrArg FS.openFiles hts).trans
      ((freeInode_names (inoOf s m') u).2.1.trans (removeEntry_relinks env _ _ _ _ hu).opens)
  have hnames := h.names.erases hs.tree her
  rw [hpath] at hnames
  exact ⟨_, .unlink hnode, hnames, h.handles.congr hopens,
    h.bytes.stays fun j hj hfile => sfsUnlink_files hs.blocks hs.tree hfuse hun hj hfile⟩

/-- A directory of the store has a child if and only if the table has one. -/
theorem ShowsNames.hasChild_iff (h : ShowsNames s a.node) :
    a.HasChild path ↔ ∃ m, Entry s m ∧ IsParent path (pathOf s m) := by
  constructor
  · intro hfound
    obtain ⟨p, hp, hparent⟩ := hfound
    obtain ⟨n, hn⟩ := Option.ne_none_iff_exists'.mp hp
    obtain ⟨m, hm, rfl, _⟩ := (h p n).mp hn
    exact ⟨m, hm, hparent⟩
  · intro hfound
    obtain ⟨m, hm, hparent⟩ := hfound
    refine ⟨pathOf s m, ?_, hparent⟩
    rw [h.some_of_entry hm]
    exact Option.some_ne_none _

/-- **`sfs_rmdir` in the file store.** -/
theorem Shows.rmdir (h : Shows s a) (hs : Sound s) (hok : StoreOk s (.rmdir path))
    (hrm : sfsRmdir env path s = .ok (r, t)) :
    ∃ b, a.Step (.rmdir path) (.result r) b ∧ Shows t b := by
  have hfuse := hok.fuseOk
  have hbytes := h.bytes.stays fun j hj hfile =>
    sfsRmdir_files hs.blocks hs.tree hfuse hrm hj hfile
  have htree := sfsRmdir_tree hs.tree hfuse _ hrm
  dsimp only at htree
  obtain ⟨m, k, hm, hpath, hd, _, hcases⟩ := sfsRmdir_cases hs.tree hfuse _ hrm
  have hnode : a.node path = some .dir := by
    rw [← hpath, h.names.some_of_entry hm]
    exact congrArg some (if_pos hd)
  have hchild : a.HasChild path ↔ 2 < (s.inodeTable (inoOf s m)).stat.stNlink := by
    rw [hs.tree.nlink_iff hm hd, hpath]
    exact h.names.hasChild_iff
  rcases hcases with ⟨hlt, hr, hts⟩ | ⟨u, hle, hr, hu, hts⟩
  · obtain rfl : r = -ENOTEMPTY := hr
    obtain rfl : t = { s with cwdInode := inoOf s k } := hts
    exact ⟨a, .rmdirFull hnode (hchild.mpr hlt), h.names.sameTree (sameTree_of_tables rfl rfl),
      h.handles.congr rfl, hbytes⟩
  · obtain rfl : r = 0 := hr
    have hopens : t.openFiles = s.openFiles :=
      (congrArg FS.openFiles hts).trans
        ((freeInode_names (inoOf s m) u).2.1.trans (removeEntry_relinks env _ _ _ _ hu).opens)
    rcases htree with ⟨_, heq⟩ | ⟨m', k', hpath', her⟩
    · exact absurd heq (by decide)
    · have hnames := h.names.erases hs.tree her
      rw [hpath'] at hnames
      exact ⟨_, .rmdir hnode (mt hchild.mp hle), hnames, h.handles.congr hopens, hbytes⟩

/-- Of the buffer, the bytes up to its size are used. -/
theorem contBuffer_congr {first : Block} {n : Nat} (hbuf : ∀ j < size, buf j = buf' j) :
    contBuffer first n buf size = contBuffer first n buf' size := by
  funext j
  unfold contBuffer
  by_cases hj : n ≤ j ∧ j < n + size
  · rw [if_pos hj, if_pos hj, hbuf _ (by omega)]
  · rw [if_neg hj, if_neg hj]

/-- A write depends on the bytes of its range only. -/
theorem Wrote.congr (h : Wrote A s u v t ino B m buf size offset)
    (hbuf : ∀ j < size, buf j = buf' j) : Wrote A s u v t ino B m buf' size offset := by
  refine ⟨h.grew, ?_, h.state⟩
  rw [← contBuffer_congr hbuf]
  exact h.stored

private theorem length_chunk (buf : Nat → UInt8) : ((List.range size).map buf).length = size := by
  rw [List.length_map, List.length_range]

/-- The bytes that are written, as a list. -/
theorem Wrote.chunk (h : Wrote A s u v t ino B m buf size offset) :
    Wrote A s u v t ino B m (fun j => ((List.range size).map buf).getD j 0) size offset := by
  refine h.congr fun j hj => ?_
  rw [List.getD_eq_getElem _ _ (by rw [length_chunk]; exact hj), List.getElem_map,
    List.getElem_range]

/-- **`sfs_write` in the file store.** -/
theorem Shows.write (h : Shows s a) (hs : Sound s) (hok : StoreOk s (.write fh buf size offset))
    (hwr : sfsWrite env fh buf size offset s = .ok (r, t)) :
    ∃ b, a.Step (.write fh buf size offset) (.result r) b ∧ Shows t b := by
  by_cases hfh : handleOutOfRange fh
  · rw [sfsWrite, if_pos hfh] at hwr
    obtain ⟨rfl, rfl⟩ := Prod.mk.inj (Except.ok.inj hwr)
    exact ⟨a, .writeClosed (h.behind_none (Or.inl hfh)), h⟩
  by_cases hino : (s.openFiles (handleIndex fh)).stIno < 0
  · rw [sfsWrite, if_neg hfh, if_pos hino] at hwr
    obtain ⟨rfl, rfl⟩ := Prod.mk.inj (Except.ok.inj hwr)
    exact ⟨a, .writeClosed (h.behind_none (Or.inr hino)), h⟩
  have hbehind : a.behind fh = some (s.openFiles (handleIndex fh)).stIno :=
    h.behind_some hfh (not_lt.mp hino)
  obtain ⟨hA, hF⟩ := hs.handles.onFile fh hfh (not_lt.mp hino)
  obtain ⟨hw, hlen⟩ := h.bytes _ hA hF
  by_cases hoff : offset > (s.inodeTable (s.openFiles (handleIndex fh)).stIno).stat.stSize
  · rw [sfsWrite, if_neg hfh, if_neg hino, if_pos hoff] at hwr
    obtain ⟨rfl, rfl⟩ := Prod.mk.inj (Except.ok.inj hwr)
    rw [hw.size] at hoff
    exact ⟨a, .writeBeyond hbehind hoff, h⟩
  obtain ⟨hend, h₁, hlimit⟩ :
      offset = (s.inodeTable (s.openFiles (handleIndex fh)).stIno).stat.stSize ∧ 1 ≤ size ∧
        offset + size ≤ maxFileBlocks * blockSize := hok hfh (not_lt.mp hino) (not_lt.mp hoff)
  have hrel := sfsWrite_relinks env fh buf size offset s _ hwr
  generalize hi : (s.openFiles (handleIndex fh)).stIno = ino at hino hbehind hA hF hw hlen hoff hend
  obtain rfl : offset = (a.bytes ino).length := hend.trans hw.size
  simp only [maxFileBlocks, blockSize] at hlimit
  have hfit : WriteFits ((blocksOf (a.bytes ino).length).toNat : Nat)
      (s.inodeTable ino).stat.stSize (a.bytes ino).length size := by
    rw [hw.size]
    exact writeFits_append h₁ (by omega)
  obtain ⟨hr, hbooks, u, v, hwrote⟩ := (sfsWrite_spec env fh hs.blocks.books hA hfh hi
    (not_lt.mp hino) hw.shape hw.count (by rw [hw.size]; omega) (le_of_eq hw.size.symm) h₁
    hfit).post _ hwr
  obtain rfl : r = size := hr
  have hchunk : ((List.range size).map buf).length = size := length_chunk buf
  have happend : Wrote (allocated s) s u v t ino (blocksOf (a.bytes ino).length).toNat
      (addedBlocks ((a.bytes ino).length + ((List.range size).map buf).length)
        (a.bytes ino).length) (fun j => ((List.range size).map buf).getD j 0)
      ((List.range size).map buf).length (a.bytes ino).length := by
    rw [hw.size] at hwrote
    rw [hchunk]
    exact hwrote.chunk
  have hholds := happend.holds_self hA (hwrote.books_between hbooks) hw (by rw [hchunk]; omega)
  refine ⟨_, .write hbehind rfl, h.names.sameTree hrel.sameTree, h.handles.congr hrel.opens, ?_⟩
  refine h.bytes.update (by rw [List.length_append, hchunk]; omega) fun j hj hfile => ?_
  by_cases hji : j = ino
  · exact Or.inl ⟨hji, hholds⟩
  · rw [allocated_congr happend.avail] at hj
    rw [IsFile, happend.stat_ne hji] at hfile
    exact Or.inr ⟨hji, hj, hfile, happend.keepsFile hA hbooks hj hji⟩

/-- A read that goes beyond the end stops there. -/
theorem sfsRead_clip {n k : Nat}
    (hsize : (s.inodeTable (s.openFiles (handleIndex fh)).stIno).stat.stSize = n) (hk : k < n)
    (hn : n ≤ 568320) (hend : n ≤ k + size) (hsum : (k : Int) + size < 18446744073709551616) :
    sfsRead fh size k s = sfsRead fh (n - k) k s := by
  have hclip : ∀ size' : Nat, n ≤ k + size' → (k : Int) + size' < 18446744073709551616 →
      (if toU64 ((k : Int) + size') > toU64 (n : Int) then toU64 ((n : Int) - k)
        else (size' : Int)) = ((n - k : Nat) : Int) := by
    intro size' hend hsum
    rw [toU64_of_range (by omega) hsum, toU64_of_range (by omega) (by omega),
      toU64_of_range (by omega) (by omega)]
    split_ifs <;> omega
  have hleft := hclip size hend hsum
  have hright := hclip (n - k) (by omega) (by omega)
  unfold sfsRead
  simp only [hsize, hleft, hright]

private theorem sfsRead_index (hfh : ¬ handleOutOfRange fh) :
    sfsRead (handleIndex fh) size offset s = sfsRead fh size offset s := by
  obtain ⟨hindex, hin⟩ := handle_in_range (handleIndex_range hfh)
  rw [sfsRead, sfsRead, hindex, if_neg hin, if_neg hfh]

/-- **A read from below the end** gives what lies there, up to the end. -/
theorem Holds.sfsRead_below {strict : Prop} {held : Set Int} {w : List UInt8} {k : Nat}
    (hw : Holds s (inodeOf s (handleIndex fh)) w) (hs : Books strict A held s)
    (hA : inodeOf s (handleIndex fh) ∈ A) (hfh : ¬ handleOutOfRange fh)
    (hino : 0 ≤ inodeOf s (handleIndex fh)) (hlen : w.length ≤ 568320) (hk : k < w.length)
    (hsum : (k : Int) + size < 18446744073709551616) :
    sfsRead fh size k s = .ok (((w.drop k).take size).length, (w.drop k).take size) := by
  have hinside : ∀ n : Nat, k + n ≤ w.length →
      sfsRead fh n k s = .ok ((n : Int), (w.drop k).take n) := by
    intro n hn
    rw [← sfsRead_index hfh]
    exact hw.sfsRead_eq hs hA hino (handleIndex_range hfh) hlen hk hn
  by_cases hfit : k + size ≤ w.length
  · have hlength : ((w.drop k).take size).length = size := by
      rw [List.length_take, List.length_drop]
      omega
    rw [hlength]
    exact hinside size hfit
  · -- the size is cut down to the rest of the file
    have htake : (w.drop k).take size = (w.drop k).take (w.length - k) := by
      rw [List.take_eq_take_iff, List.length_drop]
      omega
    have hlength : ((w.drop k).take (w.length - k)).length = w.length - k := by
      rw [List.length_take, List.length_drop]
      omega
    rw [sfsRead_clip hw.size hk hlen (by omega) hsum, htake, hlength]
    exact hinside _ (by omega)

/-- **`sfs_read` in the file store.** -/
theorem Shows.read {data : List UInt8} (h : Shows s a) (hs : Sound s)
    (hok : StoreOk s (.read fh size offset)) (hrd : sfsRead fh size offset s = .ok (r, data)) :
    a.Step (.read fh size offset) (.bytes r data) a := by
  by_cases hfh : handleOutOfRange fh
  · rw [sfsRead, if_pos hfh] at hrd
    obtain ⟨rfl, rfl⟩ := Prod.mk.inj (Except.ok.inj hrd)
    exact .readClosed (h.behind_none (Or.inl hfh))
  by_cases hino : (s.openFiles (handleIndex fh)).stIno < 0
  · rw [sfsRead, if_neg hfh, if_pos hino] at hrd
    obtain ⟨rfl, rfl⟩ := Prod.mk.inj (Except.ok.inj hrd)
    exact .readClosed (h.behind_none (Or.inr hino))
  have hbehind : a.behind fh = some (s.openFiles (handleIndex fh)).stIno :=
    h.behind_some hfh (not_lt.mp hino)
  obtain ⟨hA, hF⟩ := hs.handles.onFile fh hfh (not_lt.mp hino)
  obtain ⟨hw, hlen⟩ := h.bytes _ hA hF
  by_cases hend : offset ≥ (s.inodeTable (s.openFiles (handleIndex fh)).stIno).stat.stSize
  · rw [sfsRead, if_neg hfh, if_neg hino, if_pos hend] at hrd
    obtain ⟨rfl, rfl⟩ := Prod.mk.inj (Except.ok.inj hrd)
    rw [hw.size] at hend
    exact .readEnd hbehind hend
  obtain ⟨h₀, hsum⟩ := hok
  obtain ⟨k, rfl⟩ := Int.eq_ofNat_of_zero_le h₀
  rw [hw.size] at hend
  have hk : k < (a.bytes (s.openFiles (handleIndex fh)).stIno).length := by omega
  have hread := hw.sfsRead_below hs.blocks.books hA hfh (not_lt.mp hino) hlen hk hsum
  rw [hread] at hrd
  obtain ⟨rfl, rfl⟩ := Prod.mk.inj (Except.ok.inj hrd)
  exact .read hbehind h₀ (Int.ofNat_lt.mpr hk)

end Files

section Runs

variable {s t : FS} {a : FileStore} {env : Env} {c : Call} {o : Reply}

private theorem serve_exec (hserve : serve env c s = .ok (o, t)) :
    ∃ r, exec env c s = .ok (r, t) := by
  cases c with
  | create path mode =>
      obtain ⟨⟨r, fh, u⟩, hu, heq⟩ := bind_ok.mp hserve
      obtain ⟨_, rfl⟩ := Prod.mk.inj (Except.ok.inj heq)
      exact ⟨r, bind_ok.mpr ⟨_, hu, rfl⟩⟩
  | openFile path =>
      obtain ⟨_, rfl⟩ := Prod.mk.inj (Except.ok.inj hserve)
      exact ⟨_, rfl⟩
  | read fh size offset =>
      obtain ⟨⟨r, data⟩, hu, heq⟩ := bind_ok.mp hserve
      obtain ⟨_, rfl⟩ := Prod.mk.inj (Except.ok.inj heq)
      exact ⟨r, bind_ok.mpr ⟨_, hu, rfl⟩⟩
  | mkdir _ _ | write _ _ _ _ | release _ | unlink _ | rmdir _ =>
      obtain ⟨⟨r, u⟩, hu, heq⟩ := bind_ok.mp hserve
      obtain ⟨_, rfl⟩ := Prod.mk.inj (Except.ok.inj heq)
      exact ⟨r, hu⟩

/-- **Every served call is a step of the file store**, with the same answer. -/
theorem Shows.serve (h : Shows s a) (hs : Sound s) (hok : StoreOk s c)
    (hserve : serve env c s = .ok (o, t)) : ∃ b, a.Step c o b ∧ Sound t ∧ Shows t b := by
  obtain ⟨r₀, hexec⟩ := serve_exec hserve
  have hsound : Sound t := hs.exec h hok ⟨env, r₀, hexec⟩
  have hsteps : ∃ b, a.Step c o b ∧ Shows t b := by
    cases c with
    | create path mode =>
        obtain ⟨⟨r, fh, u⟩, hu, heq⟩ := bind_ok.mp hserve
        obtain ⟨rfl, rfl⟩ := Prod.mk.inj (Except.ok.inj heq)
        exact h.create hs hok hu
    | mkdir path mode =>
        obtain ⟨⟨r, u⟩, hu, heq⟩ := bind_ok.mp hserve
        obtain ⟨rfl, rfl⟩ := Prod.mk.inj (Except.ok.inj heq)
        exact h.mkdir hs hok hu
    | openFile path =>
        obtain ⟨rfl, rfl⟩ := Prod.mk.inj (Except.ok.inj hserve)
        exact h.openFile hs hok rfl
    | write fh buf size offset =>
        obtain ⟨⟨r, u⟩, hu, heq⟩ := bind_ok.mp hserve
        obtain ⟨rfl, rfl⟩ := Prod.mk.inj (Except.ok.inj heq)
        exact h.write hs hok hu
    | read fh size offset =>
        obtain ⟨⟨r, data⟩, hu, heq⟩ := bind_ok.mp hserve
        obtain ⟨rfl, rfl⟩ := Prod.mk.inj (Except.ok.inj heq)
        exact ⟨a, h.read hs hok hu, h⟩
    | release fh =>
        obtain ⟨⟨r, u⟩, hu, heq⟩ := bind_ok.mp hserve
        obtain ⟨rfl, rfl⟩ := Prod.mk.inj (Except.ok.inj heq)
        obtain ⟨rfl, rfl⟩ := Prod.mk.inj (Except.ok.inj hu)
        exact h.release fh
    | unlink path =>
        obtain ⟨⟨r, u⟩, hu, heq⟩ := bind_ok.mp hserve
        obtain ⟨rfl, rfl⟩ := Prod.mk.inj (Except.ok.inj heq)
        exact h.unlink hs hok hu
    | rmdir path =>
        obtain ⟨⟨r, u⟩, hu, heq⟩ := bind_ok.mp hserve
        obtain ⟨rfl, rfl⟩ := Prod.mk.inj (Except.ok.inj heq)
        exact h.rmdir hs hok hu
  obtain ⟨b, hstep, hshows⟩ := hsteps
  exact ⟨b, hstep, hsound, hshows⟩

/-- **Served scripts are scripts of the file store.** -/
theorem Shows.script {ls : List (Env × Call)} {os : List Reply} (h : Shows s a) (hs : Sound s)
    (hscript : Runs.Script Replies s ls os t) :
    ∃ b, Runs.Script FileStore.Answers a ls os b ∧ Sound t ∧ Shows t b :=
  hscript.simulate (R := fun s a => Sound s ∧ Shows s a) (I := fun _ => True)
    (fun _ _ _ _ _ _ => trivial)
    (fun _ _ _ _ _ _ hR hstep => hR.2.serve hR.1 hstep.1 hstep.2) trivial ⟨hs, h⟩

/-- The invariants hold at first. -/
theorem sound_fresh (h : Fresh s) : Sound s :=
  ⟨fresh_tree h, (fresh_state h).blocks, (fresh_state h).handles⟩

/-- The root alone. -/
theorem shows_fresh (h : Fresh s) : Shows s .fresh := by
  have hfresh := fresh_state h
  have hroot := (fresh_tree h).root
  constructor
  case names =>
    intro p n
    dsimp only [FileStore.fresh]
    by_cases hp : p = [slash]
    · rw [if_pos hp, hp]
      constructor
      · intro heq
        refine ⟨0, hroot.1, hroot.2.1, ?_⟩
        rw [nodeOf, if_pos hroot.2.2]
        exact Option.some.inj heq
      · intro hfound
        obtain ⟨m, hm, _, hn⟩ := hfound
        obtain rfl := (hfresh.entry_iff m).mp hm
        rw [nodeOf, if_pos hroot.2.2] at hn
        rw [hn]
    · rw [if_neg hp]
      refine iff_of_false (by simp) ?_
      intro hfound
      obtain ⟨m, hm, hpath, _⟩ := hfound
      obtain rfl := (hfresh.entry_iff m).mp hm
      exact hp (hpath.symm.trans hroot.2.1)
  case handles =>
    intro fh id
    refine iff_of_false (by simp [FileStore.fresh]) ?_
    intro hfound
    obtain ⟨h₀, h₁, hid, heq⟩ := hfound
    rw [hfresh.opens fh h₀ h₁] at heq
    omega
  case bytes =>
    intro j hj hfile
    rw [hfresh.allocated_eq] at hj
    obtain rfl : j = 0 := hj
    rw [IsFile, hfresh.root_mode] at hfile
    exact absurd hfile (by decide)

/-- A file has one content. -/
theorem Holds.unique {j : Int} {w w' : List UInt8} (h : Holds s j w) (h' : Holds s j w') :
    w = w' := by
  have hlen : w.length = w'.length := by
    have hsize := h.size.symm.trans h'.size
    omega
  refine List.ext_getElem hlen fun k hk hk' => ?_
  have hpos : 512 * (k / 512) + k % 512 = k := Nat.div_add_mod k 512
  have hw := h.data (k / 512) (k % 512) (by omega) (by omega)
  have hw' := h'.data (k / 512) (k % 512) (by omega) (by omega)
  rw [hpos, List.getD_eq_getElem _ _ hk] at hw
  rw [hpos, List.getD_eq_getElem _ _ hk'] at hw'
  exact hw.symm.trans hw'

/-- **A state shows one store**: its names, its handles, and the bytes of the files with a name. -/
theorem Shows.unique {b : FileStore} (h : Shows s a) (h' : Shows s b) (hs : Sound s) :
    a.node = b.node ∧ a.opened = b.opened ∧
      ∀ p id, a.node p = some (.file id) → a.bytes id = b.bytes id := by
  refine ⟨?_, ?_, fun p id hid => ?_⟩
  · funext p
    exact Option.ext fun n => (h.names p n).trans (h'.names p n).symm
  · funext fh
    exact Option.ext fun id => (h.handles fh id).trans (h'.handles fh id).symm
  · obtain ⟨m, hm, _, hn⟩ := (h.names p _).mp hid
    by_cases hd : IsDir s m
    · rw [nodeOf, if_pos hd] at hn
      cases hn
    · rw [nodeOf, if_neg hd] at hn
      obtain rfl := Node.file.inj hn
      have hA := hs.tree.dir_allocated hm
      have hF : IsFile s (inoOf s m) := Bool.eq_false_iff.mpr hd
      exact (h.bytes _ hA hF).1.unique (h'.bytes _ hA hF).1

/-- **The file system answers as the file store does**, along every script of calls that can be
served, from a fresh mount on. -/
theorem answers_as_file_store {ls : List (Env × Call)} {os : List Reply} (h : Fresh s)
    (hscript : Runs.Script Replies s ls os t) :
    ∃ b, Runs.Script FileStore.Answers .fresh ls os b ∧ Shows t b := by
  obtain ⟨b, hanswers, _, hshows⟩ := (shows_fresh h).script (sound_fresh h) hscript
  exact ⟨b, hanswers, hshows⟩

/-- A call and its answer, by evaluation. -/
theorem replies_after (hok : StoreOk s c)
    (hres : (serve zeroEnv c s).toOption.map Prod.fst = some o) :
    Replies s (zeroEnv, c) o (after zeroEnv c s) := by
  refine ⟨hok, ?_⟩
  cases hserve : serve zeroEnv c s with
  | error e =>
      rw [hserve] at hres
      cases hres
  | ok p =>
      rw [hserve] at hres
      obtain rfl : p.1 = o := Option.some.inj hres
      obtain ⟨r, hexec⟩ := serve_exec hserve
      rw [after, hexec]

/-- `create /a` gets handle 0. -/
theorem replies_create : Replies firstMount (zeroEnv, .create (rootPath letterA) 0o100644)
    (.handle 0 0) (after zeroEnv (.create (rootPath letterA) 0o100644) firstMount) := by
  refine replies_after ⟨(fuseOk_root firstMount letterA (by decide +kernel)).1, trivial,
    fun _ _ => ?_⟩ (by decide +kernel)
  exact fits_root (fresh_tree fresh_firstMount) (by decide) (by decide +kernel)
    (by decide +kernel) (by decide +kernel)

/-- The write of one byte to it returns 1. -/
theorem replies_write (hs : after zeroEnv (.create (rootPath letterA) 0o100644) firstMount = s) :
    Replies s (zeroEnv, .write 0 (fun _ => 120) 1 0) (.result 1)
      (after zeroEnv (.write 0 (fun _ => 120) 1 0) s) := by
  have hsize : (s.inodeTable (inodeOf s (handleIndex 0))).stat.stSize = 0 := by
    rw [← hs]
    decide +kernel
  refine replies_after (fun _ _ _ => ?_) (by rw [← hs]; decide +kernel)
  rw [hsize]
  decide

/-- `create /a`, one byte, and a read of five bytes. -/
theorem answers_as_file_store_byte : ∃ b, Runs.Script FileStore.Answers .fresh
    [(zeroEnv, .create (rootPath letterA) 0o100644), (zeroEnv, .write 0 (fun _ => 120) 1 0),
      (zeroEnv, .read 0 5 0)]
    [.handle 0 0, .result 1, .bytes 1 [120]] b := by
  have hcreate := replies_create
  generalize hs : after zeroEnv (.create (rootPath letterA) 0o100644) firstMount = s at hcreate
  have hread : Replies (after zeroEnv (.write 0 (fun _ => 120) 1 0) s) (zeroEnv, .read 0 5 0)
      (.bytes 1 [120])
      (after zeroEnv (.read 0 5 0) (after zeroEnv (.write 0 (fun _ => 120) 1 0) s)) :=
    replies_after ⟨by decide, by decide⟩ (by rw [← hs]; decide +kernel)
  obtain ⟨b, hanswers, _⟩ := answers_as_file_store fresh_firstMount
    (.call hcreate (.call (replies_write hs) (.call hread (.done _))))
  exact ⟨b, hanswers⟩

end Runs

end Sfs
