import CS416.Sfs.FileStore

/-!
# Stored bytes

In the file store a file keeps its name and its bytes until it is unlinked,
and its bytes only become more.  So does a file of the file system: what was
read from it is read again later, whatever other calls come between.
-/

namespace Sfs

open CInt

namespace FileStore

variable {a b : FileStore} {c : Call} {o : Reply} {p path : Path} {id : Int}

private theorem name_node_ne {n : Option Node} (h : p ≠ path) : (a.name path n).node p = a.node p :=
  Function.update_of_ne h _ _

private theorem bytes_prefix_store {id' : Int} {data : List UInt8} (h : id ≠ id') :
    a.bytes id <+: (a.store id' data).bytes id := by
  have hbytes : (a.store id' data).bytes id = a.bytes id := Function.update_of_ne h _ _
  rw [hbytes]

/-- A file in the store has not an unused identity. -/
theorem Unused.ne (h : a.Unused id) {id' : Int} (hp : a.node p = some (.file id')) : id' ≠ id := by
  rintro rfl
  exact h.1 p hp

/-- **A call keeps the file `p`** unless it unlinks it, and keeps its bytes. -/
theorem Step.bytes_kept (h : a.Step c o b) (hc : c ≠ .unlink p)
    (hp : a.node p = some (.file id)) :
    b.node p = some (.file id) ∧ a.bytes id <+: b.bytes id := by
  have hne : ∀ {q : Path} {n : Option Node}, a.node q = n → n ≠ some (.file id) → p ≠ q := by
    intro q n hq hn heq
    rw [← heq] at hq
    exact hn (hq.symm.trans hp)
  cases h with
  | create hnone _ hunused _ =>
      exact ⟨(name_node_ne (hne hnone (by simp))).trans hp,
        bytes_prefix_store (a := a.name _ _) (hunused.ne hp)⟩
  | createUnopened hnone _ hunused _ =>
      exact ⟨(name_node_ne (hne hnone (by simp))).trans hp,
        bytes_prefix_store (a := a.name _ _) (hunused.ne hp)⟩
  | mkdir hnone _ =>
      exact ⟨(name_node_ne (hne hnone (by simp))).trans hp, List.prefix_rfl⟩
  | @write _ buf size id' _ hbehind _ =>
      refine ⟨hp, ?_⟩
      by_cases hid : id = id'
      · subst hid
        have hself : (a.store id (a.bytes id ++ (List.range size).map buf)).bytes id =
            a.bytes id ++ (List.range size).map buf := Function.update_self ..
        rw [hself]
        exact List.prefix_append _ _
      · exact bytes_prefix_store hid
  | unlink _ =>
      refine ⟨(name_node_ne ?_).trans hp, List.prefix_rfl⟩
      rintro rfl
      exact hc rfl
  | rmdir hdir _ =>
      exact ⟨(name_node_ne (hne hdir (by simp))).trans hp, List.prefix_rfl⟩
  | _ => exact ⟨hp, List.prefix_rfl⟩

/-- **A script keeps the file `p`** that it does not unlink. -/
theorem bytes_kept_along {ls : List (Env × Call)} {os : List Reply}
    (h : Runs.Script Answers a ls os b) (hno : ∀ l ∈ ls, l.2 ≠ .unlink p)
    (hp : a.node p = some (.file id)) :
    b.node p = some (.file id) ∧ a.bytes id <+: b.bytes id := by
  induction h with
  | done a => exact ⟨hp, List.prefix_rfl⟩
  | call hstep _ ih =>
      obtain ⟨hp', hpre⟩ := Step.bytes_kept hstep (hno _ List.mem_cons_self) hp
      obtain ⟨hend, hpre'⟩ := ih (fun l hl => hno l (List.mem_cons_of_mem _ hl)) hp'
      exact ⟨hend, hpre.trans hpre'⟩

end FileStore

section Reads

variable {s t u : FS} {a : FileStore} {m : Int}

/-- A read below the size of the file `ino` is answered in `t` as in `s`, whatever handles it
goes through. -/
def ReadsKept (s t : FS) (ino : Int) : Prop :=
  ∀ (fh fh' : Int) (size offset : Nat), ¬ handleOutOfRange fh → ¬ handleOutOfRange fh' →
    inodeOf s (handleIndex fh) = ino → inodeOf t (handleIndex fh') = ino →
    (offset : Int) < (s.inodeTable ino).stat.stSize →
    (offset : Int) + size ≤ (s.inodeTable ino).stat.stSize →
    sfsRead fh' size offset t = sfsRead fh size offset s

/-- A file of the table is a file of the store. -/
theorem Shows.file (h : Shows s a) (hm : Entry s m) (hfile : ¬ IsDir s m) :
    a.node (pathOf s m) = some (.file (inoOf s m)) := by
  rw [h.names.some_of_entry hm, nodeOf, if_neg hfile]

/-- The bytes of a file with a name. -/
theorem Shows.holds (h : Shows s a) (hs : Sound s) (hm : Entry s m) (hfile : ¬ IsDir s m) :
    Holds s (inoOf s m) (a.bytes (inoOf s m)) ∧ (a.bytes (inoOf s m)).length ≤ 568320 :=
  h.bytes _ (hs.tree.dir_allocated hm) (Bool.eq_false_iff.mpr hfile)

/-- **Bytes that are kept are read again.** -/
theorem Holds.readsKept {i : Int} {w w' : List UInt8} (hs : Sound s) (ht : Sound t)
    (hi : i ∈ allocated s) (hi' : i ∈ allocated t) (hw : Holds s i w) (hw' : Holds t i w')
    (hpre : w <+: w') (hlen : w'.length ≤ 568320) : ReadsKept s t i := by
  intro fh fh' size offset hfh hfh' hopen hopen' hoff hend
  rw [hw.size] at hoff hend
  have hle := hpre.length_le
  obtain ⟨rest, rfl⟩ := hpre
  subst hopen
  rw [← hopen'] at hw' hi'
  have hread : sfsRead fh size offset s =
      .ok (((w.drop offset).take size).length, (w.drop offset).take size) :=
    hw.sfsRead_below hs.blocks.books hi hfh hi.1 (by omega) (by omega) (by omega)
  have hread' : sfsRead fh' size offset t =
      .ok ((((w ++ rest).drop offset).take size).length, ((w ++ rest).drop offset).take size) :=
    hw'.sfsRead_below ht.blocks.books hi' hfh' hi'.1 hlen (by omega) (by omega)
  have hsame : ((w ++ rest).drop offset).take size = (w.drop offset).take size := by
    rw [List.drop_append_of_le_length (by omega),
      List.take_append_of_le_length (by rw [List.length_drop]; omega)]
  rw [hread, hread', hsame]

/-- **A file keeps its bytes until it is unlinked.**  Along every script that can be served, from
any state of such a run on, a file that is not unlinked keeps its inode, and every read of a range
of it is answered as before. -/
theorem bytes_kept_until_unlinked {ls ls' : List (Env × Call)} {os os' : List Reply}
    (h : Fresh s) (hscript : Runs.Script Replies s ls os u)
    (hrest : Runs.Script Replies u ls' os' t) (hm : Entry u m) (hfile : ¬ IsDir u m)
    (hno : ∀ l ∈ ls', l.2 ≠ .unlink (pathOf u m)) :
    ∃ n, Entry t n ∧ pathOf t n = pathOf u m ∧ inoOf t n = inoOf u m ∧ ¬ IsDir t n ∧
      ReadsKept u t (inoOf u m) := by
  obtain ⟨a, _, hu, hshows⟩ := (shows_fresh h).script (sound_fresh h) hscript
  obtain ⟨b, hanswers, ht, hshows'⟩ := hshows.script hu hrest
  obtain ⟨hp, hpre⟩ := FileStore.bytes_kept_along hanswers hno (hshows.file hm hfile)
  obtain ⟨n, hn, hpath, hnode⟩ := (hshows'.names _ _).mp hp
  have hdir : ¬ IsDir t n := by
    intro hd
    rw [nodeOf, if_pos hd] at hnode
    cases hnode
  have hino : inoOf t n = inoOf u m := by
    rw [nodeOf, if_neg hdir] at hnode
    exact Node.file.inj hnode
  obtain ⟨hw, _⟩ := hshows.holds hu hm hfile
  obtain ⟨hw', hlen⟩ := hshows'.holds ht hn hdir
  have hA := ht.tree.dir_allocated hn
  rw [hino] at hw' hlen hA
  exact ⟨n, hn, hpath, hino, hdir, hw.readsKept hu ht (hu.tree.dir_allocated hm) hA hw' hpre hlen⟩

/-- `create /a`, a byte, and another byte: the first byte is read as before. -/
theorem bytes_kept_until_unlinked_byte : ∃ u t, sfsRead 0 1 0 u = .ok (1, [120]) ∧
    (t.inodeTable 1).stat.stSize = 2 ∧ sfsRead 0 1 0 t = sfsRead 0 1 0 u := by
  have hcreate := replies_create
  generalize hs : after zeroEnv (.create (rootPath letterA) 0o100644) firstMount = s at hcreate
  have hwrite := replies_write hs
  generalize hu : after zeroEnv (.write 0 (fun _ => 120) 1 0) s = u at hwrite
  have hmore : Replies u (zeroEnv, .write 0 (fun _ => 121) 1 1) (.result 1)
      (after zeroEnv (.write 0 (fun _ => 121) 1 1) u) := by
    have hsize : (u.inodeTable (inodeOf u (handleIndex 0))).stat.stSize = 1 := by
      rw [← hu, ← hs]
      decide +kernel
    refine replies_after (fun _ _ _ => ?_) (by rw [← hu, ← hs]; decide +kernel)
    rw [hsize]
    decide
  obtain ⟨_, _, _, _, _, hreads⟩ := bytes_kept_until_unlinked (m := 1) fresh_firstMount
    (.call hcreate (.call hwrite (.done u))) (.call hmore (.done _))
    (by rw [← hu, ← hs]; decide +kernel) (by rw [← hu, ← hs]; decide +kernel) (by simp)
  refine ⟨u, _, by rw [← hu, ← hs]; decide +kernel, by rw [← hu, ← hs]; decide +kernel,
    hreads 0 0 1 0 (by decide) (by decide) ?_ ?_ ?_ ?_⟩ <;> rw [← hu, ← hs] <;> decide +kernel

end Reads

end Sfs
