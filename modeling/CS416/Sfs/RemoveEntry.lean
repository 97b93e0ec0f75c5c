import CS416.Sfs.Names

/-!
# Removing an entry from a directory text

`removeSubstring` deletes every place at which the text of an entry occurs, not
the entry.  Names may be digits, so an inode number and the name behind it can
read like another entry; then more is deleted, or something else.
-/

namespace Sfs

open CString

/-- The entries of a directory, one behind the other. -/
def entriesText (entries : List (Path × Int)) : Path :=
  entries.flatMap fun e => dirEntry e.1 e.2

/-- The text of a directory: `./i/../j` and its entries. -/
def dirText (ino parent : Int) (entries : List (Path × Int)) : Path :=
  dirHeader ino parent ++ entriesText entries

/-- Entries with different names, which are not empty and have no slash, and different
inode numbers. -/
structure Entries (entries : List (Path × Int)) : Prop where
  name_ne : ∀ e ∈ entries, e.1 ≠ []
  slash_notMem : ∀ e ∈ entries, slash ∉ e.1
  names : (entries.map Prod.fst).Nodup
  inodes : (entries.map Prod.snd).Nodup

/-- An occurrence of `pat` starts in `before`, when `rest` stands behind it. -/
def StartsIn (pat before rest : Path) : Prop :=
  ∃ a b, before = a ++ b ∧ b ≠ [] ∧ pat <+: b ++ rest

section Loop

variable {pat s before rest : Path}

private theorem removeLoop_nil (hpat : pat ≠ []) (n : Nat) : removeLoop pat n [] = [] := by
  cases n <;> simp [removeLoop, strstr, hpat]

/-- Each round deletes `pat`, so no more rounds are needed than the text is long. -/
theorem removeLoop_fuel (hpat : pat ≠ []) {n m : Nat} (hn : s.length ≤ n) (hm : s.length ≤ m) :
    removeLoop pat n s = removeLoop pat m s := by
  induction n generalizing m s with
  | zero =>
      obtain rfl := List.length_eq_zero_iff.mp (Nat.le_zero.mp hn)
      rw [removeLoop_nil hpat, removeLoop_nil hpat]
  | succ n ih =>
      cases m with
      | zero =>
          obtain rfl := List.length_eq_zero_iff.mp (Nat.le_zero.mp hm)
          rw [removeLoop_nil hpat, removeLoop_nil hpat]
      | succ m =>
          cases hfind : strstr pat s with
          | none => simp only [removeLoop, hfind]
          | some r =>
              simp only [removeLoop, hfind]
              obtain ⟨hs, _⟩ := strstr_some hfind
              have hlen := congrArg List.length hs
              rw [List.length_append] at hlen
              have hpos := List.length_pos_iff.mpr hpat
              have hn' : (r.2.drop pat.length).length ≤ n := by
                rw [List.length_drop]
                omega
              have hm' : (r.2.drop pat.length).length ≤ m := by
                rw [List.length_drop]
                omega
              rw [ih hn' hm']

private theorem removeLoop_length_le (n : Nat) : (removeLoop pat n s).length ≤ s.length := by
  induction n generalizing s with
  | zero => exact le_refl _
  | succ n ih =>
      cases hfind : strstr pat s with
      | none => simp only [removeLoop, hfind, le_refl]
      | some r =>
          have hrest : (removeLoop pat n (r.2.drop pat.length)).length ≤
              (r.2.drop pat.length).length := ih
          have hlen := congrArg List.length (strstr_some hfind).1
          simp only [removeLoop, hfind, List.length_append, List.length_drop] at hrest hlen ⊢
          omega

/-- Where the pattern does not occur, nothing is removed. -/
theorem removeSubstring_of_notInfix (h : ¬ pat <:+: s) : removeSubstring s pat = s := by
  unfold removeSubstring
  cases hlen : s.length with
  | zero => rfl
  | succ n =>
      cases hfind : strstr pat s with
      | none => simp only [removeLoop, hfind]
      | some r =>
          obtain ⟨hs, hpre⟩ := strstr_some hfind
          refine absurd ?_ h
          rw [hs]
          exact hpre.isInfix.trans (List.suffix_append _ _).isInfix

/-- The first occurrence is deleted, and the search goes on behind it. -/
theorem removeSubstring_of_strstr (hpat : pat ≠ [])
    (h : strstr pat s = some (before, pat ++ rest)) :
    removeSubstring s pat = before ++ removeSubstring rest pat := by
  have hlen := congrArg List.length (strstr_some h).1
  have hpos := List.length_pos_iff.mpr hpat
  simp only [List.length_append] at hlen
  obtain ⟨n, hn⟩ : ∃ n, s.length = n + 1 := ⟨s.length - 1, by omega⟩
  unfold removeSubstring
  rw [hn]
  simp only [removeLoop, h, List.drop_left]
  rw [removeLoop_fuel hpat (by omega) (le_refl rest.length)]

private theorem removeSubstring_length_lt (hpat : pat ≠ []) (h : pat <:+: s) :
    (removeSubstring s pat).length < s.length := by
  obtain ⟨before, rest, hfind⟩ := strstr_of_infix h
  have hlen := congrArg List.length (strstr_some hfind).1
  have hpos := List.length_pos_iff.mpr hpat
  have hrest : (removeSubstring rest pat).length ≤ rest.length := removeLoop_length_le _
  rw [removeSubstring_of_strstr hpat hfind]
  simp only [List.length_append] at hlen ⊢
  omega

end Loop

section Fields

/-- The characters of a number in decimal are digits. -/
theorem isDigit_toNat {c : Char} (h : c.isDigit = true) : 48 ≤ c.toNat ∧ c.toNat ≤ 57 := by
  simp only [Char.isDigit, Bool.and_eq_true, decide_eq_true_eq] at h
  exact ⟨UInt32.le_iff_toNat_le.mp h.1, UInt32.le_iff_toNat_le.mp h.2⟩

/-- The bytes of a number in decimal. -/
def digits (n : Nat) : Path := (Nat.toDigits 10 n).map fun c => UInt8.ofNat c.toNat

private theorem showInt_eq (n : Int) :
    showInt n = if n < 0 then 45 :: digits n.natAbs else digits n.natAbs := rfl

private theorem le_of_mem_digits {n : Nat} {b : UInt8} (h : b ∈ digits n) : 48 ≤ b.toNat := by
  obtain ⟨c, hc, rfl⟩ := List.mem_map.mp h
  have hd := isDigit_toNat (Nat.isDigit_of_mem_toDigits (by decide) (by decide) hc)
  rw [UInt8.toNat_ofNat']
  omega

/-- The digits of a number can be read back. -/
theorem digits_inj {m n : Nat} (h : digits m = digits n) : m = n := by
  have hback : ∀ k, (digits k).map (fun b => Char.ofNat b.toNat) = Nat.toDigits 10 k := by
    intro k
    have hchar : ∀ c ∈ Nat.toDigits 10 k,
        ((fun b : UInt8 => Char.ofNat b.toNat) ∘ fun c : Char => UInt8.ofNat c.toNat) c =
          id c := by
      intro c hc
      have hd := isDigit_toNat (Nat.isDigit_of_mem_toDigits (by decide) (by decide) hc)
      have hbyte : (UInt8.ofNat c.toNat).toNat = c.toNat := by
        rw [UInt8.toNat_ofNat']
        omega
      simp only [Function.comp, hbyte, Char.ofNat_toNat, id]
    rw [digits, List.map_map, List.map_congr_left hchar, List.map_id]
  rw [← Nat.ofDigitChars_ten_toDigits (n := m), ← hback m, h, hback n,
    Nat.ofDigitChars_ten_toDigits]

/-- Two numbers are printed differently. -/
theorem showInt_inj {m n : Int} (h : showInt m = showInt n) : m = n := by
  have hminus : ∀ (a b : Nat), 45 :: digits a ≠ digits b := by
    intro a b heq
    have hmem : (45 : UInt8) ∈ digits b := heq ▸ List.mem_cons_self
    exact absurd (le_of_mem_digits hmem) (by decide)
  rw [showInt_eq, showInt_eq] at h
  split_ifs at h with hm hn hn
  · have habs := digits_inj (List.cons.inj h).2
    omega
  · exact absurd h (hminus _ _)
  · exact absurd h.symm (hminus _ _)
  · have habs := digits_inj h
    omega

/-- A printed number consists of digits and a sign. -/
theorem mem_showInt {n : Int} {b : UInt8} (h : b ∈ showInt n) : b = 45 ∨ 48 ≤ b.toNat := by
  rw [showInt_eq] at h
  split at h
  · rcases List.mem_cons.mp h with rfl | h
    · exact Or.inl rfl
    · exact Or.inr (le_of_mem_digits h)
  · exact Or.inr (le_of_mem_digits h)

/-- There is no slash in it. -/
theorem slash_notMem_showInt (n : Int) : slash ∉ showInt n := fun h =>
  absurd (mem_showInt h) (by decide)

private theorem dot_notMem_showInt (n : Int) : dot ∉ showInt n := fun h =>
  absurd (mem_showInt h) (by decide)

/-- The number of an inode has at most three digits. -/
theorem length_showInt {n : Int} (h₀ : 0 ≤ n) (h₁ : n < 128) : (showInt n).length ≤ 3 := by
  have hall : ∀ k : Fin 128, (showInt (k : Nat)).length ≤ 3 := by decide
  obtain ⟨k, rfl⟩ : ∃ k : Nat, n = k := ⟨n.toNat, by omega⟩
  exact hall ⟨k, by omega⟩

theorem showInt_ne_nil (n : Int) : showInt n ≠ [] := by
  rw [showInt_eq]
  split
  · exact List.cons_ne_nil _ _
  · exact fun h => Nat.toDigits_ne_nil (List.map_eq_nil_iff.mp h)

private theorem showInt_append_ne (n : Int) (u v : Path) : showInt n ++ u ≠ dot :: v := by
  intro h
  cases hshow : showInt n with
  | nil => exact showInt_ne_nil n hshow
  | cons b ds =>
      rw [hshow] at h
      apply dot_notMem_showInt n
      rw [hshow, (List.cons.inj h).1]
      exact List.mem_cons_self

theorem dirEntry_ne_nil (name : Path) (ino : Int) : dirEntry name ino ≠ [] := List.cons_ne_nil _ _

end Fields

section Removal

variable {i j ino : Int} {name : Path} {before after : List (Path × Int)}

/-- The text of a directory around one of its entries. -/
theorem dirText_split (i j : Int) (before after : List (Path × Int)) (name : Path) (ino : Int) :
    dirText i j (before ++ (name, ino) :: after) =
      dirText i j before ++ (dirEntry name ino ++ entriesText after) := by
  simp [dirText, entriesText]

/-- The text without it. -/
theorem dirText_without (i j : Int) (before after : List (Path × Int)) :
    dirText i j (before ++ after) = dirText i j before ++ entriesText after := by
  simp [dirText, entriesText]

/-- A text whose only occurrence before the entry's end is the entry. -/
theorem removeSubstring_here {pat left right : Path} (hpat : pat ≠ [])
    (hleft : ¬ StartsIn pat left (pat ++ right)) (hright : ¬ pat <:+: right) :
    removeSubstring (left ++ (pat ++ right)) pat = left ++ right := by
  have hfind : strstr pat (left ++ (pat ++ right)) = some (left, pat ++ right) := by
    apply strstr_eq_some hpat (List.prefix_append _ _)
    intro a b hab hb hpre
    exact hleft ⟨a, b, hab, hb, hpre⟩
  rw [removeSubstring_of_strstr hpat hfind, removeSubstring_of_notInfix hright]

/-- If the right text is left, it was an occurrence that starts in `left`, or the one behind it,
that was deleted, and no other. -/
theorem removeSubstring_here_cases {pat left right : Path} (hpat : pat ≠ [])
    (h : removeSubstring (left ++ (pat ++ right)) pat = left ++ right) :
    (¬ StartsIn pat left (pat ++ right) ∧ ¬ pat <:+: right) ∨
      ∃ a c, left = a ++ c ∧ c ≠ [] ∧ pat ++ c = c ++ pat ∧ ¬ pat <:+: c ++ right := by
  have hin : pat <:+: left ++ (pat ++ right) := ⟨left, right, List.append_assoc _ _ _⟩
  obtain ⟨a, r, hfind⟩ := strstr_of_infix hin
  obtain ⟨htext, _⟩ := strstr_some hfind
  rw [removeSubstring_of_strstr hpat hfind] at h
  have hle : a.length ≤ left.length := strstr_first hfind rfl (List.prefix_append _ _)
  -- nothing else was deleted
  have hr : ¬ pat <:+: r := by
    intro hin'
    have hlt := removeSubstring_length_lt hpat hin'
    have hlen := congrArg List.length h
    have hlen' := congrArg List.length htext
    simp only [List.length_append] at hlen hlen'
    omega
  rw [removeSubstring_of_notInfix hr] at h
  obtain ⟨c, rfl⟩ : ∃ c, left = a ++ c :=
    (List.prefix_of_prefix_length_le ⟨_, htext.symm⟩ (List.prefix_append left _) hle).imp
      fun c hc => hc.symm
  rw [List.append_assoc, List.append_cancel_left_eq] at h htext
  subst r
  by_cases hc : c = []
  · subst c
    left
    refine ⟨?_, hr⟩
    intro hstart
    obtain ⟨a', b', heq, hb', hpre⟩ := hstart
    rw [List.append_nil] at heq hfind
    have hfirst : a.length ≤ a'.length := by
      apply strstr_first hfind _ hpre
      rw [heq, List.append_assoc]
    have hlen := congrArg List.length heq
    have hpos := List.length_pos_iff.mpr hb'
    rw [List.length_append] at hlen
    omega
  · right
    refine ⟨a, c, rfl, hc, ?_, hr⟩
    have hcomm : (pat ++ c) ++ right = (c ++ pat) ++ right := by
      rw [List.append_assoc, List.append_assoc]
      exact htext.symm
    exact List.append_cancel_right hcomm

/-- An entry that can be moved across `c` and does not occur in it: `c` is `/name`, and the
name reads like the number. -/
theorem dirEntry_commutes {c right : Path} (hname : slash ∉ name) (hc : c ≠ [])
    (hcomm : dirEntry name ino ++ c = c ++ dirEntry name ino)
    (hin : ¬ dirEntry name ino <:+: c ++ right) :
    c = slash :: name ∧ name = showInt ino := by
  have hnot : ¬ dirEntry name ino <+: c := fun h => hin (h.trans (List.prefix_append _ _)).isInfix
  -- so `c` is a proper part of the entry, and the rest of it starts with a slash as well
  have hlen : c.length < (dirEntry name ino).length := by
    by_contra hge
    exact hnot (List.prefix_of_prefix_length_le ⟨c, hcomm⟩ (List.prefix_append c _)
      (not_lt.mp hge))
  obtain ⟨d, hd⟩ : c <+: dirEntry name ino :=
    List.prefix_of_prefix_length_le (List.prefix_append c _) ⟨c, hcomm⟩ (le_of_lt hlen)
  have hdc : d ++ c = dirEntry name ino := by
    rw [← hd, List.append_assoc, List.append_cancel_left_eq] at hcomm
    rw [hcomm, hd]
  obtain ⟨c', rfl⟩ : ∃ c', c = slash :: c' := by
    cases c with
    | nil => exact absurd rfl hc
    | cons b c' => exact ⟨c', by rw [(List.cons.inj hd).1]⟩
  obtain ⟨d', rfl⟩ : ∃ d', d = slash :: d' := by
    cases d with
    | nil =>
        rw [← hd, List.append_nil] at hlen
        omega
    | cons b d' => exact ⟨d', by rw [(List.cons.inj hdc).1]⟩
  have hfields : name ++ slash :: showInt ino = c' ++ slash :: d' := (List.cons.inj hd).2.symm
  obtain ⟨rfl, _, rfl⟩ := (List.append_cons_inj_of_notMem hname
    (slash_notMem_showInt ino)).mp hfields
  have hswap : showInt ino ++ slash :: name = name ++ slash :: showInt ino :=
    (List.cons.inj hdc).2
  exact ⟨rfl, (field_inj (slash_notMem_showInt ino) hname hswap).1.symm⟩

/-- Where the entry's text is the only thing that gets deleted: it does not occur from an
earlier place on, nor behind the entry; or the entry stands first, it reads `/j/j` for the
`j` of the header, and only one of the three is deleted. -/
def DeletedOnce (i j : Int) (before : List (Path × Int)) (name : Path) (ino : Int)
    (after : List (Path × Int)) : Prop :=
  (¬ StartsIn (dirEntry name ino) (dirText i j before)
      (dirEntry name ino ++ entriesText after) ∧
    ¬ dirEntry name ino <:+: entriesText after) ∨
  (before = [] ∧ name = showInt j ∧ ino = j ∧
    ¬ dirEntry name ino <:+: slash :: name ++ entriesText after)

/-- The number that a text ends with. -/
theorem dirText_ends (i j : Int) (before : List (Path × Int)) :
    ∃ text, dirText i j before = text ++ slash :: showInt ((before.map Prod.snd).getLastD j) := by
  rcases List.eq_nil_or_concat before with rfl | ⟨init, e, rfl⟩
  · refine ⟨dot :: slash :: showInt i ++ slash :: dot :: [dot], ?_⟩
    simp [dirText, entriesText, dirHeader]
  · refine ⟨dirText i j init ++ slash :: e.1, ?_⟩
    simp [dirText, entriesText, dirEntry]

/-- An entry `/j/j` behind the header does not occur from an earlier place on. -/
theorem not_startsIn_header (i j : Int) (rest : Path) :
    ¬ StartsIn (dirEntry (showInt j) j) (dot :: slash :: showInt i ++ slash :: dot :: [dot])
      rest := by
  intro h
  obtain ⟨a, b, hab, hb, z, hz⟩ := h
  obtain ⟨b', rfl⟩ : ∃ b', b = slash :: b' := by
    cases b with
    | nil => exact absurd rfl hb
    | cons c b' => exact ⟨b', by rw [← (List.cons.inj hz).1]⟩
  have hfields : showInt j ++ slash :: (showInt j ++ z) = b' ++ rest := by
    have htail := (List.cons.inj hz).2
    simpa using htail
  -- the slash is the first of the header or the second
  cases a with
  | nil => exact absurd (List.cons.inj hab).1 (by decide)
  | cons _ a =>
      cases a with
      | nil =>
          have hb' : b' = showInt i ++ slash :: dot :: [dot] :=
            (List.cons.inj (List.cons.inj hab).2).2.symm
          rw [hb', List.append_assoc] at hfields
          have hnext := (field_inj (slash_notMem_showInt j) (slash_notMem_showInt i) hfields).2
          exact showInt_append_ne j _ _ hnext
      | cons _ a =>
          have htail : showInt i ++ slash :: dot :: [dot] = a ++ slash :: b' :=
            (List.cons.inj (List.cons.inj hab).2).2
          have hdots : slash ∉ dot :: [dot] := by decide
          have hb' := ((List.append_cons_inj_of_notMem (slash_notMem_showInt i) hdots).mp
            htail).2.2
          rw [← hb'] at hfields
          exact showInt_append_ne j _ _ hfields

/-- **When an entry is removed exactly**, whatever the number of rounds that the loop may
take from the length of the text on. -/
theorem removes_entry_iff (h : Entries (before ++ (name, ino) :: after)) :
    (∀ rounds, (dirText i j (before ++ (name, ino) :: after)).length ≤ rounds →
      removeLoop (dirEntry name ino) rounds (dirText i j (before ++ (name, ino) :: after)) =
        dirText i j (before ++ after)) ↔
      DeletedOnce i j before name ino after := by
  have hne := dirEntry_ne_nil name ino
  have hname : slash ∉ name := h.slash_notMem (name, ino) (by simp)
  have hrounds : (∀ rounds, (dirText i j (before ++ (name, ino) :: after)).length ≤ rounds →
      removeLoop (dirEntry name ino) rounds (dirText i j (before ++ (name, ino) :: after)) =
        dirText i j (before ++ after)) ↔
      removeSubstring (dirText i j before ++ (dirEntry name ino ++ entriesText after))
        (dirEntry name ino) = dirText i j before ++ entriesText after := by
    rw [← dirText_split, ← dirText_without]
    constructor
    · intro hloop
      exact hloop _ le_rfl
    · intro hloop rounds hlen
      rw [removeLoop_fuel hne hlen le_rfl]
      exact hloop
  rw [hrounds]
  constructor
  · intro hremove
    rcases removeSubstring_here_cases hne hremove with hhere | ⟨a, c, hleft, hc, hcomm, hin⟩
    · exact Or.inl hhere
    · right
      obtain ⟨rfl, hshow⟩ := dirEntry_commutes hname hc hcomm hin
      -- the text before the entry ends with the name, which reads like the entry's number
      obtain ⟨text, htext⟩ := dirText_ends i j before
      have hlast : name = showInt ((before.map Prod.snd).getLastD j) := by
        apply (last_field_inj hname (slash_notMem_showInt _) _).2
        · exact a
        · exact text
        · rw [← hleft, htext]
      have hino := showInt_inj (hshow.symm.trans hlast)
      rcases List.eq_nil_or_concat before with rfl | ⟨init, e, rfl⟩
      · exact ⟨rfl, hlast, hino, hin⟩
      · exfalso
        have hnodup := h.inodes
        simp only [List.concat_eq_append, List.map_append, List.map_cons, List.map_nil,
          List.getLastD_concat] at hino hnodup
        simp [hino, List.nodup_append] at hnodup
  · intro hdeleted
    rcases hdeleted with ⟨hstart, hin⟩ | ⟨rfl, rfl, rfl, hin⟩
    · exact removeSubstring_here hne hstart hin
    · have hheader : dirText i ino [] =
          (dot :: slash :: showInt i ++ slash :: dot :: [dot]) ++ slash :: showInt ino := by
        simp [dirText, entriesText, dirHeader]
      have hmove : removeSubstring
          ((dot :: slash :: showInt i ++ slash :: dot :: [dot]) ++
            (dirEntry (showInt ino) ino ++ (slash :: showInt ino ++ entriesText after)))
          (dirEntry (showInt ino) ino) =
          (dot :: slash :: showInt i ++ slash :: dot :: [dot]) ++
            (slash :: showInt ino ++ entriesText after) :=
        removeSubstring_here hne (not_startsIn_header i ino _) hin
      rw [hheader]
      simpa [dirEntry] using hmove

/-- Files `a`, `3` and `1` in the root directory, with the inodes 1, 2 and 3. -/
def threeEntries : List (Path × Int) := [([97], 1), ([51], 2), ([49], 3)]

private theorem entries_threeEntries : Entries threeEntries := by
  constructor <;> decide

/-- The second file is deleted once, the third is not. -/
theorem removes_entry_threeEntries :
    DeletedOnce 0 0 [([97], 1)] [51] 2 [([49], 3)] ∧
      ¬ DeletedOnce 0 0 [([97], 1), ([51], 2)] [49] 3 [] := by
  constructor
  · have hentries : Entries ([([97], 1)] ++ ([51], 2) :: [([49], 3)]) := entries_threeEntries
    apply (removes_entry_iff hentries).mp
    intro rounds hlen
    rw [removeLoop_fuel (dirEntry_ne_nil _ _) hlen le_rfl]
    decide +kernel
  · intro hdeleted
    have hentries : Entries ([([97], 1), ([51], 2)] ++ ([49], 3) :: []) := entries_threeEntries
    have hremove := (removes_entry_iff hentries).mpr hdeleted _ le_rfl
    exact absurd hremove (by decide +kernel)

/-- Removing file `1` with inode 3: the number of `a` and the name `3` go first. -/
theorem removes_neighbours :
    ¬ ∀ (i j ino : Int) (name : Path) (before after : List (Path × Int)),
      Entries (before ++ (name, ino) :: after) →
      removeSubstring (dirText i j (before ++ (name, ino) :: after)) (dirEntry name ino) =
        dirText i j (before ++ after) := by
  intro hclaim
  have hremove := hclaim 0 0 3 [49] [([97], 1), ([51], 2)] [] entries_threeEntries
  exact absurd hremove (by decide +kernel)

end Removal

end Sfs
