import Mathlib

/-!
# C strings as lists

A C string is the list of the bytes before its terminator.  The functions of
the C library used by the programs are written over an arbitrary type of
characters: `strstr` splits a string at the first occurrence of another,
`strtok` is the whole sequence of tokens between runs of one delimiter.
-/

namespace CString

variable {α : Type*} [DecidableEq α]

/-- The string stored in a byte sequence: everything before the first `nul`. -/
def stringAt (nul : α) (bytes : List α) : List α := bytes.takeWhile (· ≠ nul)

/-- `strstr`: the text before the first occurrence of `pat`, and the text from
that occurrence on. -/
def strstr (pat : List α) : List α → Option (List α × List α)
  | [] => if pat = [] then some ([], []) else none
  | c :: cs =>
      if pat.isPrefixOf (c :: cs) then some ([], c :: cs)
      else (strstr pat cs).map fun r => (c :: r.1, r.2)

/-- The tokens of `strtok` with the single delimiter `d`; `cur` is the part of
the current token read so far. -/
def strtokFrom (d : α) (cur : List α) : List α → List (List α)
  | [] => if cur = [] then [] else [cur]
  | c :: cs =>
      if c = d then
        if cur = [] then strtokFrom d [] cs else cur :: strtokFrom d [] cs
      else strtokFrom d (cur ++ [c]) cs

def strtok (d : α) (s : List α) : List (List α) := strtokFrom d [] s

/-- What `strstr` finds is a place where the pattern stands. -/
theorem strstr_some {pat s before rest : List α}
    (h : strstr pat s = some (before, rest)) :
    s = before ++ rest ∧ pat <+: rest := by
  induction s generalizing before with
  | nil =>
      by_cases hp : pat = []
      · simp [strstr, hp] at h
        obtain ⟨rfl, rfl⟩ := h
        simp [hp]
      · simp [strstr, hp] at h
  | cons c cs ih =>
      by_cases hp : pat.isPrefixOf (c :: cs) = true
      · simp only [strstr, hp, if_true, Option.some.injEq, Prod.mk.injEq] at h
        obtain ⟨rfl, rfl⟩ := h
        exact ⟨rfl, List.isPrefixOf_iff_prefix.mp hp⟩
      · simp only [strstr, hp, Bool.false_eq_true, if_false, Option.map_eq_some_iff] at h
        obtain ⟨⟨b, r⟩, hr, heq⟩ := h
        simp only [Prod.mk.injEq] at heq
        obtain ⟨rfl, rfl⟩ := heq
        obtain ⟨hcs, hpre⟩ := ih hr
        exact ⟨by simp [hcs], hpre⟩

/-- `strstr` finds the leftmost occurrence. -/
theorem strstr_eq_some {pat before rest : List α} (hpat : pat ≠ [])
    (hpre : pat <+: rest)
    (hmin : ∀ a b, before = a ++ b → b ≠ [] → ¬ pat <+: b ++ rest) :
    strstr pat (before ++ rest) = some (before, rest) := by
  induction before with
  | nil =>
      cases rest with
      | nil => exact absurd (List.prefix_nil.mp hpre) hpat
      | cons c cs => simp [strstr, List.isPrefixOf_iff_prefix.mpr hpre]
  | cons c cs ih =>
      have hno : ¬ pat <+: c :: (cs ++ rest) :=
        hmin [] (c :: cs) rfl (by simp)
      have htail := ih (fun a b hab hb => hmin (c :: a) b (by simp [hab]) hb)
      have hno' : pat.isPrefixOf (c :: (cs ++ rest)) = false := by
        simpa [← List.isPrefixOf_iff_prefix] using hno
      simp [strstr, hno', htail]

/-- What `strstr` finds lies before every other occurrence. -/
theorem strstr_first {pat s before rest a b : List α}
    (h : strstr pat s = some (before, rest)) (hs : s = a ++ b) (hb : pat <+: b) :
    before.length ≤ a.length := by
  induction s generalizing before a with
  | nil =>
      obtain ⟨rfl, rfl⟩ := List.append_eq_nil_iff.mp hs.symm
      have hnil : before = [] := (List.append_eq_nil_iff.mp (strstr_some h).1.symm).1
      rw [hnil]
  | cons c cs ih =>
      by_cases hp : pat.isPrefixOf (c :: cs) = true
      · simp only [strstr, hp, if_true, Option.some.injEq, Prod.mk.injEq] at h
        rw [← h.1]
        exact Nat.zero_le _
      · cases a with
        | nil =>
            rw [hs] at hp
            exact absurd (List.isPrefixOf_iff_prefix.mpr hb) hp
        | cons c' a =>
            obtain ⟨rfl, hcs⟩ := List.cons.inj hs
            simp only [strstr, hp, Bool.false_eq_true, if_false, Option.map_eq_some_iff] at h
            obtain ⟨⟨b', r⟩, hr, heq⟩ := h
            obtain ⟨rfl, rfl⟩ := Prod.mk.inj heq
            exact Nat.succ_le_succ (ih hr hcs)

/-- `strstr` finds a string that occurs. -/
theorem strstr_of_infix {pat s : List α} (h : pat <:+: s) :
    ∃ before rest, strstr pat s = some (before, pat ++ rest) := by
  cases hfind : strstr pat s with
  | some r =>
      obtain ⟨_, rest, hrest⟩ := strstr_some hfind
      exact ⟨r.1, rest, by rw [hrest]⟩
  | none =>
      exfalso
      induction s with
      | nil =>
          rw [List.infix_nil] at h
          simp [strstr, h] at hfind
      | cons c cs ih =>
          by_cases hp : pat.isPrefixOf (c :: cs) = true
          · simp [strstr, hp] at hfind
          · rcases List.infix_cons_iff.mp h with hpre | hin
            · exact hp (List.isPrefixOf_iff_prefix.mpr hpre)
            · apply ih hin
              simpa [strstr, hp] using hfind

omit [DecidableEq α] in
/-- A text determines the part before its first delimiter. -/
theorem field_inj {d : α} {a b u v : List α} (ha : d ∉ a) (hb : d ∉ b)
    (h : a ++ d :: u = b ++ d :: v) : a = b ∧ u = v := by
  induction a generalizing b with
  | nil =>
      cases b with
      | nil => exact ⟨rfl, (List.cons.inj h).2⟩
      | cons c b => exact absurd ((List.cons.inj h).1 ▸ List.mem_cons_self) hb
  | cons c a ih =>
      cases b with
      | nil => exact absurd ((List.cons.inj h).1 ▸ List.mem_cons_self) ha
      | cons c' b =>
          obtain ⟨rfl, htail⟩ := List.cons.inj h
          obtain ⟨rfl, rfl⟩ := ih (fun hm => ha (List.mem_cons_of_mem c hm))
            (fun hm => hb (List.mem_cons_of_mem c hm)) htail
          exact ⟨rfl, rfl⟩

omit [DecidableEq α] in
/-- A text determines the part behind its last delimiter. -/
theorem last_field_inj {d : α} {a b u v : List α} (hu : d ∉ u) (hv : d ∉ v)
    (h : a ++ d :: u = b ++ d :: v) : a = b ∧ u = v := by
  have hrev := congrArg List.reverse h
  simp only [List.reverse_append, List.reverse_cons, List.append_assoc, List.singleton_append]
    at hrev
  obtain ⟨hu', ha'⟩ := field_inj (by simpa using hu) (by simpa using hv) hrev
  exact ⟨List.reverse_inj.mp ha', List.reverse_inj.mp hu'⟩

/-- Reading a token to the next delimiter. -/
theorem strtokFrom_token {d : α} {cur tok : List α} (rest : List α)
    (htok : d ∉ tok) (hne : cur ++ tok ≠ []) :
    strtokFrom d cur (tok ++ d :: rest) = (cur ++ tok) :: strtok d rest := by
  induction tok generalizing cur with
  | nil =>
      have hcur : cur ≠ [] := by simpa using hne
      simp [strtokFrom, hcur, strtok]
  | cons c cs ih =>
      have hc : c ≠ d := fun h => htok (by simp [h])
      simp only [List.cons_append, strtokFrom, hc, if_false]
      rw [ih (fun h => htok (by simp [h])) (by simp)]
      simp

/-- The last token runs to the end of the string. -/
theorem strtokFrom_last {d : α} {cur tok : List α}
    (htok : d ∉ tok) (hne : cur ++ tok ≠ []) :
    strtokFrom d cur tok = [cur ++ tok] := by
  induction tok generalizing cur with
  | nil =>
      have hcur : cur ≠ [] := by simpa using hne
      simp [strtokFrom, hcur]
  | cons c cs ih =>
      have hc : c ≠ d := fun h => htok (by simp [h])
      simp only [strtokFrom, hc, if_false]
      rw [ih (fun h => htok (by simp [h])) (by simp)]
      simp

@[simp] theorem strtok_delim (d : α) (s : List α) :
    strtok d (d :: s) = strtok d s := by simp [strtok, strtokFrom]

/-- A first token, up to its delimiter. -/
theorem strtok_token {d : α} {tok : List α} (rest : List α)
    (htok : d ∉ tok) (hne : tok ≠ []) :
    strtok d (tok ++ d :: rest) = tok :: strtok d rest := by
  have hcur : [] ++ tok ≠ [] := by simpa using hne
  simpa [strtok] using strtokFrom_token rest htok hcur

/-- A last token, up to the end of the string. -/
theorem strtok_last {d : α} {tok : List α} (htok : d ∉ tok) (hne : tok ≠ []) :
    strtok d tok = [tok] := by
  have hcur : [] ++ tok ≠ [] := by simpa using hne
  simpa [strtok] using strtokFrom_last htok hcur

/-- The string of a sequence that starts with a string and a terminator. -/
theorem stringAt_append {nul : α} {s : List α} (rest : List α) (hs : nul ∉ s) :
    stringAt nul (s ++ nul :: rest) = s := by
  have hall : ∀ c ∈ s, decide (c ≠ nul) = true := fun c hc => by
    simpa using fun h : c = nul => hs (h ▸ hc)
  unfold stringAt
  rw [List.takeWhile_append_of_pos hall]
  simp

/-- A string ends before its first NUL. -/
theorem not_mem_stringAt (nul : α) (bytes : List α) : nul ∉ stringAt nul bytes := by
  intro h
  simpa using List.mem_takeWhile_imp h

end CString
