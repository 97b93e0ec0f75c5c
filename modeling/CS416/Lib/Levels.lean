import Mathlib

/-!
# Queues by level

A scheduler keeps one queue for each of its levels `0 .. n-1`.  `flat` is all
of them in one list: to add a thread at a level adds it to the list, and to
take the first one of a level removes it, up to a permutation.
-/

namespace Levels

variable {α : Type*} {n : Nat} {level : Int → List α} {p : Int} {x : α}

/-- The queues of the levels below `n`. -/
def flat (n : Nat) (level : Int → List α) : List α := (List.range n).flatMap fun i => level i

/-- What is in some level is in the list of all of them. -/
theorem mem_flat : x ∈ flat n level ↔ ∃ i : Nat, i < n ∧ x ∈ level i := by
  simp [flat]

private theorem flat_succ (n : Nat) (level : Int → List α) :
    flat (n + 1) level = flat n level ++ level n := by
  simp [flat, List.range_succ]

/-- A queue above the levels does not count. -/
theorem flat_update_ge (hp : (n : Int) ≤ p) (q : List α) :
    flat n (Function.update level p q) = flat n level := by
  induction n with
  | zero => rfl
  | succ n ih =>
      have hne : (n : Int) ≠ p := by omega
      rw [flat_succ, flat_succ, ih (by omega), Function.update_of_ne hne]

/-- An entry more at one level is an entry more of the whole. -/
theorem flat_update (hp : 0 ≤ p) (hpn : p < n) {q : List α} (hq : (level p).Perm (x :: q)) :
    (flat n level).Perm (x :: flat n (Function.update level p q)) := by
  induction n with
  | zero => omega
  | succ n ih =>
      rw [flat_succ, flat_succ]
      by_cases heq : p = n
      · subst heq
        rw [flat_update_ge le_rfl, Function.update_self]
        exact (List.Perm.append_left _ hq).trans List.perm_middle
      · have hne : (n : Int) ≠ p := fun h => heq h.symm
        rw [Function.update_of_ne hne]
        exact (ih (by omega)).append_right _

/-- Putting an element behind a level adds it. -/
theorem flat_push (hp : 0 ≤ p) (hpn : p < n) :
    (flat n (Function.update level p (level p ++ [x]))).Perm (x :: flat n level) := by
  have hq : (Function.update level p (level p ++ [x]) p).Perm (x :: level p) := by
    rw [Function.update_self]
    exact List.perm_append_singleton x (level p)
  have hflat := flat_update hp hpn hq
  rw [Function.update_idem, Function.update_eq_self] at hflat
  exact hflat

/-- Taking the first element of a level removes it. -/
theorem flat_pop (hp : 0 ≤ p) (hpn : p < n) {rest : List α} (hq : level p = x :: rest) :
    (flat n level).Perm (x :: flat n (Function.update level p rest)) := by
  apply flat_update hp hpn
  rw [hq]

private theorem flat_eq (n : Nat) (level : Int → List α) :
    flat n level = (List.range n).flatMap fun i : Nat => level (i : Int) := by
  induction n with
  | zero => rfl
  | succ n ih =>
      rw [flat_succ, ih, List.range_succ, List.flatMap_append]
      simp

/-- Where no entry is there twice, it is at one level. -/
theorem flat_nodup (h : (flat n level).Nodup) {i j : Nat} (hi : i < n) (hj : j < n) :
    (level i).Nodup ∧ (x ∈ level i → x ∈ level j → i = j) := by
  rw [flat_eq] at h
  obtain ⟨hlevel, hpair⟩ := List.nodup_flatMap.mp h
  refine ⟨hlevel i (List.mem_range.mpr hi), ?_⟩
  intro hxi hxj
  by_contra hne
  have hsymm : Std.Symm (Function.onFun List.Disjoint fun i : Nat => level (i : Int)) :=
    ⟨fun _ _ hdis => List.Disjoint.symm hdis⟩
  exact hpair.forall (List.mem_range.mpr hi) (List.mem_range.mpr hj) hne hxi hxj

end Levels
