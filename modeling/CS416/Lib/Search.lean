import Mathlib

/-!
# First-fit search

`findFrom p n i` is the loop `for (; n-- > 0; i++) if (p(i)) return i;`.
Its two facts are that a hit is the least index of the range that satisfies
`p`, and that a miss means no index of the range does.
-/

namespace Search

/-- The least `j` with `i ≤ j < i + n` and `p j`, if there is one. -/
def findFrom (p : Int → Bool) : Nat → Int → Option Int
  | 0, _ => none
  | n + 1, i => if p i then some i else findFrom p n (i + 1)

variable {p q : Int → Bool}

/-- The first index at which `p` holds. -/
theorem findFrom_some {n : Nat} {i k : Int} (h : findFrom p n i = some k) :
    i ≤ k ∧ k < i + n ∧ p k = true ∧ ∀ j, i ≤ j → j < k → p j = false := by
  induction n generalizing i with
  | zero => simp [findFrom] at h
  | succ n ih =>
      by_cases hp : p i = true
      · obtain rfl : i = k := by simpa [findFrom, hp] using h
        exact ⟨le_refl _, by omega, hp, fun j h₁ h₂ => by omega⟩
      · obtain ⟨h₁, h₂, h₃, h₄⟩ := ih (by simpa [findFrom, hp] using h)
        refine ⟨by omega, by push_cast at h₂ ⊢; omega, h₃, ?_⟩
        intro j hj hjk
        by_cases hji : j = i
        · subst j
          simpa using hp
        · exact h₄ j (by omega) hjk

/-- No index of the range has `p`. -/
theorem findFrom_none {n : Nat} {i : Int} (h : findFrom p n i = none) :
    ∀ j, i ≤ j → j < i + n → p j = false := by
  induction n generalizing i with
  | zero => intro j h₁ h₂; push_cast at h₂; omega
  | succ n ih =>
      by_cases hp : p i = true
      · simp [findFrom, hp] at h
      · intro j h₁ h₂
        by_cases hji : j = i
        · subst j
          simpa using hp
        · exact ih (by simpa [findFrom, hp] using h) j (by omega)
            (by push_cast at h₂; omega)

/-- Where there is an index with `p`, one is found. -/
theorem findFrom_isSome {n : Nat} {i j : Int} (h₁ : i ≤ j) (h₂ : j < i + n)
    (hp : p j = true) : ∃ k, findFrom p n i = some k := by
  cases h : findFrom p n i with
  | some k => exact ⟨k, rfl⟩
  | none => simp [findFrom_none h j h₁ h₂] at hp

/-- A hit is determined by being the least index of the range. -/
theorem findFrom_eq_some {n : Nat} {i k : Int} (h₁ : i ≤ k) (h₂ : k < i + n)
    (hp : p k = true) (hmin : ∀ j, i ≤ j → j < k → p j = false) :
    findFrom p n i = some k := by
  obtain ⟨k', hk'⟩ := findFrom_isSome h₁ h₂ hp
  obtain ⟨g₁, g₂, g₃, g₄⟩ := findFrom_some hk'
  rcases lt_trichotomy k k' with hlt | rfl | hgt
  · simp [g₄ k h₁ hlt] at hp
  · exact hk'
  · simp [hmin k' g₁ hgt] at g₃

/-- The search over a table that is taken from below hits where the free part starts. -/
theorem findFrom_threshold {n : Nat} {i c : Int} (h₁ : i ≤ c) (h₂ : c < i + n)
    (h : ∀ j, i ≤ j → j < i + n → (p j = true ↔ c ≤ j)) : findFrom p n i = some c := by
  apply findFrom_eq_some h₁ h₂ ((h c h₁ h₂).mpr (le_refl c))
  intro j hj hjc
  rw [Bool.eq_false_iff, ne_eq, h j hj (by omega)]
  omega

end Search
