import Mathlib

/-!
# Who comes later

Parties are listed in order, without repetition, and each waits only for one
that comes later in the list.  Then the last party with any property is waiting
for none that has it.
-/

namespace Later

variable {α : Type*} {l l' : List α} {x y a : α} {p : α → Prop}

/-- `y` comes after `x` in the list. -/
def Comes (l : List α) (x y : α) : Prop := [x, y].Sublist l

/-- Both of them occur. -/
theorem Comes.mem (h : Comes l x y) : x ∈ l ∧ y ∈ l :=
  ⟨h.subset List.mem_cons_self, h.subset (List.mem_cons_of_mem x List.mem_cons_self)⟩

/-- The order stays when the list grows. -/
theorem Comes.append (h : Comes l x y) (l' : List α) : Comes (l ++ l') x y :=
  h.trans (List.sublist_append_left l l')

/-- The order of the others stays when one is taken out. -/
theorem Comes.erase [DecidableEq α] (h : Comes l x y) (hx : x ≠ a) (hy : y ≠ a) :
    Comes (l.erase a) x y := by
  have hout : a ∉ [x, y] := by simp [hx.symm, hy.symm]
  have hsub : ([x, y].erase a).Sublist (l.erase a) := List.Sublist.erase a h
  rw [List.erase_of_not_mem hout] at hsub
  exact hsub

/-- **There is a last one.** -/
theorem exists_last (hl : l.Nodup) (h : ∃ x ∈ l, p x) :
    ∃ x ∈ l, p x ∧ ∀ y, Comes l x y → ¬ p y := by
  induction l with
  | nil =>
      obtain ⟨x, hx, _⟩ := h
      cases hx
  | cons a l ih =>
      obtain ⟨hout, hl⟩ := List.nodup_cons.mp hl
      by_cases hlater : ∃ x ∈ l, p x
      · obtain ⟨x, hx, hpx, hlast⟩ := ih hl hlater
        refine ⟨x, List.mem_cons_of_mem a hx, hpx, ?_⟩
        intro y hxy
        cases hxy with
        | cons _ hrest => exact hlast y hrest
        | cons_cons _ hrest => exact absurd hx hout
      · obtain ⟨x, hx, hpx⟩ := h
        rcases List.mem_cons.mp hx with rfl | hx
        · refine ⟨x, hx, hpx, ?_⟩
          intro y hxy hpy
          cases hxy with
          | cons _ hrest => exact hout (Comes.mem hrest).1
          | cons_cons _ hrest => exact hlater ⟨y, hrest.subset List.mem_cons_self, hpy⟩
        · exact absurd ⟨x, hx, hpx⟩ hlater

end Later
