import Mathlib

/-!
# Holders of disjoint cells

Live allocations hold sets of cells.  `Held` says that no two of them hold a
cell in common and that every held cell is marked.  An allocator marks cells
that were not marked and enters a holder; giving one up may unmark its cells
only.
-/

variable {ι α : Type*}

/-- The holders in `live` hold pairwise disjoint sets of marked cells. -/
structure Held (cells : ι → Set α) (marked : Set α) (live : List ι) : Prop where
  apart : live.Pairwise fun a b => Disjoint (cells a) (cells b)
  within : ∀ a ∈ live, cells a ⊆ marked

namespace Held

variable {cells : ι → Set α} {marked marked' : Set α} {live : List ι} {a : ι}

/-- Nothing is held at the start. -/
theorem nil : Held cells marked [] :=
  ⟨List.Pairwise.nil, fun _ h => absurd h (List.not_mem_nil)⟩

/-- More cells may be marked. -/
theorem mono (h : Held cells marked live) (hsub : marked ⊆ marked') : Held cells marked' live :=
  ⟨h.apart, fun a ha => (h.within a ha).trans hsub⟩

/-- A new holder takes cells that nobody has marked. -/
theorem enter (h : Held cells marked live) (hfree : ∀ c ∈ cells a, c ∉ marked)
    (hsub : marked ⊆ marked') (htake : cells a ⊆ marked') : Held cells marked' (a :: live) where
  apart := by
    refine List.pairwise_cons.mpr ⟨fun b hb => ?_, h.apart⟩
    exact Set.disjoint_left.mpr fun c hc hcb => hfree c hc (h.within b hb hcb)
  within b hb := by
    rcases List.mem_cons.mp hb with rfl | hb
    · exact htake
    · exact (h.within b hb).trans hsub

/-- Holders that stay keep their cells. -/
theorem keep (h : Held cells marked live) {p : ι → Bool}
    (hkeep : ∀ b ∈ live, p b = true → cells b ⊆ marked') : Held cells marked' (live.filter p) where
  apart := h.apart.filter p
  within b hb := by
    obtain ⟨hb, hp⟩ := List.mem_filter.mp hb
    exact hkeep b hb hp

/-- Two holders of a common cell are the same. -/
theorem eq_of_mem (h : Held cells marked live) {b : ι} (ha : a ∈ live) (hb : b ∈ live)
    {c : α} (hca : c ∈ cells a) (hcb : c ∈ cells b) : a = b := by
  by_contra hne
  have hsymm : Std.Symm fun a b => Disjoint (cells a) (cells b) := ⟨fun _ _ hd => hd.symm⟩
  exact Set.disjoint_left.mp (h.apart.forall ha hb hne) hca hcb

end Held
