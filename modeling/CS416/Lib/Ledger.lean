import Mathlib

/-!
# Ledgers of owned resources

A slot may refer to a resource, a nonnegative number.  `Ledger` says that no
two slots refer to the same resource, that what is referred to is marked used,
and that the resources held by the operation in progress are used and not yet
referred to.  Under `strict` nothing else is used, so the marks are exact.

An allocator takes a free resource into `held` and puts it down in a slot;
giving one up clears a slot.  Each is a point update of the references.
-/

variable {ι : Type*}

/-- The references of the slots in `dom` own the resources in `used`. -/
structure Ledger (strict : Prop) (dom : Set ι) (ref : ι → Int) (used held : Set Int) :
    Prop where
  excl : ∀ x ∈ dom, ∀ y ∈ dom, 0 ≤ ref x → ref x = ref y → x = y
  ref_used : ∀ x ∈ dom, 0 ≤ ref x → ref x ∈ used
  held_used : ∀ b ∈ held, b ∈ used
  held_unref : ∀ b ∈ held, ∀ x ∈ dom, ref x ≠ b
  used_nonneg : ∀ b ∈ used, 0 ≤ b
  exact : strict → ∀ b ∈ used, b ∈ held ∨ ∃ x ∈ dom, ref x = b

namespace Ledger

variable {strict : Prop} {dom dom' : Set ι} {ref ref' : ι → Int} {used held : Set Int}
  {b : Int} {x : ι}

/-- A ledger only looks at the slots of its domain. -/
theorem congr (h : Ledger strict dom ref used held) (heq : ∀ x ∈ dom, ref' x = ref x) :
    Ledger strict dom ref' used held where
  excl x hx y hy h₀ hxy := by
    rw [heq x hx] at h₀ hxy
    rw [heq y hy] at hxy
    exact h.excl x hx y hy h₀ hxy
  ref_used x hx h₀ := by
    rw [heq x hx] at h₀ ⊢
    exact h.ref_used x hx h₀
  held_used := h.held_used
  held_unref b hb x hx := by
    rw [heq x hx]
    exact h.held_unref b hb x hx
  used_nonneg := h.used_nonneg
  exact hs b hb := by
    rcases h.exact hs b hb with hb | ⟨x, hx, hxb⟩
    · exact Or.inl hb
    · exact Or.inr ⟨x, hx, (heq x hx).trans hxb⟩

/-- What is free is referred to by nobody. -/
theorem unref_of_free (h : Ledger strict dom ref used held) (hb₀ : 0 ≤ b) (hb : b ∉ used) :
    ∀ x ∈ dom, ref x ≠ b := by
  rintro x hx rfl
  exact hb (h.ref_used x hx hb₀)

/-- Taking a free resource. -/
theorem take (h : Ledger strict dom ref used held) (hb₀ : 0 ≤ b) (hb : b ∉ used) :
    Ledger strict dom ref (insert b used) (insert b held) where
  excl := h.excl
  ref_used x hx h₀ := Set.mem_insert_of_mem b (h.ref_used x hx h₀)
  held_used c hc := by
    rcases hc with rfl | hc
    · exact Set.mem_insert c used
    · exact Set.mem_insert_of_mem b (h.held_used c hc)
  held_unref c hc x hx := by
    rcases hc with rfl | hc
    · exact h.unref_of_free hb₀ hb x hx
    · exact h.held_unref c hc x hx
  used_nonneg c hc := by
    rcases hc with rfl | hc
    · exact hb₀
    · exact h.used_nonneg c hc
  exact hs c hc := by
    rcases hc with rfl | hc
    · exact Or.inl (Set.mem_insert c held)
    · exact (h.exact hs c hc).imp_left (Set.mem_insert_of_mem b)

/-- Forgetting that a resource is held loses exactness. -/
theorem weaken (h : Ledger strict dom ref used held) {held' : Set Int} (hsub : held' ⊆ held) :
    Ledger False dom ref used held' where
  excl := h.excl
  ref_used := h.ref_used
  held_used b hb := h.held_used b (hsub hb)
  held_unref b hb := h.held_unref b (hsub hb)
  used_nonneg := h.used_nonneg
  exact hs := hs.elim

/-- Looking at fewer slots, and at nothing held. -/
theorem restrict (h : Ledger strict dom ref used held) (hsub : dom' ⊆ dom) :
    Ledger False dom' ref used ∅ where
  excl x hx y hy := h.excl x (hsub hx) y (hsub hy)
  ref_used x hx := h.ref_used x (hsub hx)
  held_used _ hb := hb.elim
  held_unref _ hb := hb.elim
  used_nonneg := h.used_nonneg
  exact hs := hs.elim

/-- New slots that refer to nothing. -/
theorem extend (h : Ledger strict dom ref used held) (hsub : dom ⊆ dom')
    (hempty : ∀ x ∈ dom', x ∉ dom → ref x < 0) : Ledger strict dom' ref used held where
  excl x hx y hy h₀ hxy := by
    have hx' : x ∈ dom := by
      by_contra hn
      exact absurd (hempty x hx hn) (by omega)
    have hy' : y ∈ dom := by
      by_contra hn
      exact absurd (hempty y hy hn) (by omega)
    exact h.excl x hx' y hy' h₀ hxy
  ref_used x hx h₀ := by
    have hx' : x ∈ dom := by
      by_contra hn
      exact absurd (hempty x hx hn) (by omega)
    exact h.ref_used x hx' h₀
  held_used := h.held_used
  held_unref b hb x hx := by
    by_cases hx' : x ∈ dom
    · exact h.held_unref b hb x hx'
    · have hneg := hempty x hx hx'
      have hpos := h.used_nonneg b (h.held_used b hb)
      omega
  used_nonneg := h.used_nonneg
  exact hs b hb := (h.exact hs b hb).imp_right fun ⟨x, hx, hxb⟩ => ⟨x, hsub hx, hxb⟩

/-- Giving up slots together with everything they refer to. -/
theorem drop (h : Ledger strict dom ref used held) (hsub : dom' ⊆ dom) :
    Ledger strict dom' ref {b ∈ used | ∀ x ∈ dom, x ∉ dom' → ref x ≠ b} held where
  excl x hx y hy := h.excl x (hsub hx) y (hsub hy)
  ref_used x hx h₀ := by
    refine ⟨h.ref_used x (hsub hx) h₀, ?_⟩
    rintro y hy hy' heq
    have hxy := h.excl x (hsub hx) y hy h₀ heq.symm
    exact hy' (hxy ▸ hx)
  held_used b hb := ⟨h.held_used b hb, fun x hx _ => h.held_unref b hb x hx⟩
  held_unref b hb x hx := h.held_unref b hb x (hsub hx)
  used_nonneg b hb := h.used_nonneg b hb.1
  exact hs b hb := by
    rcases h.exact hs b hb.1 with hheld | ⟨x, hx, hxb⟩
    · exact Or.inl hheld
    · refine Or.inr ⟨x, ?_, hxb⟩
      by_contra hx'
      exact hb.2 x hx hx' hxb

/-- More may be marked used; exactly nothing more if the marks are to stay exact. -/
theorem widen (h : Ledger strict dom ref used held) {used' : Set Int} (hsub : used ⊆ used')
    (hnonneg : ∀ b ∈ used', 0 ≤ b) (hexact : strict → used' ⊆ used) :
    Ledger strict dom ref used' held where
  excl := h.excl
  ref_used x hx h₀ := hsub (h.ref_used x hx h₀)
  held_used b hb := hsub (h.held_used b hb)
  held_unref := h.held_unref
  used_nonneg := hnonneg
  exact hs b hb := h.exact hs b (hexact hs hb)

section Update

variable [DecidableEq ι]

/-- Putting a held resource down.  For the marks to stay exact the slot must
have been empty. -/
theorem place (h : Ledger strict dom ref used held) (hb : b ∈ held) (hx : x ∈ dom)
    (hempty : strict → ref x < 0) :
    Ledger strict dom (Function.update ref x b) used (held \ {b}) where
  excl y hy z hz h₀ hyz := by
    by_cases hyx : y = x <;> by_cases hzx : z = x
    · rw [hyx, hzx]
    · rw [hyx, Function.update_self, Function.update_of_ne hzx] at hyz
      exact absurd hyz.symm (h.held_unref b hb z hz)
    · rw [hzx, Function.update_self, Function.update_of_ne hyx] at hyz
      exact absurd hyz (h.held_unref b hb y hy)
    · rw [Function.update_of_ne hyx] at h₀ hyz
      rw [Function.update_of_ne hzx] at hyz
      exact h.excl y hy z hz h₀ hyz
  ref_used y hy h₀ := by
    by_cases hyx : y = x
    · rw [hyx, Function.update_self]
      exact h.held_used b hb
    · rw [Function.update_of_ne hyx] at h₀ ⊢
      exact h.ref_used y hy h₀
  held_used c hc := h.held_used c hc.1
  held_unref c hc y hy := by
    by_cases hyx : y = x
    · rw [hyx, Function.update_self]
      exact fun heq => hc.2 heq.symm
    · rw [Function.update_of_ne hyx]
      exact h.held_unref c hc.1 y hy
  used_nonneg := h.used_nonneg
  exact hs c hc := by
    by_cases hcb : c = b
    · exact Or.inr ⟨x, hx, by rw [Function.update_self, hcb]⟩
    · rcases h.exact hs c hc with hheld | ⟨y, hy, hyc⟩
      · exact Or.inl ⟨hheld, hcb⟩
      · have hyx : y ≠ x := by
          rintro rfl
          have hneg := hempty hs
          have hpos := h.used_nonneg c hc
          omega
        exact Or.inr ⟨y, hy, by rw [Function.update_of_ne hyx, hyc]⟩

/-- Clearing a slot and freeing what it referred to, if anything. -/
theorem release (h : Ledger strict dom ref used held) (hx : x ∈ dom) :
    Ledger strict dom (Function.update ref x (-1)) (used \ {ref x}) held where
  excl y hy z hz h₀ hyz := by
    by_cases hyx : y = x
    · rw [hyx, Function.update_self] at h₀
      exact absurd h₀ (by decide)
    · by_cases hzx : z = x
      · rw [hzx, Function.update_self, Function.update_of_ne hyx] at hyz
        rw [Function.update_of_ne hyx] at h₀
        omega
      · rw [Function.update_of_ne hyx] at h₀ hyz
        rw [Function.update_of_ne hzx] at hyz
        exact h.excl y hy z hz h₀ hyz
  ref_used y hy h₀ := by
    by_cases hyx : y = x
    · rw [hyx, Function.update_self] at h₀
      exact absurd h₀ (by decide)
    · rw [Function.update_of_ne hyx] at h₀ ⊢
      exact ⟨h.ref_used y hy h₀, fun heq => hyx (h.excl y hy x hx h₀ heq)⟩
  held_used c hc := ⟨h.held_used c hc, fun heq => h.held_unref c hc x hx heq.symm⟩
  held_unref c hc y hy := by
    by_cases hyx : y = x
    · have hpos := h.used_nonneg c (h.held_used c hc)
      rw [hyx, Function.update_self]
      omega
    · rw [Function.update_of_ne hyx]
      exact h.held_unref c hc y hy
  used_nonneg c hc := h.used_nonneg c hc.1
  exact hs c hc := by
    rcases h.exact hs c hc.1 with hheld | ⟨y, hy, hyc⟩
    · exact Or.inl hheld
    · have hyx : y ≠ x := by
        rintro rfl
        exact hc.2 hyc.symm
      exact Or.inr ⟨y, hy, by rw [Function.update_of_ne hyx, hyc]⟩

end Update

end Ledger
