import Mathlib

/-!
# Serving levels in turn

A server goes round the levels `0 .. n-1`.  From the level that it served last
it goes on to the next one whose queue is not empty and takes the first entry.
Entries are added behind the queues at any time.  An entry is then overtaken
only by those ahead of it and by one entry of each other level a round.
-/

namespace Rotation

/-- The number of levels between `p` and the next time the server comes to `q`. -/
def dist (n : Nat) (p q : Int) : Int := (q - p - 1) % n

/-- The queues, and the level that was served last. -/
structure Server (α : Type*) where
  level : Int → List α
  current : Int

/-- `p` is one of the `n` levels. -/
def InRange (n : Nat) (p : Int) : Prop := 0 ≤ p ∧ p < n

section Distance

variable {n : Nat} {p q r : Int}

private theorem dist_nonneg (hq : InRange n q) : 0 ≤ dist n p q := by
  obtain ⟨h₀, h₁⟩ := hq
  exact Int.emod_nonneg _ (by omega)

/-- Every level comes within one round. -/
theorem dist_lt (hq : InRange n q) : dist n p q < n := by
  obtain ⟨h₀, h₁⟩ := hq
  exact Int.emod_lt_of_pos _ (by omega)

/-- `k` levels on from the one after `p`. -/
theorem dist_add (p : Int) (k : Nat) : dist n p ((p + 1 + k) % n) = k % n := by
  have hsame : (p + 1 + k) % n - p - 1 = k + n * -((p + 1 + k) / n) := by
    rw [Int.emod_def]
    ring
  rw [dist, hsame, Int.add_mul_emod_self_left]

private theorem add_dist (p : Int) (hq : InRange n q) : (p + 1 + dist n p q) % n = q := by
  have hsame : p + 1 + dist n p q = q + n * -((q - p - 1) / n) := by
    rw [dist, Int.emod_def]
    ring
  rw [hsame, Int.add_mul_emod_self_left]
  exact Int.emod_eq_of_lt hq.1 hq.2

private theorem dist_inj (hq : InRange n q) (hr : InRange n r) (h : dist n p q = dist n p r) :
    q = r := by
  obtain ⟨hq₀, hq₁⟩ := hq
  obtain ⟨hr₀, hr₁⟩ := hr
  have hdiv : (n : Int) ∣ q - p - 1 - (r - p - 1) := Int.ModEq.dvd (Eq.symm h)
  have hsame : q - p - 1 - (r - p - 1) = q - r := by ring
  rw [hsame] at hdiv
  obtain ⟨k, hk⟩ := hdiv
  by_contra hne
  have hk₀ : k ≠ 0 := by
    intro hzero
    rw [hzero, mul_zero] at hk
    omega
  rcases lt_or_gt_of_ne hk₀ with hneg | hpos
  · nlinarith
  · nlinarith

/-- A level that is served on the way to `r` leaves the rest of the way. -/
theorem dist_on (hlt : dist n p q < dist n p r) (hq : InRange n q) (hr : InRange n r) :
    dist n q r = dist n p r - dist n p q - 1 := by
  have hq₀ := dist_nonneg (p := p) hq
  have hr₁ := dist_lt (p := p) hr
  have hsplit : r - q - 1 = (r - p - 1) - (q - p - 1) - 1 := by ring
  have hmod : ((r - p - 1) - (q - p - 1) - 1) % n = (dist n p r - dist n p q - 1) % n := by
    unfold dist
    rw [Int.sub_emod ((r - p - 1) - (q - p - 1)), Int.sub_emod (r - p - 1),
      ← Int.sub_emod ((r - p - 1) % n - (q - p - 1) % n)]
  rw [dist, hsplit, hmod]
  exact Int.emod_eq_of_lt (by omega) (by omega)

end Distance

variable {α : Type*} {n : Nat} {s u t : Server α} {x : α} {r : Int} {ds : List (Int × α)}

/-- Entries have been added behind the queues. -/
structure Grows (s u : Server α) : Prop where
  current : u.current = s.current
  level : ∀ p, s.level p <+: u.level p

/-- The next level in turn that has an entry gives its first one, `x`. -/
structure Serves (n : Nat) (s : Server α) (x : α) (u : Server α) : Prop where
  range : InRange n u.current
  head : s.level u.current = x :: u.level u.current
  other : ∀ p, p ≠ u.current → u.level p = s.level p
  turn : ∀ p, InRange n p → s.level p ≠ [] → dist n s.current u.current ≤ dist n s.current p

/-- The server at work: the entries it gives out, each with its level. -/
inductive Run (n : Nat) : Server α → List (Int × α) → Server α → Prop
  | nil (s : Server α) : Run n s [] s
  | grow {s u t : Server α} {ds : List (Int × α)} (h : Grows s u) (hrun : Run n u ds t) :
      Run n s ds t
  | serve {s u t : Server α} {x : α} {ds : List (Int × α)} (h : Serves n s x u)
      (hrun : Run n u ds t) : Run n s ((u.current, x) :: ds) t

/-- A search that goes on from level to level finds the next one in turn. -/
theorem turn_of_search {k : Nat} (hempty : ∀ j < k, s.level ((s.current + 1 + j) % n) = [])
    {p : Int} (hp : InRange n p) (hne : s.level p ≠ []) :
    dist n s.current ((s.current + 1 + k) % n) ≤ dist n s.current p := by
  have hpos := dist_nonneg (p := s.current) hp
  by_contra hlt
  rw [dist_add] at hlt
  have hk : (k : Int) % n ≤ k := by
    rw [← Int.natCast_mod]
    exact_mod_cast Nat.mod_le k n
  obtain ⟨j, hj⟩ := Int.eq_ofNat_of_zero_le hpos
  have hplace := add_dist s.current hp
  rw [hj] at hplace
  apply hne
  rw [← hplace]
  exact hempty j (by omega)

theorem Grows.refl (s : Server α) : Grows s s := ⟨rfl, fun _ => List.prefix_refl _⟩

/-- One arrival after another. -/
theorem Grows.trans (h : Grows s u) (h' : Grows u t) : Grows s t :=
  ⟨h'.current.trans h.current, fun p => (h.level p).trans (h'.level p)⟩

/-- A level that is not empty does not become so by arrivals. -/
theorem Grows.ne_nil (h : Grows s u) (hne : s.level r ≠ []) : u.level r ≠ [] := by
  intro hnil
  have hpre := h.level r
  rw [hnil] at hpre
  exact hne (List.prefix_nil.mp hpre)

/-- To serve another level brings the server closer to a level that waits. -/
theorem Serves.closer (h : Serves n s x u) (hr : InRange n r) (hne : s.level r ≠ [])
    (hother : u.current ≠ r) : dist n u.current r < dist n s.current r := by
  have hle := h.turn r hr hne
  have hlt : dist n s.current u.current < dist n s.current r := by
    apply lt_of_le_of_ne hle
    intro heq
    exact hother (dist_inj h.range hr heq)
  have hrest := dist_on hlt h.range hr
  have hpos := dist_nonneg (p := s.current) h.range
  omega

/-- **A level that waits is passed over at most once for each level before it.** -/
theorem Run.passed (h : Run n s ds t) (hr : InRange n r) (hne : s.level r ≠ [])
    (hother : ∀ d ∈ ds, d.1 ≠ r) : ds.length ≤ dist n s.current r := by
  induction h with
  | nil s => exact dist_nonneg hr
  | grow hgrow hrun ih =>
      rw [← hgrow.current]
      exact ih (hgrow.ne_nil hne) hother
  | @serve s u t x ds hserve hrun ih =>
      have hcur : u.current ≠ r := hother _ List.mem_cons_self
      have hcloser := hserve.closer hr hne hcur
      have hne' : u.level r ≠ [] := by
        rw [hserve.other r (Ne.symm hcur)]
        exact hne
      have hrest := ih hne' fun d hd => hother d (List.mem_cons_of_mem _ hd)
      rw [List.length_cons]
      push_cast
      omega

/-- Where an entry waits after the queues have grown. -/
theorem Grows.place {ahead behind : List α} (h : Grows s u)
    (hlevel : s.level r = ahead ++ x :: behind) :
    ∃ behind', u.level r = ahead ++ x :: behind' := by
  obtain ⟨more, hmore⟩ := h.level r
  refine ⟨behind ++ more, ?_⟩
  rw [← hmore, hlevel]
  simp

/-- **An entry is served after those ahead of it**, and no later than one round for each. -/
theorem Run.served {ahead behind : List α} (h : Run n s ds t) (hr : InRange n r)
    (hlevel : s.level r = ahead ++ x :: behind) {m : Nat}
    (hm : dist n s.current r + n * ahead.length < m) (hlen : m ≤ ds.length) :
    (r, x) ∈ ds.take m := by
  induction h generalizing ahead behind m with
  | nil s =>
      have hpos := dist_nonneg (p := s.current) hr
      rw [List.length_nil, Nat.le_zero] at hlen
      have hnn : (0 : Int) ≤ n * ahead.length := by positivity
      omega
  | grow hgrow hrun ih =>
      obtain ⟨behind', hlevel'⟩ := hgrow.place hlevel
      rw [← hgrow.current] at hm
      exact ih hlevel' hm hlen
  | @serve s u t y ds hserve hrun ih =>
      have hne : s.level r ≠ [] := by
        rw [hlevel]
        simp
      have hpos := dist_nonneg (p := s.current) hr
      obtain ⟨m, rfl⟩ : ∃ k, m = k + 1 := by
        have hnn : (0 : Int) ≤ n * ahead.length := by positivity
        exact ⟨m - 1, by omega⟩
      rw [List.take_succ_cons]
      rw [List.length_cons] at hlen
      by_cases hcur : u.current = r
      · have hhead := hserve.head
        rw [hcur, hlevel] at hhead
        cases ahead with
        | nil =>
            obtain ⟨rfl, _⟩ := List.cons.inj hhead
            rw [hcur]
            exact List.mem_cons_self
        | cons z ahead =>
            obtain ⟨_, hrest⟩ := List.cons.inj hhead
            apply List.mem_cons_of_mem
            have hlt := dist_lt (p := u.current) hr
            apply ih hrest.symm _ (by omega)
            rw [List.length_cons] at hm
            push_cast at hm ⊢
            linarith
      · have hcloser := hserve.closer hr hne hcur
        apply List.mem_cons_of_mem
        refine ih ((hserve.other r (Ne.symm hcur)).trans hlevel) ?_ (by omega)
        push_cast at hm ⊢
        linarith

end Rotation
