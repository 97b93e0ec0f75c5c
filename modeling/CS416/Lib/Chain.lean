import Mathlib

/-!
# Doubly linked lists over a table of nodes

The links of a table are two functions `next` and `prev` from nodes to
optional nodes.  `Linked next prev before l` says that the nodes of `l` hang
together in this order, that the first one points back to `before` and that
the last one ends the list.  A list only looks at its own nodes, so updates
elsewhere do not touch it, and two lists are joined by setting two links.
-/

namespace Chain

variable {ι : Type*}

/-- The nodes of `l`, in this order, form a list behind `before`. -/
def Linked (next prev : ι → Option ι) : Option ι → List ι → Prop
  | _, [] => True
  | before, i :: rest => prev i = before ∧ next i = rest.head? ∧ Linked next prev (some i) rest

/-- `while (ptr->next != NULL) ptr = ptr->next;`, for at most `n` steps -/
def walkLast (next : ι → Option ι) : Nat → ι → Option ι
  | 0, _ => none
  | n + 1, i =>
    match next i with
    | none => some i
    | some j => walkLast next n j

/-- The nodes from a pointer on, at most `n` of them. -/
def walk (next : ι → Option ι) : Nat → Option ι → List ι
  | 0, _ => []
  | _ + 1, none => []
  | n + 1, some i => i :: walk next n (next i)

variable {next prev next' prev' : ι → Option ι} {before : Option ι} {l m : List ι} {i : ι}

/-- A chain depends on the links of its own nodes only. -/
theorem Linked.congr (h : Linked next prev before l)
    (hnext : ∀ j ∈ l, next' j = next j) (hprev : ∀ j ∈ l, prev' j = prev j) :
    Linked next' prev' before l := by
  induction l generalizing before with
  | nil => trivial
  | cons j rest ih =>
      obtain ⟨hp, hn, hrest⟩ := h
      refine ⟨(hprev j List.mem_cons_self).trans hp, (hnext j List.mem_cons_self).trans hn, ?_⟩
      apply ih hrest
      · intro k hk
        exact hnext k (List.mem_cons_of_mem _ hk)
      · intro k hk
        exact hprev k (List.mem_cons_of_mem _ hk)

/-- What the links say at a node in the middle. -/
theorem Linked.at_node (h : Linked next prev before (l ++ i :: m)) :
    prev i = l.getLast?.or before ∧ next i = m.head? ∧ Linked next prev (some i) m := by
  induction l generalizing before with
  | nil => exact h
  | cons j rest ih =>
      obtain ⟨_, _, hrest⟩ := h
      obtain ⟨hp, hn, hm⟩ := ih hrest
      refine ⟨?_, hn, hm⟩
      rw [hp, List.getLast?_cons]
      cases rest.getLast? <;> rfl

/-- The end of a list is a list. -/
theorem Linked.suffix (h : Linked next prev before (l ++ m)) :
    ∃ before', Linked next prev before' m := by
  induction l generalizing before with
  | nil => exact ⟨before, h⟩
  | cons j rest ih => exact ih h.2.2

/-- **Replacing the end of a list.**  The nodes up to `i` stay, and `i` is linked to `m`. -/
theorem Linked.splice {m₀ : List ι} (h : Linked next prev before (l ++ i :: m₀))
    (hm : Linked next' prev' (some i) m) (hlast : next' i = m.head?)
    (hnext : ∀ j ∈ l, next' j = next j) (hprev : ∀ j ∈ l ++ [i], prev' j = prev j) :
    Linked next' prev' before (l ++ i :: m) := by
  induction l generalizing before with
  | nil =>
      obtain ⟨hp, _, _⟩ := h
      exact ⟨(hprev i (by simp)).trans hp, hlast, hm⟩
  | cons j rest ih =>
      obtain ⟨hp, hn, hrest⟩ := h
      refine ⟨(hprev j (by simp)).trans hp, ?_, ?_⟩
      · rw [hnext j List.mem_cons_self, hn]
        cases rest <;> simp
      · apply ih hrest
        · intro k hk
          exact hnext k (List.mem_cons_of_mem _ hk)
        · intro k hk
          exact hprev k (by simp at hk ⊢; exact Or.inr hk)

/-- **Joining two lists.**  The last node of the first one is linked to the second one. -/
theorem Linked.append (h : Linked next prev before (l ++ [i]))
    (hm : Linked next' prev' (some i) m) (hlast : next' i = m.head?)
    (hnext : ∀ j ∈ l, next' j = next j) (hprev : ∀ j ∈ l ++ [i], prev' j = prev j) :
    Linked next' prev' before (l ++ i :: m) :=
  h.splice hm hlast hnext hprev

/-- The walk ends at the last node. -/
theorem Linked.walkLast_eq {n : Nat} {j : ι} (h : Linked next prev before (j :: l))
    (hn : l.length < n) : walkLast next n j = some ((j :: l).getLast (by simp)) := by
  induction l generalizing before n j with
  | nil =>
      obtain ⟨_, hnone, _⟩ := h
      obtain ⟨n, rfl⟩ := Nat.exists_eq_add_of_lt hn
      simp [walkLast, hnone]
  | cons k rest ih =>
      obtain ⟨_, hsome, hrest⟩ := h
      cases n with
      | zero => simp at hn
      | succ n =>
          have hlt : rest.length < n := by simpa using hn
          simp only [walkLast, hsome, List.head?_cons]
          rw [ih hrest hlt]
          simp

/-- The walk from the head goes through the list. -/
theorem Linked.walk_eq {n : Nat} (h : Linked next prev before l) (hn : l.length ≤ n) :
    walk next n l.head? = l := by
  induction l generalizing before n with
  | nil => cases n <;> rfl
  | cons j rest ih =>
      obtain ⟨_, hsome, hrest⟩ := h
      cases n with
      | zero => simp at hn
      | succ n =>
          have hle : rest.length ≤ n := by simpa using hn
          simp only [List.head?_cons, walk, hsome]
          rw [ih hrest hle]

end Chain
