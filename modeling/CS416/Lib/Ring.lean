import Mathlib

/-!
# Rings of nodes

A table gives every node a next node.  The nodes of a list form a ring when
each points to the one behind it and the last one to the first.  A ring is
held at its last node: a node that is put behind it becomes the last one, and
the node behind it, the first one, is taken out.  Whatever can be reached from
one of its nodes is in the ring.
-/

namespace Rings

variable {ι : Type*}

/-- The nodes of `l` are distinct, each points to the one behind it, and the last one to the
first. -/
structure IsRing (next : ι → Option ι) (l : List ι) : Prop where
  nodup : l.Nodup
  chain : l.IsChain fun a b => next a = some b
  closed : ∀ a ∈ l.head?, ∀ z ∈ l.getLast?, next z = some a

/-- `b` is `a`, or a pointer away from a node reached from `a`. -/
def Reaches (next : ι → Option ι) : ι → ι → Prop :=
  Relation.ReflTransGen fun a b => next a = some b

variable {next next' : ι → Option ι} {l : List ι} {a b z : ι}

/-- The empty ring. -/
theorem isRing_nil (next : ι → Option ι) : IsRing next [] :=
  ⟨List.nodup_nil, List.isChain_nil, by simp⟩

/-- A node that points to itself. -/
theorem isRing_singleton (h : next a = some a) : IsRing next [a] := by
  refine ⟨List.nodup_singleton a, List.isChain_singleton a, ?_⟩
  intro x hx y hy
  obtain rfl := Option.some.inj hx
  obtain rfl := Option.some.inj hy
  exact h

section Links

/-- A chain does not notice where its last node points. -/
theorem chain_congr (h : (l ++ [z]).IsChain fun a b => next a = some b)
    (hsame : ∀ x ∈ l, next' x = next x) : (l ++ [z]).IsChain fun a b => next' a = some b := by
  induction l with
  | nil => exact List.isChain_singleton z
  | cons x l ih =>
      obtain ⟨hx, hrest⟩ := List.isChain_cons.mp h
      refine List.isChain_cons.mpr ⟨?_, ih hrest fun y hy => hsame y (List.mem_cons_of_mem _ hy)⟩
      rw [hsame x List.mem_cons_self]
      exact hx

/-- A ring only looks at its own nodes. -/
theorem IsRing.congr (h : IsRing next l) (hsame : ∀ x ∈ l, next' x = next x) :
    IsRing next' l := by
  rcases List.eq_nil_or_concat l with rfl | ⟨front, z, rfl⟩
  · exact isRing_nil next'
  · rw [List.concat_eq_append] at *
    refine ⟨h.nodup, chain_congr h.chain fun x hx => hsame x (List.mem_append_left _ hx), ?_⟩
    intro x hx y hy
    rw [hsame y (List.mem_of_mem_getLast? hy)]
    exact h.closed x hx y hy

/-- **A new last node.**  The old last node `z` points to it, and it points to the first. -/
theorem IsRing.push {new : ι} (h : IsRing next (l ++ [z])) (hnew : new ∉ l ++ [z])
    (hsame : ∀ x ∈ l, next' x = next x) (hz : next' z = some new)
    (hback : next' new = next z) : IsRing next' (l ++ [z] ++ [new]) := by
  constructor
  case nodup =>
    rw [← List.concat_eq_append]
    exact h.nodup.concat hnew
  case chain =>
    refine List.isChain_append.mpr ⟨chain_congr h.chain hsame, List.isChain_singleton new, ?_⟩
    intro x hx y hy
    rw [List.getLast?_concat] at hx
    obtain rfl := Option.some.inj hx
    obtain rfl := Option.some.inj hy
    exact hz
  case closed =>
    intro x hx y hy
    rw [List.getLast?_concat] at hy
    obtain rfl := Option.some.inj hy
    rw [hback]
    refine h.closed x ?_ z (by rw [List.getLast?_concat]; rfl)
    rw [List.head?_append_of_ne_nil _ (by simp)] at hx
    exact hx

/-- **Taking out the first node.**  The last node `z` points to the second. -/
theorem IsRing.pop (h : IsRing next (a :: (l ++ [z]))) (hsame : ∀ x ∈ l, next' x = next x)
    (hz : next' z = (l ++ [z]).head?) : IsRing next' (l ++ [z]) := by
  refine ⟨h.nodup.of_cons, chain_congr h.chain.tail hsame, ?_⟩
  intro x hx y hy
  rw [List.getLast?_concat] at hy
  obtain rfl := Option.some.inj hy
  rw [hz]
  exact hx

/-- The last node points to the first. -/
theorem IsRing.next_last (h : IsRing next (a :: l)) (hz : z ∈ (a :: l).getLast?) :
    next z = some a := h.closed a rfl z hz

/-- The first node points to the second. -/
theorem IsRing.next_first (h : IsRing next (a :: b :: l)) : next a = some b :=
  (List.isChain_cons_cons.mp h.chain).1

end Links

section Reached

/-- The first node of a chain reaches the others. -/
theorem chain_reaches (h : (a :: l).IsChain fun a b => next a = some b) :
    ∀ x ∈ a :: l, Reaches next a x := by
  induction l generalizing a with
  | nil =>
      intro x hx
      rw [List.mem_singleton.mp hx]
      exact Relation.ReflTransGen.refl
  | cons b l ih =>
      obtain ⟨hab, hrest⟩ := List.isChain_cons_cons.mp h
      intro x hx
      rcases List.mem_cons.mp hx with rfl | hx
      · exact Relation.ReflTransGen.refl
      · exact (ih hrest x hx).head hab

/-- A pointer of a ring stays in the ring. -/
theorem IsRing.next_mem (h : IsRing next l) (ha : a ∈ l) (hab : next a = some b) : b ∈ l := by
  obtain ⟨pre, post, rfl⟩ := List.append_of_mem ha
  cases post with
  | nil =>
      cases hhead : (pre ++ [a]).head? with
      | none => simp at hhead
      | some x =>
          have hclosed := h.closed x hhead a (by rw [List.getLast?_concat]; rfl)
          rw [hab] at hclosed
          obtain rfl := Option.some.inj hclosed
          exact List.mem_of_mem_head? hhead
  | cons c post =>
      have hchain := (List.isChain_append.mp h.chain).2.1
      have hac := (List.isChain_cons_cons.mp hchain).1
      rw [hab] at hac
      obtain rfl := Option.some.inj hac
      simp

/-- **What the last node reaches** is the whole ring, and nothing else. -/
theorem IsRing.reaches_iff (h : IsRing next l) (hz : z ∈ l.getLast?) :
    Reaches next z b ↔ b ∈ l := by
  have hmem : z ∈ l := List.mem_of_mem_getLast? hz
  constructor
  · intro hreach
    induction hreach with
    | refl => exact hmem
    | tail _ hstep ih => exact h.next_mem ih hstep
  · intro hb
    cases l with
    | nil => cases hb
    | cons a l => exact (chain_reaches h.chain b hb).head (h.next_last hz)

end Reached

end Rings
