import Mathlib

/-!
# Postconditions of calls that may stop

A call in `Except ε` returns a value or stops with an error.  `Post x P` says
what holds of the value if there is one; `OkUnless e x P` also says that the
only way to stop is the error `e`.  Both are derived along `bind` by one rule
each, so a proof follows the statements of the call.
-/

namespace Outcome

universe u

variable {ε : Type*} {α β : Type u} {e : ε} {x : Except ε α} {P Q : α → Prop}

/-- Every value that `x` returns satisfies `P`. -/
def Post (x : Except ε α) (P : α → Prop) : Prop := ∀ a, x = .ok a → P a

/-- `x` stops with `e`, or returns a value that satisfies `P`. -/
def OkUnless (e : ε) (x : Except ε α) (P : α → Prop) : Prop :=
  x = .error e ∨ ∃ a, x = .ok a ∧ P a

theorem Post.ok {a : α} (h : P a) : Post (.ok a : Except ε α) P := by
  intro b hb
  cases hb
  exact h

theorem Post.pure {a : α} (h : P a) : Post (pure a : Except ε α) P := Post.ok h

theorem Post.error (e : ε) : Post (.error e : Except ε α) P := by
  intro a ha
  cases ha

/-- One call after another. -/
theorem Post.bind {f : α → Except ε β} {R : β → Prop}
    (hx : Post x P) (hf : ∀ a, P a → Post (f a) R) : Post (x >>= f) R := by
  intro b hb
  cases hxa : x with
  | error e => rw [hxa] at hb; cases hb
  | ok a =>
      rw [hxa] at hb
      exact hf a (hx a hxa) b hb

/-- A weaker result. -/
theorem Post.imp (h : Post x P) (himp : ∀ a, P a → Q a) : Post x Q :=
  fun a ha => himp a (h a ha)

theorem OkUnless.pure {a : α} (h : P a) : OkUnless e (pure a) P :=
  Or.inr ⟨a, rfl, h⟩

/-- One call after another, each of which may stop in the way `e`. -/
theorem OkUnless.bind {f : α → Except ε β} {R : β → Prop}
    (hx : OkUnless e x P) (hf : ∀ a, P a → OkUnless e (f a) R) :
    OkUnless e (x >>= f) R := by
  rcases hx with hx | ⟨a, hx, ha⟩
  · exact Or.inl (by rw [hx]; rfl)
  · rw [hx]
    exact hf a ha

/-- A weaker result, with the same way to stop. -/
theorem OkUnless.imp (h : OkUnless e x P) (himp : ∀ a, P a → Q a) :
    OkUnless e x Q := by
  rcases h with h | ⟨a, h, ha⟩
  · exact Or.inl h
  · exact Or.inr ⟨a, h, himp a ha⟩

/-- What a call returns, whether or not it may stop. -/
theorem OkUnless.post (h : OkUnless e x P) : Post x P := by
  intro a ha
  rcases h with h | ⟨b, h, hb⟩
  · rw [h] at ha; cases ha
  · rw [h] at ha
    cases ha
    exact hb

/-- What a call returns may be stated apart from how it stops. -/
theorem OkUnless.of_post (h : OkUnless e x P) (hq : Post x Q) : OkUnless e x Q :=
  h.imp_right fun ⟨a, hx, _⟩ => ⟨a, hx, hq a hx⟩

/-- A call that does not stop with `e` returns. -/
theorem OkUnless.returns (h : OkUnless e x P) (hne : x ≠ .error e) :
    ∃ a, x = .ok a ∧ P a :=
  h.resolve_left hne

theorem ok_bind (a : α) (f : α → Except ε β) : ((Except.ok a : Except ε α) >>= f) = f a :=
  rfl

/-- What a returning chain of calls went through. -/
theorem bind_ok {f : α → Except ε β} {b : β} :
    (x >>= f) = .ok b ↔ ∃ a, x = .ok a ∧ f a = .ok b := by
  cases x with
  | error e =>
      constructor
      · intro h
        cases h
      · rintro ⟨a, h, _⟩
        cases h
  | ok a =>
      constructor
      · intro h
        exact ⟨a, rfl, h⟩
      · rintro ⟨a', h, hf⟩
        cases h
        exact hf

end Outcome
