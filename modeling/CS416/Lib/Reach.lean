import Mathlib

/-!
# Reachable states and invariants

A system is given by its initial states and a labelled step relation.
`Reach` collects the states that some finite run arrives at, and
`Reach.invariant` is the one induction over runs that every safety argument
of this development goes through: an invariant holds initially, each step
keeps it, so it holds wherever a run can arrive.
-/

namespace Runs

variable {σ κ : Type*}

/-- States that a finite run of labelled steps reaches from an initial state. -/
inductive Reach (init : σ → Prop) (step : σ → κ → σ → Prop) : σ → Prop
  | start {s : σ} (h : init s) : Reach init step s
  | next {s t : σ} {c : κ} (h : Reach init step s) (hstep : step s c t) :
      Reach init step t

variable {init : σ → Prop} {step step' : σ → κ → σ → Prop}

/-- **The invariant rule.**  The step may assume that its source state is
itself reachable, so invariants can be established one after another. -/
theorem Reach.invariant {I : σ → Prop}
    (hinit : ∀ s, init s → I s)
    (hstep : ∀ s c t, Reach init step s → I s → step s c t → I t)
    {s : σ} (h : Reach init step s) : I s := by
  induction h with
  | start h => exact hinit _ h
  | next h hs ih => exact hstep _ _ _ h ih hs

/-- A run of a restricted system is a run of the larger one. -/
theorem Reach.mono (hsub : ∀ s c t, step s c t → step' s c t)
    {s : σ} (h : Reach init step s) : Reach init step' s := by
  induction h with
  | start h => exact Reach.start h
  | next _ hs ih => exact ih.next (hsub _ _ _ hs)

end Runs
