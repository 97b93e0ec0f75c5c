import Mathlib

/-!
# Scripts and their answers

A script is a list of labels, and a step gives an answer to one label.  Where
one state simulates another step by step, and an invariant of the simulated one
is kept, it gives the same answers to a whole script.
-/

namespace Runs

variable {σ σ' κ ω : Type*}

/-- The labels of a script, one after the other, with the answers they get. -/
inductive Script (step : σ → κ → ω → σ → Prop) : σ → List κ → List ω → σ → Prop
  | done (s : σ) : Script step s [] [] s
  | call {s u t : σ} {l : κ} {o : ω} {ls : List κ} {os : List ω} (hstep : step s l o u)
      (rest : Script step u ls os t) : Script step s (l :: ls) (o :: os) t

variable {step : σ → κ → ω → σ → Prop} {step' : σ' → κ → ω → σ' → Prop}

/-- What every step keeps, a script keeps. -/
theorem Script.invariant {I : σ → Prop} (hstep : ∀ s l o t, I s → step s l o t → I t)
    {s t : σ} {ls : List κ} {os : List ω} (h : Script step s ls os t) (hs : I s) : I t := by
  induction h with
  | done s => exact hs
  | call hs' _ ih => exact ih (hstep _ _ _ _ hs hs')

/-- **Scripts are simulated.**  The simulating state gives the same answers, and ends where
the relation holds again. -/
theorem Script.simulate {R : σ → σ' → Prop} {I : σ → Prop}
    (hkeep : ∀ s l o t, I s → step s l o t → I t)
    (hsim : ∀ s s' l o t, I s → R s s' → step s l o t → ∃ t', step' s' l o t' ∧ R t t')
    {s t : σ} {s' : σ'} {ls : List κ} {os : List ω} (h : Script step s ls os t) (hs : I s)
    (hR : R s s') : ∃ t', Script step' s' ls os t' ∧ R t t' := by
  induction h generalizing s' with
  | done s => exact ⟨s', Script.done s', hR⟩
  | call hstep _ ih =>
      obtain ⟨u', hstep', hR'⟩ := hsim _ _ _ _ _ hs hR hstep
      obtain ⟨t', hrest, hend⟩ := ih (hkeep _ _ _ _ hs hstep) hR'
      exact ⟨t', Script.call hstep' hrest, hend⟩

/-- A second script goes on where the first ends. -/
theorem Script.append {s u t : σ} {ls ls' : List κ} {os os' : List ω}
    (h : Script step s ls os u) (h' : Script step u ls' os' t) :
    Script step s (ls ++ ls') (os ++ os') t := by
  induction h with
  | done s => exact h'
  | call hstep _ ih => exact Script.call hstep (ih h')

end Runs
