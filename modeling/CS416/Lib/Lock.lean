import Mathlib

/-!
# A lock that is handed over

Whoever gives the lock up while others wait hands it to the first of them.
From then on it is promised: nobody holds it, and only the chosen one can take
it.  `Run` says which histories a lock can have, and the results say what can
be read off them.
-/

namespace Locks

variable {α : Type*} {t w : α}

/-- What is seen of a lock: somebody takes it, starts to wait for it, or gives it up, and to
whom. -/
inductive Event (α : Type*)
  | locks (t : α)
  | waits (t : α)
  | unlocks (t : α) (next : Option α)

inductive Owner (α : Type*)
  | free
  | held (t : α)
  | promised (t : α)

structure Lock (α : Type*) where
  owner : Owner α
  queue : List α

/-- The one that a lock is held by or promised to. -/
def Owner.user : Owner α → Option α
  | .free => none
  | .held t | .promised t => some t

/-- What a lock lets happen. -/
inductive Step : Lock α → Event α → Lock α → Prop
  | takes (t : α) : Step ⟨.free, []⟩ (.locks t) ⟨.held t, []⟩
  | waits {o : Owner α} {queue : List α} (t : α) (h : o.user ≠ none) :
      Step ⟨o, queue⟩ (.waits t) ⟨o, queue ++ [t]⟩
  | returns (t : α) (queue : List α) : Step ⟨.promised t, queue⟩ (.locks t) ⟨.held t, queue⟩
  | idles (t : α) : Step ⟨.free, []⟩ (.unlocks t none) ⟨.free, []⟩
  | frees (t : α) : Step ⟨.held t, []⟩ (.unlocks t none) ⟨.free, []⟩
  | hands (t w : α) (rest : List α) :
      Step ⟨.held t, w :: rest⟩ (.unlocks t (some w)) ⟨.promised w, rest⟩

/-- The histories of a lock, from the start on, and where they end. -/
inductive Run : List (Event α) → Lock α → Prop
  | nil : Run [] ⟨.free, []⟩
  | snoc {h : List (Event α)} {e : Event α} {x y : Lock α} (hrun : Run h x) (hstep : Step x e y) :
      Run (h ++ [e]) y

/-- Those who started to wait, first one first. -/
def waited (h : List (Event α)) : List α :=
  h.filterMap fun e => match e with
    | .waits t => some t
    | _ => none

/-- Those whom the lock was handed to, first one first. -/
def granted (h : List (Event α)) : List α :=
  h.filterMap fun e => match e with
    | .unlocks _ next => next
    | _ => none

/-- The one whom the lock was handed to and who has not taken it yet. -/
def chosen (h : List (Event α)) : Option α :=
  h.foldl (fun p e => match e with
    | .locks _ => none
    | .unlocks _ next => next
    | .waits _ => p) none

/-- Whether `t` took the lock and did not give it up since. -/
def holds [DecidableEq α] (t : α) (h : List (Event α)) : Bool :=
  h.foldl (fun b e => match e with
    | .locks x => if x = t then true else b
    | .unlocks x _ => if x = t then false else b
    | .waits _ => b) false

/-- The histories in which nobody interferes: one at a time is between taking the lock and giving
it up, those who wait are served in their order, and whoever is served is the next to take it. -/
structure HandsOver [DecidableEq α] (h : List (Event α)) : Prop where
  exclusive : ∀ t u, holds t h = true → holds u h = true → t = u
  inOrder : granted h <+: waited h
  reserved : ∀ before between after t w u,
    h = before ++ .unlocks t (some w) :: (between ++ .locks u :: after) →
      (∀ v, .locks v ∉ between) → u = w

section Histories

variable {h : List (Event α)} {x : Lock α}

@[simp] theorem waited_waits (h : List (Event α)) (t : α) :
    waited (h ++ [.waits t]) = waited h ++ [t] := by simp [waited]

@[simp] theorem waited_locks (h : List (Event α)) (t : α) :
    waited (h ++ [.locks t]) = waited h := by simp [waited]

@[simp] theorem waited_unlocks (h : List (Event α)) (t : α) (next : Option α) :
    waited (h ++ [.unlocks t next]) = waited h := by simp [waited]

@[simp] theorem granted_waits (h : List (Event α)) (t : α) :
    granted (h ++ [.waits t]) = granted h := by simp [granted]

@[simp] theorem granted_locks (h : List (Event α)) (t : α) :
    granted (h ++ [.locks t]) = granted h := by simp [granted]

@[simp] theorem granted_unlocks (h : List (Event α)) (t : α) (next : Option α) :
    granted (h ++ [.unlocks t next]) = granted h ++ next.toList := by
  cases next with
  | none => simp [granted]
  | some w => simp [granted]

@[simp] theorem chosen_waits (h : List (Event α)) (t : α) :
    chosen (h ++ [.waits t]) = chosen h := by simp [chosen]

@[simp] theorem chosen_locks (h : List (Event α)) (t : α) :
    chosen (h ++ [.locks t]) = none := by simp [chosen]

@[simp] theorem chosen_unlocks (h : List (Event α)) (t : α) (next : Option α) :
    chosen (h ++ [.unlocks t next]) = next := by simp [chosen]

/-- The last step of a run. -/
theorem Run.last {e : Event α} (hrun : Run (h ++ [e]) x) : ∃ y, Run h y ∧ Step y e x := by
  generalize hsplit : h ++ [e] = g at hrun
  cases hrun with
  | nil => simp at hsplit
  | snoc hrun hstep =>
      obtain ⟨rfl, he⟩ := List.append_inj' hsplit rfl
      obtain rfl := (List.cons.inj he).1
      exact ⟨_, hrun, hstep⟩

/-- A free lock has no queue. -/
theorem Run.free (hrun : Run h x) (hfree : x.owner = .free) : x.queue = [] := by
  cases hrun with
  | nil => rfl
  | snoc hrun hstep =>
      cases hstep with
      | waits t hother => exact absurd (congrArg Owner.user hfree) hother
      | idles | frees => rfl
      | takes | returns | hands => cases hfree

/-- **First come, first served.**  The lock is handed to those who wait in their order, and the
queue is the rest. -/
theorem Run.waited_eq (hrun : Run h x) : waited h = granted h ++ x.queue := by
  induction hrun with
  | nil => rfl
  | snoc hrun hstep ih =>
      cases hstep with
      | waits t hother => simp [ih]
      | takes | returns | idles | frees | hands => simp [ih]

/-- The one that the last unlock has chosen is the one that the lock is promised to. -/
theorem Run.chosen_iff (hrun : Run h x) : chosen h = some w ↔ x.owner = .promised w := by
  induction hrun with
  | nil => simp [chosen]
  | snoc hrun hstep ih =>
      cases hstep with
      | waits t hother =>
          rw [chosen_waits]
          exact ih
      | takes | returns | idles | frees => simp
      | hands => simp [eq_comm]

/-- The beginning of a history is a history. -/
theorem Run.before {h' : List (Event α)} (hrun : Run (h ++ h') x) : ∃ y, Run h y := by
  induction h' using List.reverseRecOn generalizing x with
  | nil =>
      rw [List.append_nil] at hrun
      exact ⟨x, hrun⟩
  | append_singleton h' e ih =>
      rw [← List.append_assoc] at hrun
      obtain ⟨y, hrun', _⟩ := hrun.last
      exact ih hrun'

/-- A lock that was handed over stays promised until somebody takes it. -/
theorem Run.promised {before between : List (Event α)}
    (hrun : Run (before ++ .unlocks t (some w) :: between) x) (hnone : ∀ v, .locks v ∉ between) :
    x.owner = .promised w := by
  induction between using List.reverseRecOn generalizing x with
  | nil =>
      rw [← hrun.chosen_iff]
      exact chosen_unlocks before t (some w)
  | append_singleton between e ih =>
      rw [← List.cons_append, ← List.append_assoc] at hrun
      obtain ⟨y, hrun', hstep⟩ := hrun.last
      have hy := ih hrun' fun v hv => hnone v (List.mem_append_left _ hv)
      cases hstep with
      | waits u hother => exact hy
      | returns u queue =>
          exact absurd (List.mem_append_right _ (List.mem_singleton_self _)) (hnone u)
      | takes | idles | frees | hands => cases hy

variable [DecidableEq α]

@[simp] theorem holds_waits (h : List (Event α)) (u : α) :
    holds t (h ++ [.waits u]) = holds t h := by simp [holds]

@[simp] theorem holds_locks (h : List (Event α)) (u : α) :
    holds t (h ++ [.locks u]) = if u = t then true else holds t h := by simp [holds]

@[simp] theorem holds_unlocks (h : List (Event α)) (u : α) (next : Option α) :
    holds t (h ++ [.unlocks u next]) = if u = t then false else holds t h := by simp [holds]

/-- **Only the owner is between taking the lock and giving it up.** -/
theorem Run.holds_iff (hrun : Run h x) : holds t h = true ↔ x.owner = .held t := by
  induction hrun with
  | nil => simp [holds]
  | snoc hrun hstep ih =>
      cases hstep with
      | waits u hother =>
          rw [holds_waits]
          exact ih
      | takes u | returns u queue =>
          rw [holds_locks]
          by_cases hu : u = t
          · simp [hu]
          · rw [if_neg hu, ih]
            simp [hu]
      | idles u =>
          rw [holds_unlocks]
          by_cases hu : u = t
          · simp [hu]
          · rw [if_neg hu, ih]
      | frees u | hands u w rest =>
          rw [holds_unlocks]
          by_cases hu : u = t
          · simp [hu]
          · rw [if_neg hu, ih]
            simp [hu]

/-- **Mutual exclusion.** -/
theorem Run.exclusive {u : α} (hrun : Run h x) (ht : holds t h = true) (hu : holds u h = true) :
    t = u := by
  rw [hrun.holds_iff] at ht hu
  exact Owner.held.inj (ht.symm.trans hu)

/-- **A lock keeps its promises.** -/
theorem Run.handsOver (hrun : Run h x) : HandsOver h := by
  constructor
  case exclusive =>
    intro t u ht hu
    exact hrun.exclusive ht hu
  case inOrder => exact ⟨x.queue, hrun.waited_eq.symm⟩
  case reserved =>
    intro before between after t w u hsplit hnone
    have hcut : h = (before ++ .unlocks t (some w) :: between ++ [.locks u]) ++ after := by
      simp [hsplit]
    rw [hcut] at hrun
    obtain ⟨y, hrun'⟩ := hrun.before
    obtain ⟨z, hrun', hstep⟩ := hrun'.last
    have hz := hrun'.promised hnone
    cases hstep with
    | returns u queue => exact Owner.promised.inj hz
    | takes u => cases hz

end Histories

end Locks
