import Mathlib.Tactic

/-!
# Runs of a labelled transition system

`Reachable init step` holds of the states a run can reach, and an invariant of the steps holds in
all of them (`Reachable.invariant`). A run whose steps all meet a condition is a run of the
restricted relation `Guarded`.
-/

namespace Octopos

section Runs

variable {σ ℓ : Type*}

/-- The states that some run from an initial state reaches. -/
inductive Reachable (init : σ → Prop) (step : σ → ℓ → σ → Prop) : σ → Prop
  | init {s : σ} : init s → Reachable init step s
  | step {s s' : σ} {l : ℓ} : Reachable init step s → step s l s' → Reachable init step s'

/-- The steps that meet the condition `cond` on the state before the step and its label. -/
def Guarded (cond : σ → ℓ → Prop) (step : σ → ℓ → σ → Prop) (s : σ) (l : ℓ) (s' : σ) : Prop :=
  cond s l ∧ step s l s'

variable {init : σ → Prop} {step step' : σ → ℓ → σ → Prop}

/-- What holds initially and is preserved by every step holds in every reachable state. -/
theorem Reachable.invariant {I : σ → Prop} (h0 : ∀ s, init s → I s)
    (hstep : ∀ s l s', I s → step s l s' → I s') {s : σ} (h : Reachable init step s) : I s := by
  induction h with
  | init hs => exact h0 _ hs
  | step _ hl ih => exact hstep _ _ _ ih hl

theorem Reachable.mono (hsub : ∀ s l s', step s l s' → step' s l s') {s : σ}
    (h : Reachable init step s) : Reachable init step' s := by
  induction h with
  | init hs => exact .init hs
  | step _ hl ih => exact .step ih (hsub _ _ _ hl)

/-- Run a list of labels through a step function, as long as every step passes the test `ok`. -/
def execute (next : σ → ℓ → Option σ) (ok : σ → ℓ → Bool) : σ → List ℓ → Option σ
  | s, [] => some s
  | s, l :: ls => if ok s l then (next s l).bind fun s' => execute next ok s' ls else none

/-- What `execute` computes is reached by a run whose steps all pass the test. -/
theorem Reachable.execute {next : σ → ℓ → Option σ} {ok : σ → ℓ → Bool} {ls : List ℓ} {s s' : σ}
    (h : execute next ok s ls = some s')
    (hs : Reachable init (Guarded (fun s l => ok s l = true) fun s l s' => next s l = some s') s) :
    Reachable init (Guarded (fun s l => ok s l = true) fun s l s' => next s l = some s') s' := by
  induction ls generalizing s with
  | nil => cases h; exact hs
  | cons l ls ih =>
    simp only [Octopos.execute] at h
    split_ifs at h with hok
    obtain ⟨t, ht, h⟩ := Option.bind_eq_some_iff.1 h
    exact ih h (.step hs ⟨hok, ht⟩)

/-- What a run of a step function through a list of labels computes is reached. -/
theorem Reachable.foldlM {next : σ → ℓ → Option σ} {ls : List ℓ} {s s' : σ}
    (h : ls.foldlM next s = some s') (hs : Reachable init (fun s l s' => next s l = some s') s) :
    Reachable init (fun s l s' => next s l = some s') s' := by
  induction ls generalizing s with
  | nil => cases h; exact hs
  | cons l ls ih =>
    rw [List.foldlM_cons] at h
    obtain ⟨t, ht, h⟩ := Option.bind_eq_some_iff.1 h
    exact ih h (.step hs ht)

end Runs

end Octopos
