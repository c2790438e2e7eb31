import Mathlib.Data.List.Basic

/-!
# Transition systems

`next a x` is the state after the action `a`, if it is possible in the state `x`. `Trace start step tr x` says that a
run with the labels `tr` leads to `x`.
-/

namespace Transitions

variable {σ α : Type} {next : α → σ → Option σ} {P : σ → α → Prop} {start : σ → Prop} {x y : σ}

/-- **The states of runs.** -/
inductive Reached (next : α → σ → Option σ) (P : σ → α → Prop) (start : σ → Prop) : σ → Prop
  | start {x : σ} : start x → Reached next P start x
  | step {x y : σ} {a : α} : Reached next P start x → P x a → next a x = some y → Reached next P start y

/-- **The invariant rule**: what holds at the start and is kept by every action holds in every state. -/
theorem Reached.invariant {I : σ → Prop} (h : Reached next P start x) (hstart : ∀ x, start x → I x)
    (hstep : ∀ x a y, I x → P x a → next a x = some y → I y) : I x := by
  induction h with
  | start hx => exact hstart _ hx
  | step _ hp hn ih => exact hstep _ _ _ ih hp hn

def run (next : α → σ → Option σ) : List α → σ → Option σ
  | [], x => some x
  | a :: as, x => (next a x).bind (run next as)

theorem run_reached (hP : ∀ x a, P x a) : ∀ {as : List α} {x : σ}, Reached next P start x → run next as x = some y →
    Reached next P start y
  | [], x, hx, h => by
    cases h
    exact hx
  | a :: as, x, hx, h => by
    obtain ⟨z, hz, h⟩ := Option.bind_eq_some_iff.1 h
    exact run_reached hP (.step hx (hP x a) hz) h

def runIf (next : α → σ → Option σ) (P : σ → α → Prop) [∀ x a, Decidable (P x a)] : List α → σ → Option σ
  | [], x => some x
  | a :: as, x => if P x a then (next a x).bind (runIf next P as) else none

theorem runIf_reached [∀ x a, Decidable (P x a)] : ∀ {as : List α} {x : σ}, Reached next P start x →
    runIf next P as x = some y → Reached next P start y
  | [], x, hx, h => by
    cases h
    exact hx
  | a :: as, x, hx, h => by
    rw [runIf] at h
    split at h
    case isFalse => cases h
    case isTrue hp =>
      obtain ⟨z, hz, h⟩ := Option.bind_eq_some_iff.1 h
      exact runIf_reached (.step hx hp hz) h

/-! ## Labelled systems -/

section Traces

variable {τ ℓ : Type}

/-- A run with these labels leads to the state. -/
inductive Trace (start : σ → Prop) (step : σ → ℓ → σ → Prop) : List ℓ → σ → Prop
  | start {x : σ} : start x → Trace start step [] x
  | step {tr : List ℓ} {x y : σ} {l : ℓ} : Trace start step tr x → step x l y → Trace start step (tr ++ [l]) y

/-- **The simulation rule**: what the one system can do, the other can do. -/
theorem Trace.simulate {start : σ → Prop} {step : σ → ℓ → σ → Prop} {start' : τ → Prop} {step' : τ → ℓ → τ → Prop}
    {R : σ → τ → Prop} (hstart : ∀ x, start x → ∃ a, start' a ∧ R x a)
    (hstep : ∀ x a l y, R x a → step x l y → ∃ b, step' a l b ∧ R y b) {tr : List ℓ} {x : σ}
    (h : Trace start step tr x) : ∃ a, Trace start' step' tr a ∧ R x a := by
  induction h with
  | start hx =>
    obtain ⟨a, ha, hr⟩ := hstart _ hx
    exact ⟨a, .start ha, hr⟩
  | step _ hs ih =>
    obtain ⟨a, ha, hr⟩ := ih
    obtain ⟨b, hb, hr'⟩ := hstep _ _ _ _ hr hs
    exact ⟨b, .step ha hb, hr'⟩

end Traces

end Transitions
