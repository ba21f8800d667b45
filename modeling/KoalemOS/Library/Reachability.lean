import Mathlib.Logic.Basic
import Mathlib.Tactic.Common

/-!
# Reachable states

The states a system gets to by steps that take an input and may fail, where every step is taken
in a state and on an input that meet a condition.
-/

namespace KoalemOS.Library

variable {σ ι : Type} {step : σ → ι → Option σ} {ok : σ → ι → Prop} {start s : σ}

/-- From `start`, steps that meet `ok` lead to the state. -/
inductive Reachable (step : σ → ι → Option σ) (ok : σ → ι → Prop) (start : σ) : σ → Prop where
  | start : Reachable step ok start start
  | step {s s' : σ} {i : ι} : Reachable step ok start s → ok s i → step s i = some s' →
      Reachable step ok start s'

/-- What holds at the start and is kept by every step holds in every reachable state. -/
theorem Reachable.invariant (Inv : σ → Prop) (h : Reachable step ok start s) (hstart : Inv start)
    (hstep : ∀ s i s', Inv s → ok s i → step s i = some s' → Inv s') : Inv s := by
  induction h with
  | start => exact hstart
  | step _ hok hs ih => exact hstep _ _ _ ih hok hs

end KoalemOS.Library
