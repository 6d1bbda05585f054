import Mathlib.Tactic.Common

/-!
# While loops

A loop with a test and a body, run with fuel, and the states from which it ends.  The
rules are one for the results of a loop that ends and one for loops whose body makes
progress.
-/

namespace LifiAuth.Support

/-- `while (test) body`. -/
structure While (σ : Type*) where
  test : σ → Bool
  body : σ → σ

namespace While

variable {σ : Type*} (l : While σ)

/-- The state the loop ends in; `none` when the fuel is used up. -/
def run : ℕ → σ → Option σ
  | 0, _ => none
  | fuel + 1, s => if l.test s then run fuel (l.body s) else some s

/-- The loop ends when it is started in this state. -/
inductive Ends : σ → Prop where
  | done {s : σ} (h : l.test s = false) : Ends s
  | step {s : σ} (h : l.test s = true) (hbody : Ends (l.body s)) : Ends s

variable {l}

/-- The loop ends exactly when some amount of fuel is enough. -/
theorem ends_iff_run {s : σ} : l.Ends s ↔ ∃ fuel r, l.run fuel s = some r := by
  constructor
  · intro h
    induction h with
    | @done s h => exact ⟨1, s, if_neg (by simp [h])⟩
    | step h _ ih =>
        obtain ⟨fuel, r, hr⟩ := ih
        exact ⟨fuel + 1, r, (if_pos h).trans hr⟩
  · rintro ⟨fuel, r, hr⟩
    induction fuel generalizing s with
    | zero => cases hr
    | succ fuel ih =>
        rw [run] at hr
        split at hr
        · next h => exact .step h (ih hr)
        · next h => exact .done (Bool.eq_false_iff.mpr h)

/-- What the body keeps holds of the result. -/
theorem run_invariant {P : σ → Prop} (hbody : ∀ s, P s → l.test s = true → P (l.body s))
    {fuel : ℕ} {s r : σ} (hs : P s) (hr : l.run fuel s = some r) : P r := by
  induction fuel generalizing s with
  | zero => cases hr
  | succ fuel ih =>
      rw [run] at hr
      split at hr
      · next h => exact ih (hbody s hs h) hr
      · exact Option.some.inj hr ▸ hs

/-- A loop whose body brings a measure down ends. -/
theorem ends_of_measure {P : σ → Prop} (μ : σ → ℕ)
    (hbody : ∀ s, P s → l.test s = true → P (l.body s) ∧ μ (l.body s) < μ s) {s : σ}
    (hs : P s) : l.Ends s := by
  induction hμ : μ s using Nat.strongRecOn generalizing s with
  | ind n ih =>
      cases htest : l.test s with
      | false => exact .done htest
      | true =>
          obtain ⟨hnext, hlt⟩ := hbody s hs htest
          exact .step htest (ih _ (hμ ▸ hlt) hnext rfl)

end While

end LifiAuth.Support
