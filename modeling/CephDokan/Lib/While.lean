import Mathlib.Tactic

/-!
# Loops that run until they return

`loop step late n s` repeats `step` from `s` for at most `n` rounds. A round goes on with another
state, returns, or fails; `late` is the failure of a loop that is still running at the end. The
rule for it takes an invariant and a measure that every round lowers.
-/

namespace While

variable {σ ρ ε : Type*}

def loop (step : σ → Except ε (σ ⊕ ρ)) (late : ε) : ℕ → σ → Except ε ρ
  | 0, _ => .error late
  | n + 1, s =>
    match step s with
    | .ok (.inl s) => loop step late n s
    | .ok (.inr r) => .ok r
    | .error e => .error e

/-- What one round may do when its state satisfies the invariant. -/
inductive Round (step : σ → Except ε (σ ⊕ ρ)) (I : σ → Prop) (μ : σ → ℕ) (Q : ρ → Prop)
    (s : σ) : Prop
  | goOn {t : σ} (hstep : step s = .ok (.inl t)) (hinv : I t) (hless : μ t < μ s)
  | stop {r : ρ} (hstep : step s = .ok (.inr r)) (hpost : Q r)

theorem loop_returns {step} {I} {μ} {Q : ρ → Prop}
    (hround : ∀ s, I s → Round step I μ Q s) (late : ε) {n : ℕ} {s : σ} (hinv : I s)
    (hn : μ s < n) : ∃ r, loop step late n s = .ok r ∧ Q r := by
  induction n generalizing s with
  | zero => exact absurd hn (Nat.not_lt_zero _)
  | succ n ih =>
    cases hround s hinv with
    | goOn hstep hnext hless =>
      rw [loop, hstep]
      exact ih hnext (by omega)
    | stop hstep hpost =>
      rw [loop, hstep]
      exact ⟨_, rfl, hpost⟩

end While
