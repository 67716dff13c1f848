import Mathlib.Tactic

/-!
# Traces of labelled steps

A trace is a list of labels with the states it leads through. What every step keeps, a
trace keeps; this also holds for a property that depends on a value computed from the
labels so far.
-/

variable {σ ℓ γ : Type*}

/-- The labels `ls` lead from one state to another. -/
inductive Trace (step : ℓ → σ → σ → Prop) : σ → List ℓ → σ → Prop
  | nil (s : σ) : Trace step s [] s
  | cons {s t u : σ} {l : ℓ} {ls : List ℓ} (h : step l s t) (hs : Trace step t ls u) :
      Trace step s (l :: ls) u

namespace Trace

variable {step : ℓ → σ → σ → Prop} {s t u : σ} {l : ℓ} {ls ls' : List ℓ}

theorem single (h : step l s t) : Trace step s [l] t := cons h (nil t)

theorem eq_of_nil (h : Trace step s [] t) : t = s := by
  cases h
  rfl

theorem append (h : Trace step s ls t) (h' : Trace step t ls' u) : Trace step s (ls ++ ls') u := by
  induction h with
  | nil => exact h'
  | cons hstep _ ih => exact cons hstep (ih h')

theorem invariant {P : σ → Prop} (h : Trace step s ls t)
    (hstep : ∀ l ∈ ls, ∀ s t, step l s t → P s → P t) (hs : P s) : P t := by
  induction h with
  | nil => exact hs
  | cons hone _ ih =>
    apply ih (fun l hl => hstep l (List.mem_cons_of_mem _ hl))
    exact hstep _ List.mem_cons_self _ _ hone hs

theorem ghost {P : σ → γ → Prop} (move : γ → ℓ → γ) {g : γ} (h : Trace step s ls t)
    (hstep : ∀ l ∈ ls, ∀ s t g, step l s t → P s g → P t (move g l)) (hs : P s g) :
    P t (ls.foldl move g) := by
  induction h generalizing g with
  | nil => exact hs
  | cons hone _ ih =>
    apply ih (fun l hl => hstep l (List.mem_cons_of_mem _ hl))
    exact hstep _ List.mem_cons_self _ _ _ hone hs

end Trace
