import CephDokan.Common.Buffer

/-!
# Calls that come to an end

Loops and recursions along pointers are given fuel. A call returns when it comes to the same
result with all fuel from some amount on; calls in sequence, in a branch and in a loop return
when their parts do.
-/

namespace CephDokan.Client

open Fallible

def Returns {α : Type} (call : ℕ → Run α) (a : α) : Prop :=
  ∃ bound, ∀ fuel, bound ≤ fuel → call fuel = .ok a

namespace Returns

variable {α β : Type} {call : ℕ → Run α} {a b : α}

theorem unique (h : Returns call a) (h' : Returns call b) : a = b := by
  obtain ⟨m, hm⟩ := h
  obtain ⟨m', hm'⟩ := h'
  have heq := (hm (max m m') (le_max_left _ _)).symm.trans (hm' (max m m') (le_max_right _ _))
  exact Except.ok.inj heq

theorem map (h : Returns call a) (f : α → β) : Returns (fun fuel => (call fuel).map f) (f a) := by
  obtain ⟨m, hm⟩ := h
  refine ⟨m, fun fuel hfuel => ?_⟩
  dsimp only
  rw [hm fuel hfuel]
  rfl

theorem ok (a : α) : Returns (fun _ => .ok a) a := ⟨0, fun _ _ => rfl⟩

theorem of_eq {x} (h : x = .ok a) : Returns (fun _ => x) a := ⟨0, fun _ _ => h⟩

theorem of_succ (h : Returns (fun fuel => call (fuel + 1)) a) : Returns call a := by
  obtain ⟨m, hm⟩ := h
  refine ⟨m + 1, fun fuel hfuel => ?_⟩
  obtain ⟨fuel, rfl⟩ : ∃ n, fuel = n + 1 := ⟨fuel - 1, by omega⟩
  exact hm fuel (by omega)

theorem bind {next : ℕ → α → Run β} {b} (h : Returns call a)
    (h' : Returns (fun fuel => next fuel a) b) :
    Returns (fun fuel => call fuel >>= next fuel) b := by
  obtain ⟨m, hm⟩ := h
  obtain ⟨m', hm'⟩ := h'
  refine ⟨max m m', fun fuel hfuel => ?_⟩
  dsimp only
  rw [hm fuel ((le_max_left _ _).trans hfuel), ok_bind]
  exact hm' fuel ((le_max_right _ _).trans hfuel)

theorem foldlM {γ : Type} {op : ℕ → α → γ → Run α} {P : α → Prop} {l : List γ}
    (hop : ∀ c ∈ l, ∀ a, P a → ∃ b, Returns (fun fuel => op fuel a c) b ∧ P b) (ha : P a) :
    ∃ b, Returns (fun fuel => l.foldlM (op fuel) a) b ∧ P b := by
  induction l generalizing a with
  | nil => exact ⟨a, ok a, ha⟩
  | cons c l ih =>
    obtain ⟨b, hb, hPb⟩ := hop c List.mem_cons_self a ha
    obtain ⟨d, hd, hPd⟩ := ih (fun c hc => hop c (List.mem_cons_of_mem _ hc)) hPb
    refine ⟨d, ?_, hPd⟩
    exact hb.bind hd

end Returns

def Steady {α : Type} (call : ℕ → Run α) : Prop :=
  ∀ fuel fuel' a, fuel ≤ fuel' → call fuel = .ok a → call fuel' = .ok a

namespace Steady

variable {α β : Type} {call : ℕ → Run α}

theorem returns (h : Steady call) {fuel} {a} (hcall : call fuel = .ok a) : Returns call a :=
  ⟨fuel, fun fuel' hle => h fuel fuel' a hle hcall⟩

theorem const (x : Run α) : Steady fun _ => x := fun _ _ _ _ h => h

theorem bind {next : ℕ → α → Run β} (h : Steady call)
    (hnext : ∀ a, Steady fun fuel => next fuel a) : Steady fun fuel => call fuel >>= next fuel := by
  intro fuel fuel' b hle hb
  obtain ⟨a, ha, hb⟩ := bind_eq_ok.mp hb
  exact bind_eq_ok.mpr ⟨a, h fuel fuel' a hle ha, hnext a fuel fuel' b hle hb⟩

theorem map (h : Steady call) (f : α → β) : Steady fun fuel => (call fuel).map f := by
  intro fuel fuel' b hle hb
  obtain ⟨a, ha, rfl⟩ := map_eq_ok.mp hb
  exact map_eq_ok.mpr ⟨a, h fuel fuel' a hle ha, rfl⟩

theorem ite {c} [Decidable c] {call'} (h : Steady call) (h' : Steady call') :
    Steady fun fuel => if c then call fuel else call' fuel := by
  by_cases hc : c
  · simp only [if_pos hc]
    exact h
  · simp only [if_neg hc]
    exact h'

theorem foldlM {γ : Type} {op : ℕ → α → γ → Run α} (hop : ∀ a c, Steady fun fuel => op fuel a c)
    (l : List γ) (a : α) : Steady fun fuel => l.foldlM (op fuel) a := by
  induction l generalizing a with
  | nil => exact const _
  | cons c l ih =>
    exact (hop a c).bind ih

end Steady

end CephDokan.Client
