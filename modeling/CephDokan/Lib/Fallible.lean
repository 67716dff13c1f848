import Mathlib.Tactic

/-!
# Computations that can fail

Sequencing in `Except`: what a successful run of a sequence says about its parts,
and checks that stop the run.
-/

namespace Fallible

open Except

universe u v

variable {ε : Type u} {α β : Type v}

@[simp] theorem ok_bind (a : α) (f : α → Except ε β) : (ok a >>= f) = f a := rfl

@[simp] theorem error_bind (e : ε) (f : α → Except ε β) :
    ((error e : Except ε α) >>= f) = error e := rfl

@[simp] theorem pure_eq_ok (a : α) : (pure a : Except ε α) = ok a := rfl

section

variable {x : Except ε α} {b : β}

theorem bind_eq_ok {f} : (x >>= f) = ok b ↔ ∃ a, x = ok a ∧ f a = ok b := by
  cases x with
  | error e => simp
  | ok a => simp

theorem map_eq_ok {f} : x.map f = ok b ↔ ∃ a, x = ok a ∧ f a = b := by
  cases x with
  | error e => simp [Except.map]
  | ok a => simp [Except.map]

theorem exists_of_isOk (h : x.isOk = true) : ∃ a, x = ok a := by
  cases x with
  | error e => cases h
  | ok a => exact ⟨a, rfl⟩

theorem eq_ok_getD (d : α) (h : x.isOk = true) : x = ok (x.toOption.getD d) := by
  cases x with
  | error e => cases h
  | ok a => rfl

end

/-- The result of a call under a name, so that only `decide` runs the call. -/
theorem exists_eq_getD (d : α) (x : Except ε α) (h : x.isOk = true) :
    ∃ a, a = x.toOption.getD d ∧ x = ok a :=
  ⟨_, rfl, eq_ok_getD d h⟩

theorem eq_ok_of_toOption {x : Except ε α} {a : α} (h : x.toOption = some a) : x = ok a := by
  cases x with
  | error e => cases h
  | ok b => exact congrArg ok (Option.some.inj h)

def fault? : Except ε α → Option ε
  | .error e => some e
  | .ok _ => none

variable {e : ε}

theorem eq_error_of_fault? {x : Except ε α} (h : fault? x = some e) : x = error e := by
  cases x with
  | error d => exact congrArg error (Option.some.inj h)
  | ok a => cases h

/-- Continue when `c` holds, otherwise stop with `e`. -/
def check (e : ε) (c : Prop) [Decidable c] : Except ε Unit :=
  if c then ok () else error e

theorem check_eq_ok {c} [Decidable c] {u} : check e c = ok u ↔ c := by
  unfold check
  split_ifs with h <;> simp [h]

theorem check_of {c} [Decidable c] (h : c) : check e c = ok () := if_pos h

abbrev Yields (x : Except ε α) (P : α → Prop) : Prop := ∃ a, x = ok a ∧ P a

section

variable {σ : Type v} {α : Type u} {op : σ → α → Except ε σ} {P : σ → Prop} {l : List α}

theorem foldlM_total {s : σ} (hstep : ∀ a ∈ l, ∀ t, P t → Yields (op t a) P) (hs : P s) :
    Yields (l.foldlM op s) P := by
  induction l generalizing s with
  | nil => exact ⟨s, rfl, hs⟩
  | cons a l ih =>
    obtain ⟨t, hrun, ht⟩ := hstep a List.mem_cons_self s hs
    rw [List.foldlM_cons, hrun, ok_bind]
    exact ih (fun b hb => hstep b (List.mem_cons_of_mem _ hb)) ht

theorem foldlM_invariant {s s' : σ} (hrun : l.foldlM op s = ok s')
    (hstep : ∀ a ∈ l, ∀ t t', P t → op t a = ok t' → P t') (hs : P s) : P s' := by
  induction l generalizing s with
  | nil =>
    cases hrun
    exact hs
  | cons a l ih =>
    obtain ⟨t, ht, hrun⟩ := bind_eq_ok.mp hrun
    exact ih hrun (fun b hb => hstep b (List.mem_cons_of_mem _ hb))
      (hstep a List.mem_cons_self s t hs ht)

end

/-- A condition on every round of a loop and the state it meets. -/
def Along {σ : Type v} {α : Type u} (op : σ → α → Except ε σ) (P : σ → α → Prop) :
    σ → List α → Prop
  | _, [] => True
  | s, a :: l => P s a ∧ ∀ t, op s a = ok t → Along op P t l

theorem foldlM_cons_eq_ok {σ : Type v} {α : Type u} {op : σ → α → Except ε σ} {a : α}
    {l} {s s' : σ} : (a :: l).foldlM op s = ok s' ↔ ∃ t, op s a = ok t ∧ l.foldlM op t = ok s' := by
  rw [List.foldlM_cons, bind_eq_ok]

end Fallible
