import Mathlib.Tactic

/-!
# Maps of shared and exclusive locks

Which lock each owner holds at each position. An owner may take a lock on a range unless
another owner holds one there that conflicts with it; maps that grow in this way never
have two owners with conflicting locks at one position.
-/

inductive LockMode
  | shared
  | excl
  deriving DecidableEq, Repr

def LockMode.Conflicts (a b : LockMode) : Prop := a = .excl ∨ b = .excl

instance (a b : LockMode) : Decidable (a.Conflicts b) := inferInstanceAs (Decidable (_ ∨ _))

theorem LockMode.not_conflicts_iff {a b : LockMode} :
    ¬a.Conflicts b ↔ a = .shared ∧ b = .shared := by
  cases a <;> cases b <;> simp [Conflicts]

abbrev LockMap (Owner Pos : Type*) := Owner → Pos → Option LockMode

namespace LockMap

variable {Owner Pos : Type*} {m : LockMap Owner Pos} {o : Owner} {r : Set Pos} {mode : LockMode}

def Blocked (m : LockMap Owner Pos) (o : Owner) (r : Set Pos) (mode : LockMode) : Prop :=
  ∃ o' ≠ o, ∃ p ∈ r, ∃ held, m o' p = some held ∧ mode.Conflicts held

def Consistent (m : LockMap Owner Pos) : Prop :=
  ∀ o o' p a b, o ≠ o' → m o p = some a → m o' p = some b → ¬a.Conflicts b

open Classical in
/-- The locks of one owner on a range are set, or cleared with `none`. -/
noncomputable def assign (m : LockMap Owner Pos) (o : Owner) (r : Set Pos)
    (v : Option LockMode) : LockMap Owner Pos :=
  fun o' p => if o' = o ∧ p ∈ r then v else m o' p

theorem assign_eq_some {v} {o'} {p : Pos} {a} : m.assign o r v o' p = some a ↔
      (o' = o ∧ p ∈ r) ∧ v = some a ∨ ¬(o' = o ∧ p ∈ r) ∧ m o' p = some a := by
  unfold assign
  split_ifs with h <;> simp [h]

end LockMap
