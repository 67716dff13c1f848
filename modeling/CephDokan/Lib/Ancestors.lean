import Mathlib.Tactic

/-!
# Ancestors in a tree that is given by its parents

Nodes that reach the root by going to the parent have a depth. Some nodes are marked; the
nearest marked one on the way up, or the root, sees the same marked nodes above it.
-/

namespace Ancestors

variable {α : Type*} (up : α → Option α) (root : α) (mark : α → Prop)

/-- The root is reached in `d` steps. -/
inductive Depth : α → ℕ → Prop
  | root : Depth root 0
  | step {i p : α} {d : ℕ} (hne : i ≠ root) (hup : up i = some p) (h : Depth p d) : Depth i (d + 1)

/-- The first marked node on the way up, or the root. -/
inductive Nearest : α → α → Prop
  | mark {i : α} (h : mark i) : Nearest i i
  | root : Nearest root root
  | step {i p r : α} (hmark : ¬mark i) (hne : i ≠ root) (hup : up i = some p) (h : Nearest p r) :
      Nearest i r

/-- A node on the way up, the node itself included. -/
inductive Above : α → α → Prop
  | refl (i : α) : Above i i
  | step {i p j : α} (hne : i ≠ root) (hup : up i = some p) (h : Above p j) : Above i j

variable {up root mark} {i j p r r' : α} {d d' : ℕ}

theorem Depth.unique (h : Depth up root i d) (h' : Depth up root i d') : d = d' := by
  induction h generalizing d' with
  | root =>
    cases h' with
    | root => rfl
    | step hne => exact absurd rfl hne
  | step hne hup _ ih =>
    cases h' with
    | root => exact absurd rfl hne
    | step _ hup' h' =>
      cases hup.symm.trans hup'
      rw [ih h']

theorem Depth.eq_root (h : Depth up root i 0) : i = root := by
  cases h
  rfl

theorem Nearest.unique (h : Nearest up root mark i r) (h' : Nearest up root mark i r') :
    r = r' := by
  induction h generalizing r' with
  | mark hm =>
    cases h' with
    | mark => rfl
    | root => rfl
    | step hmark => exact absurd hm hmark
  | root =>
    cases h' with
    | mark => rfl
    | root => rfl
    | step _ hne => exact absurd rfl hne
  | step hmark hne hup _ ih =>
    cases h' with
    | mark hm => exact absurd hm hmark
    | root => exact absurd rfl hne
    | step _ _ hup' h' =>
      cases hup.symm.trans hup'
      exact ih h'

theorem Nearest.depth (h : Nearest up root mark i r) (hd : Depth up root i d) :
    ∃ e, e ≤ d ∧ Depth up root r e := by
  induction h generalizing d with
  | mark => exact ⟨d, le_rfl, hd⟩
  | root => exact ⟨d, le_rfl, hd⟩
  | step _ hne hup _ ih =>
    cases hd with
    | root => exact absurd rfl hne
    | step _ hup' hd =>
      cases hup.symm.trans hup'
      obtain ⟨e, he, hr⟩ := ih hd
      exact ⟨e, he.trans (Nat.le_succ _), hr⟩

variable {P : α → Prop}

theorem exists_above_iff (hne : i ≠ root) (hup : up i = some p) (hP : ¬P i) :
    (∃ j, Above up root i j ∧ P j) ↔ ∃ j, Above up root p j ∧ P j := by
  constructor
  · rintro ⟨j, habove, hj⟩
    cases habove with
    | refl => exact absurd hj hP
    | step _ hup' h =>
      cases hup.symm.trans hup'
      exact ⟨j, h, hj⟩
  · rintro ⟨j, habove, hj⟩
    exact ⟨j, .step hne hup habove, hj⟩

/-- A property of marked nodes is not met between a node and the nearest marked one. -/
theorem Nearest.exists_above_iff (hP : ∀ j, P j → mark j) (h : Nearest up root mark i r) :
    (∃ j, Above up root i j ∧ P j) ↔ ∃ j, Above up root r j ∧ P j := by
  induction h with
  | mark => exact Iff.rfl
  | root => exact Iff.rfl
  | step hmark hne hup _ ih =>
    exact (Ancestors.exists_above_iff hne hup fun h => hmark (hP _ h)).trans ih

theorem above_root (h : Above up root root j) : j = root := by
  cases h with
  | refl => rfl
  | step hne => exact absurd rfl hne

end Ancestors
