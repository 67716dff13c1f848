import Mathlib.Tactic

/-!
# Counting references

The first `m` cells of a memory each hold a pointer or none. The number of those that lead to
a cell is what its reference counter should say; changing one pointer changes it at the old and
at the new target.
-/

/-- How many of the first `m` pointers lead to `n`. -/
def refCount (f : ℕ → Option ℕ) (m n : ℕ) : ℤ :=
  ∑ k ∈ Finset.range m, if f k = some n then 1 else 0

variable {f : ℕ → Option ℕ} {m n k : ℕ}

theorem refCount_update (hk : k < m) (v : Option ℕ) : refCount (Function.update f k v) m n =
      refCount f m n - (if f k = some n then 1 else 0) + if v = some n then 1 else 0 := by
  unfold refCount
  rw [← Finset.add_sum_erase _ _ (Finset.mem_range.mpr hk),
    ← Finset.add_sum_erase (Finset.range m) (fun k => if f k = some n then (1 : ℤ) else 0)
      (Finset.mem_range.mpr hk)]
  have hrest : ∑ j ∈ (Finset.range m).erase k,
        (if Function.update f k v j = some n then (1 : ℤ) else 0) =
      ∑ j ∈ (Finset.range m).erase k, if f j = some n then (1 : ℤ) else 0 := by
    refine Finset.sum_congr rfl fun j hj => ?_
    rw [Function.update_of_ne (Finset.ne_of_mem_erase hj)]
  rw [hrest, Function.update_self]
  ring

theorem refCount_pos (hk : k < m) (hf : f k = some n) : 0 < refCount f m n := by
  have hle : (1 : ℤ) ≤ ∑ j ∈ Finset.range m, if f j = some n then 1 else 0 := by
    have hone := Finset.single_le_sum (f := fun j => if f j = some n then (1 : ℤ) else 0)
      (fun j _ => by split_ifs <;> decide) (Finset.mem_range.mpr hk)
    simpa [hf] using hone
  exact hle

theorem exists_of_refCount_ne_zero (h : refCount f m n ≠ 0) : ∃ k, f k = some n := by
  by_contra hnone
  refine h (Finset.sum_eq_zero fun k _ => if_neg fun hf => hnone ⟨k, hf⟩)

theorem refCount_succ (hf : f m = none) : refCount f (m + 1) n = refCount f m n := by
  unfold refCount
  rw [Finset.sum_range_succ, hf]
  simp
