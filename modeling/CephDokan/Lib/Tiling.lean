import CephDokan.Lib.SortedMap

/-!
# Tilings of a range by pieces

A sorted map from positions to pieces, each piece with a size. `Covers D m` says that
the pieces of `m` are disjoint and that together they cover exactly the set `D`; pieces
may be inserted in any order. Once `D` is a range, every piece starts where the one
before it ends.
-/

namespace Tiling

open SortedMap List

variable {α : Type*} (size : α → ℕ)

/-- The pieces of `m` are non-empty, disjoint and cover exactly `D`. -/
structure Covers (D : Set ℕ) (m : SortedMap ℕ α) : Prop where
  inside : ∀ e ∈ m.entries, 0 < size e.2 ∧ ∀ i, e.1 ≤ i → i < e.1 + size e.2 → i ∈ D
  covered : ∀ i ∈ D, ∃ e ∈ m.entries, e.1 ≤ i ∧ i < e.1 + size e.2
  disjoint : m.entries.Pairwise (fun e f => e.1 + size e.2 ≤ f.1)

/-- The pieces follow each other without a gap from `a` to `b`. -/
inductive Chain : ℕ → List (ℕ × α) → ℕ → Prop
  | nil (a : ℕ) : Chain a [] a
  | cons {a b : ℕ} {v : α} {es : List (ℕ × α)} : Chain (a + size v) es b → Chain a ((a, v) :: es) b

variable {size}

theorem covers_empty : Covers size ∅ (∅ : SortedMap ℕ α) := by
  constructor <;> simp

variable {p : ℕ} {v : α}

namespace Covers

variable {D : Set ℕ} {m : SortedMap ℕ α}

theorem insert (hm : Covers size D m) (hpos : 0 < size v)
    (hfree : ∀ i, p ≤ i → i < p + size v → i ∉ D) :
    Covers size (D ∪ Set.Ico p (p + size v)) (m.insert p v) := by
  have hkey : ∀ e ∈ m.entries, e.1 + size e.2 ≤ p ∨ p + size v ≤ e.1 := by
    intro e he
    obtain ⟨hsize, hin⟩ := hm.inside e he
    by_contra hboth
    have h1 := hin (max e.1 p) (by omega) (by omega)
    exact hfree (max e.1 p) (by omega) (by omega) h1
  constructor
  · intro e he
    rcases (mem_insert _ _ _).mp he with rfl | ⟨he, -⟩
    · exact ⟨hpos, fun i h1 h2 => .inr ⟨h1, h2⟩⟩
    · exact ⟨(hm.inside e he).1, fun i h1 h2 => .inl ((hm.inside e he).2 i h1 h2)⟩
  · intro i hi
    cases hi with
    | inl hi =>
      obtain ⟨e, he, hin⟩ := hm.covered i hi
      refine ⟨e, (mem_insert _ _ _).mpr (.inr ⟨he, ?_⟩), hin⟩
      have hfar := hkey e he
      omega
    | inr hi => exact ⟨(p, v), (mem_insert _ _ _).mpr (.inl rfl), hi⟩
  · have hpair : ∀ e ∈ (m.insert p v).entries, ∀ f ∈ (m.insert p v).entries, e.1 < f.1 →
        e.1 + size e.2 ≤ f.1 := by
      intro e he f hf hlt
      rcases (mem_insert _ _ _).mp he with rfl | ⟨he, -⟩ <;>
        rcases (mem_insert _ _ _).mp hf with rfl | ⟨hf, -⟩
      · exact absurd hlt (lt_irrefl _)
      · cases hkey f hf with
        | inl h => simp only at hlt; omega
        | inr h => exact h
      · cases hkey e he with
        | inl h => exact h
        | inr h => simp only at hlt; omega
      · obtain ⟨j, hj, rfl⟩ := getElem_of_mem he
        obtain ⟨k, hk, rfl⟩ := getElem_of_mem hf
        have hjk : j < k := by
          by_contra hkj
          rcases (not_lt.mp hkj).eq_or_lt with rfl | hkj
          · exact lt_irrefl _ hlt
          · exact lt_asymm hlt (pairwise_iff_getElem.mp m.sorted k j hk hj hkj)
        exact pairwise_iff_getElem.mp hm.disjoint j k hj hk hjk
    exact (m.insert p v).sorted.imp_of_mem (fun he hf hlt => hpair _ he _ hf hlt)

end Covers

variable {es : List (ℕ × α)} {a b : ℕ}

theorem chain_of_pairwise (hab : a ≤ b)
    (hpos : ∀ e ∈ es, 0 < size e.2 ∧ a ≤ e.1 ∧ e.1 + size e.2 ≤ b)
    (hcov : ∀ i, a ≤ i → i < b → ∃ e ∈ es, e.1 ≤ i ∧ i < e.1 + size e.2)
    (hdisj : es.Pairwise (fun e f => e.1 + size e.2 ≤ f.1)) : Chain size a es b := by
  induction es generalizing a with
  | nil =>
    obtain rfl : a = b := by
      by_contra hne
      obtain ⟨e, he, -⟩ := hcov a le_rfl (by omega)
      simp at he
    exact Chain.nil a
  | cons e es ih =>
    obtain ⟨hfirst, hrest⟩ := pairwise_cons.mp hdisj
    obtain ⟨hsize, hlo, hhi⟩ := hpos e mem_cons_self
    have hstart : e.1 = a := by
      obtain ⟨f, hf, h1, -⟩ := hcov a le_rfl (by omega)
      rcases mem_cons.mp hf with rfl | hf
      · omega
      · have := hfirst f hf
        omega
    obtain ⟨p, v⟩ := e
    subst hstart
    refine Chain.cons (ih hhi ?_ ?_ hrest)
    · intro f hf
      obtain ⟨h1, -, h3⟩ := hpos f (mem_cons_of_mem _ hf)
      exact ⟨h1, hfirst f hf, h3⟩
    · intro i h1 h2
      obtain ⟨f, hf, h3, h4⟩ := hcov i (by omega) h2
      rcases mem_cons.mp hf with rfl | hf
      · simp only at h4
        omega
      · exact ⟨f, hf, h3, h4⟩

/-- Disjoint pieces that cover a range follow each other without a gap. -/
theorem Covers.chain {m} (hm : Covers size (Set.Iio b) m) : Chain size 0 m.entries b := by
  apply chain_of_pairwise (Nat.zero_le b)
  · intro e he
    obtain ⟨hsize, hin⟩ := hm.inside e he
    have hlast : e.1 + size e.2 - 1 < b := hin _ (by omega) (by omega)
    exact ⟨hsize, Nat.zero_le _, by omega⟩
  · intro i _ hi
    exact hm.covered i hi
  · exact hm.disjoint

theorem Chain.le (h : Chain size a es b) : a ≤ b := by
  induction h with
  | nil a => exact le_rfl
  | cons _ ih => omega

theorem Chain.end_eq (h : Chain size a (es ++ [(p, v)]) b) : p + size v = b := by
  induction es generalizing a with
  | nil =>
    cases h with
    | cons h =>
      cases h
      rfl
  | cons e es ih =>
    cases h with
    | cons h => exact ih h

end Tiling
