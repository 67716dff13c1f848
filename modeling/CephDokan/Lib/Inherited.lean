import Mathlib.Tactic

/-!
# Values inherited in a forest, and their caches

Every node of a forest has data of its own and perhaps a parent; its value is built from its
data and the value of its parent. Nodes may keep their value in a cache. When a node changes,
the caches at it and below it may be wrong: `Current` says that wrong caches are found below
the nodes of a set only.
-/

namespace Inherited

variable {α δ ν : Type*}

/-- The nodes, each with its data and its parent. -/
abbrev Forest (α δ : Type*) := α → Option (δ × Option α)

inductive Value (build : δ → Option ν → ν) (t : Forest α δ) : α → ν → Prop
  | root {i : α} {d : δ} (h : t i = some (d, none)) : Value build t i (build d none)
  | child {i p : α} {d : δ} {v : ν} (h : t i = some (d, some p)) (hp : Value build t p v) :
      Value build t i (build d (some v))

/-- `Below t i j`: node `i` is `j` or below it. -/
inductive Below (t : Forest α δ) : α → α → Prop
  | refl (i : α) : Below t i i
  | up {i p j : α} {d : δ} (h : t i = some (d, some p)) (hp : Below t p j) : Below t i j

def Closed (t : Forest α δ) : Prop := ∀ i d p, t i = some (d, some p) → ∃ n, t p = some n

/-- Wrong caches are below nodes of `stale`. -/
def Current (build : δ → Option ν → ν) (t : Forest α δ) (cache : α → Option ν) (stale : Set α) :
    Prop :=
  ∀ i n v, t i = some n → cache i = some v → Value build t i v ∨ ∃ j ∈ stale, Below t i j

variable {build : δ → Option ν → ν} {t t' : Forest α δ} {cache cache' : α → Option ν}
  {stale stale' : Set α} {i j k r : α} {v v' : ν}

theorem Below.trans (h : Below t i j) (h' : Below t j k) : Below t i k := by
  induction h with
  | refl => exact h'
  | up hup _ ih => exact .up hup (ih h')

/-- The value of a node depends on the nodes above it only. -/
theorem Value.of_agree (h : Value build t i v) (hagree : ∀ j, Below t i j → t' j = t j) :
    Value build t' i v := by
  induction h with
  | root hroot => exact .root (by rw [hagree _ (.refl _), hroot])
  | child hchild _ ih =>
    refine .child (by rw [hagree _ (.refl _), hchild]) (ih ?_)
    intro j hj
    exact hagree j (.up hchild hj)

theorem Below.of_agree (h : Below t i j) (hagree : ∀ k, Below t i k → t' k = t k) :
    Below t' i j := by
  induction h with
  | refl => exact .refl _
  | up hup _ ih =>
    refine .up (by rw [hagree _ (.refl _), hup]) (ih ?_)
    intro k hk
    exact hagree k (.up hup hk)

theorem Below.exists_node (hclosed : Closed t) (h : Below t i j) {n}
    (hi : t i = some n) : ∃ n', t j = some n' := by
  induction h generalizing n with
  | refl => exact ⟨n, hi⟩
  | up hup _ ih =>
    obtain ⟨np, hp⟩ := hclosed _ _ _ hup
    exact ih hp

theorem Below.off (hoff : ∀ k, k ≠ r → t' k = t k) (h : Below t i j) :
    Below t' i j ∨ Below t' i r := by
  induction h with
  | refl => exact .inl (.refl _)
  | @up i p j d hup _ ih =>
    by_cases hi : i = r
    · subst hi
      exact .inr (.refl _)
    · rw [← hoff i hi] at hup
      exact ih.imp (.up hup) (.up hup)

section

variable (h : Current build t cache stale)

include h

/-- One node changes: what is below it may be wrong. -/
theorem Current.change [DecidableEq α]
    (hoff : ∀ k, k ≠ r → t' k = t k) : Current build t' cache (insert r stale) := by
  intro i n v hi hv
  by_cases hir : i = r
  · subst hir
    exact .inr ⟨i, Set.mem_insert _ _, .refl _⟩
  rw [hoff i hir] at hi
  rcases h i n v hi hv with hval | ⟨j, hj, hbelow⟩
  · by_cases hr : Below t i r
    · rcases hr.off hoff with hr | hr <;> exact .inr ⟨r, Set.mem_insert _ _, hr⟩
    · refine .inl (hval.of_agree fun j hj => hoff j ?_)
      rintro rfl
      exact hr hj
  · rcases hbelow.off hoff with hbelow | hbelow
    · exact .inr ⟨j, Set.mem_insert_of_mem _ hj, hbelow⟩
    · exact .inr ⟨r, Set.mem_insert _ _, hbelow⟩

theorem Current.shrink (hsub : ∀ i n, t' i = some n → t i = some n) (hclosed : Closed t') :
    Current build t' cache stale := by
  have hkeep : ∀ i n, t' i = some n → ∀ j, Below t i j → t' j = t j := by
    intro i n hi j hj
    induction hj generalizing n with
    | refl => rw [hi, hsub _ _ hi]
    | up hup _ ih =>
      have hi' := hsub _ _ hi
      rw [hup] at hi'
      cases hi'
      obtain ⟨np, hp⟩ := hclosed _ _ _ hi
      exact ih np hp
  intro i n v hi hv
  have hagree := hkeep i n hi
  rcases h i n v (hsub i n hi) hv with hval | ⟨j, hj, hbelow⟩
  · exact .inl (hval.of_agree hagree)
  · exact .inr ⟨j, hj, hbelow.of_agree hagree⟩

theorem Current.grow (hclosed : Closed t) (hnew : t r = none)
    (hoff : ∀ k, k ≠ r → t' k = t k ∧ cache' k = cache k) (hcache : cache' r = none) :
    Current build t' cache' stale := by
  intro i n v hi hv
  by_cases hir : i = r
  · subst hir
    rw [hcache] at hv
    cases hv
  rw [(hoff i hir).1] at hi
  rw [(hoff i hir).2] at hv
  have hagree : ∀ j, Below t i j → t' j = t j := by
    intro j hj
    refine (hoff j ?_).1
    rintro rfl
    obtain ⟨n', hn'⟩ := hj.exists_node hclosed hi
    rw [hnew] at hn'
    cases hn'
  rcases h i n v hi hv with hval | ⟨j, hj, hbelow⟩
  · exact .inl (hval.of_agree hagree)
  · exact .inr ⟨j, hj, hbelow.of_agree hagree⟩

theorem Current.absorb
    (hsub : ∀ j ∈ stale, ∃ k ∈ stale', Below t j k) : Current build t cache stale' := by
  intro i n v hi hv
  rcases h i n v hi hv with hval | ⟨j, hj, hbelow⟩
  · exact .inl hval
  · obtain ⟨k, hk, hjk⟩ := hsub j hj
    exact .inr ⟨k, hk, hbelow.trans hjk⟩

/-- A cache is filled with a value that is right, or below a node of `stale`. -/
theorem Current.fill [DecidableEq α] (hoff : ∀ k, k ≠ r → cache' k = cache k)
    (hr : ∀ v, cache' r = some v → Value build t r v ∨ ∃ j ∈ stale, Below t r j) :
    Current build t cache' stale := by
  intro i n v hi hv
  by_cases hir : i = r
  · subst hir
    exact hr v hv
  · rw [hoff i hir] at hv
    exact h i n v hi hv

/-- The caches below all nodes of `stale` are emptied. -/
theorem Current.clear (hcache : ∀ i v, cache' i = some v → cache i = some v)
    (hclear : ∀ i n j, t i = some n → j ∈ stale → Below t i j → cache' i = none) :
    Current build t cache' ∅ := by
  intro i n v hi hv
  rcases h i n v hi (hcache i v hv) with hval | ⟨j, hj, hbelow⟩
  · exact .inl hval
  · rw [hclear i n j hi hj hbelow] at hv
    cases hv

end

end Inherited
