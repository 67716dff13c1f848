import CephDokan.Common.Buffer

/-!
# Throttles

A `Throttle` counts what was taken from it up to a maximum, both in an `atomic_t` of 32 bits that
wraps; one whose maximum is zero counts nothing. For a family of them `Owed` says that each counter
is what is still to be given back.
-/

namespace CephDokan

open Function

structure Throttle where
  max : UInt32
  count : UInt32
  deriving DecidableEq, Repr

namespace Throttle

/-- `_should_wait`, in `int64_t`. -/
def shouldWait (t : Throttle) (c : ℕ) : Bool :=
  let m := t.max.toNat
  let cur := t.count.toNat
  m ≠ 0 ∧ (c ≤ m ∧ cur + c > m ∨ c ≥ m ∧ cur > m)

/-- `get`, once there is nothing to wait for. -/
def get (t : Throttle) (c : ℕ) : Throttle :=
  if t.max = 0 then t else { t with count := t.count + .ofNat c }

def put (t : Throttle) (c : ℕ) : Run Throttle :=
  if t.max = 0 then .ok t
  else if c = 0 then .ok t
  else do
    -- if count goes negative, we failed somewhere!
    assertThat (t.count.toNat ≥ c)
    return { t with count := t.count - .ofNat c }

variable {ι : Type} [DecidableEq ι]

def take (ts : ι → Throttle) (i : ι) (c : ℕ) : ι → Throttle :=
  update ts i ((ts i).get c)

def give (ts : ι → Throttle) (i : ι) (c : ℕ) : Run (ι → Throttle) := do
  let t ← (ts i).put c
  return update ts i t

/-- The counters are the debts `d`. -/
def Owed (ts : ι → Throttle) (d : ι → ℕ) : Prop :=
  ∀ i, (ts i).count.toNat = if (ts i).max = 0 then 0 else d i

variable {ts : ι → Throttle} {d : ι → ℕ} {i : ι} {c : ℕ}

theorem max_take (ts : ι → Throttle) (i j : ι) (c : ℕ) : (take ts i c j).max = (ts j).max := by
  rw [take, update_apply]
  split_ifs with hj
  · rw [hj, get]
    split_ifs <;> rfl
  · rfl

/-- The sum of what was counted and `c` is a value of the counter, if there is one. -/
def Room (ts : ι → Throttle) (i : ι) (c : ℕ) : Prop :=
  (ts i).max ≠ 0 → (ts i).count.toNat + c < 2 ^ 32

theorem count_add_eq_iff (t : Throttle) (c : ℕ) :
    (t.count + .ofNat c).toNat = t.count.toNat + c ↔ t.count.toNat + c < 2 ^ 32 := by
  rw [UInt32.toNat_add, UInt32.toNat_ofNat', Nat.add_mod_mod, Nat.mod_eq_iff_lt (by decide)]

theorem Owed.take_iff (h : Owed ts d) (i : ι) (c : ℕ) :
    Owed (Throttle.take ts i c) (d + Pi.single i c) ↔ Room ts i c := by
  have hother {j : ι} (hj : j ≠ i) : Throttle.take ts i c j = ts j
      ∧ (d + Pi.single i c : ι → ℕ) j = d j := by
    rw [Throttle.take, update_of_ne hj, Pi.add_apply, Pi.single_eq_of_ne hj, Nat.add_zero]
    exact ⟨rfl, rfl⟩
  have hself : (Throttle.take ts i c i).count.toNat
      = (if (ts i).max = 0 then 0 else (d + Pi.single i c : ι → ℕ) i) ↔ Room ts i c := by
    have hcount := h i
    rw [Throttle.take, update_self, Pi.add_apply, Pi.single_eq_same, get, Room]
    split_ifs at hcount ⊢ with hmax
    · exact iff_of_true hcount fun hne => absurd hmax hne
    · rw [← hcount, count_add_eq_iff, forall_prop_of_true hmax]
  constructor
  · intro hs
    exact hself.mp (max_take ts i i c ▸ hs i)
  · intro hroom j
    rw [max_take]
    by_cases hj : j = i
    · rw [hj]
      exact hself.mpr hroom
    · obtain ⟨hts, hd⟩ := hother hj
      rw [hts, hd]
      exact h j

theorem Owed.give (h : Owed ts (d + Pi.single i c)) :
    ∃ ts', give ts i c = .ok ts' ∧ Owed ts' d ∧ ∀ j, (ts' j).max = (ts j).max := by
  have hi := h i
  rw [Pi.add_apply, Pi.single_eq_same] at hi
  obtain ⟨t, hput, hmax, hcount⟩ : ∃ t, (ts i).put c = .ok t ∧ t.max = (ts i).max
      ∧ t.count.toNat = if t.max = 0 then 0 else d i := by
    rw [put]
    by_cases hmax : (ts i).max = 0
    · rw [if_pos hmax] at hi
      exact ⟨ts i, if_pos hmax, rfl, by rw [if_pos hmax, hi]⟩
    rw [if_neg hmax] at hi ⊢
    by_cases hc : c = 0
    · exact ⟨ts i, if_pos hc, rfl, by rw [if_neg hmax, hi, hc, Nat.add_zero]⟩
    · have hle : c ≤ (ts i).count.toNat := by omega
      have hfits : (UInt32.ofNat c).toNat = c :=
        UInt32.toNat_ofNat_of_lt' (hle.trans_lt (ts i).count.toNat_lt)
      refine ⟨⟨(ts i).max, (ts i).count - .ofNat c⟩, ?_, rfl, ?_⟩
      · rw [if_neg hc, assertThat_of hle]
        rfl
      · rw [if_neg hmax, UInt32.toNat_sub_of_le _ _ (by rwa [UInt32.le_iff_toNat_le, hfits]), hfits]
        omega
  refine ⟨update ts i t, ?_, fun j => ?_, fun j => ?_⟩
  · rw [Throttle.give, hput]
    rfl
  · by_cases hj : j = i
    · rw [hj, update_self, hcount]
    · have hother := h j
      rwa [Pi.add_apply, Pi.single_eq_of_ne hj, Nat.add_zero, ← update_of_ne hj t ts] at hother
  · by_cases hj : j = i
    · rw [hj, update_self, hmax]
    · rw [update_of_ne hj]

omit [DecidableEq ι] in
theorem Owed.iff_eq (h : Owed ts d) (d' : ι → ℕ) :
    Owed ts d' ↔ ∀ i, (ts i).max ≠ 0 → d i = d' i := by
  constructor
  · intro h' i hmax
    have hi := h i
    rw [h' i, if_neg hmax, if_neg hmax] at hi
    exact hi.symm
  · intro hsame i
    rw [h i]
    split_ifs with hmax
    · rfl
    · exact hsame i hmax

end Throttle

end CephDokan
