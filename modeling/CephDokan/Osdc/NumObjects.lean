import CephDokan.Osdc.FileToExtents

/-!
# Counting the objects of a file

`get_num_objects` counts whole periods and corrects for a last one whose first stripe is not
full. The striping loop deals blocks to objects one by one, so the largest object number it meets
is that of the last block, or of the end of the first row of the last set.
-/

namespace CephDokan.Striper

open Striping FileLayout

/-- `get_num_objects`, or nothing where it divides by zero. Both products are of two `__u32`. -/
def getNumObjects (layout : FileLayout) (size : ℕ) : Option ℕ :=
  let objectSize := layout.objectSize
  let stripeUnit := layout.stripeUnit
  let stripeCount := layout.stripeCount
  let period := u32 (stripeCount * objectSize)
  if period = 0 then none
  else
    let numPeriods := u64 (size + period - 1) / period
    let remainderBytes := size % period
    let remainderObjs :=
      if remainderBytes > 0 ∧ remainderBytes < u32 (stripeCount * stripeUnit) then
        sub64 stripeCount (u64 (remainderBytes + stripeUnit - 1) / stripeUnit)
      else 0
    some (sub64 (u64 (numPeriods * stripeCount)) remainderObjs)

/-- `n` is one more than the largest number of an object that the first `size` bytes of the file
touch, and zero for no bytes. -/
def CountsObjects (layout : FileLayout) (ino truncSize size n : ℕ) : Prop :=
  if size = 0 then n = 0
  else ∃ exs, fileToExtents ino layout 0 size truncSize = .ok exs ∧
    (∃ ex ∈ exs, ex.objectno + 1 = n) ∧ ∀ ex ∈ exs, ex.objectno + 1 ≤ n

variable {layout : FileLayout}

section

variable (hv : cephFileLayoutIsValid layout = true)

include hv

theorem shape_period : (shape hv).period = layout.stripeCount * layout.objectSize := by
  have hcap := shape_capacity hv
  rw [← hcap]
  change layout.stripeUnit * (layout.stripeCount * _) = layout.stripeCount * (_ * layout.stripeUnit)
  ring

variable {size : ℕ}

theorem objectsTo_layout (hsize : 0 < size) : (shape hv).objectsTo (size - 1) =
      (size + layout.stripeCount * layout.objectSize - 1) /
        (layout.stripeCount * layout.objectSize) * layout.stripeCount -
      if 0 < size % (layout.stripeCount * layout.objectSize) ∧
          size % (layout.stripeCount * layout.objectSize) <
            layout.stripeCount * layout.stripeUnit then
        layout.stripeCount - (size % (layout.stripeCount * layout.objectSize) +
          layout.stripeUnit - 1) / layout.stripeUnit
      else 0 := by
  have heq := (shape hv).objectsTo_eq hsize
  rw [shape_period] at heq
  exact heq

theorem countsObjects_iff (ino truncSize : ℕ) (hsize : 0 < size) (hrange : size < 2 ^ 64) (n : ℕ) :
    CountsObjects layout ino truncSize size n ↔ n = (shape hv).objectsTo (size - 1) := by
  obtain ⟨exs, hrun, hmem, -⟩ := fileToExtents_spec hv ino truncSize hsize
    (show 0 + size < 2 ^ 64 by omega)
  have hbelow : ∀ ex ∈ exs, ex.objectno + 1 ≤ (shape hv).objectsTo (size - 1) := by
    intro ex hex
    obtain ⟨o, ⟨p, -, hp, rfl⟩, rfl⟩ := (hmem ex).mp hex
    exact (shape hv).object_lt_objectsTo (show p ≤ size - 1 by omega)
  have hlast : ∃ ex ∈ exs, ex.objectno + 1 = (shape hv).objectsTo (size - 1) := by
    obtain ⟨p, hp, hobj⟩ := (shape hv).exists_object_objectsTo (size - 1)
    exact ⟨_, (hmem _).mpr ⟨layout.objectAt p, ⟨p, by omega, by omega, rfl⟩, rfl⟩, hobj⟩
  unfold CountsObjects
  rw [if_neg hsize.ne', hrun]
  constructor
  · rintro ⟨exs', hrun', ⟨ex, hex, hn⟩, hmax⟩
    cases hrun'
    obtain ⟨ex', hex', hn'⟩ := hlast
    have h1 := hbelow ex hex
    have h2 := hmax ex' hex'
    omega
  · rintro rfl
    exact ⟨exs, rfl, hlast, hbelow⟩

/-- Without overflow the corrected count of periods is the count of objects. -/
theorem getNumObjects_eq (hperiod : layout.stripeCount * layout.objectSize < 2 ^ 32)
    (hrange : size + layout.stripeCount * layout.objectSize < 2 ^ 64) :
    getNumObjects layout size = some (if size = 0 then 0 else (shape hv).objectsTo (size - 1)) := by
  obtain ⟨-, -, -, -, hle, -, -⟩ := layout.valid_iff.mp hv
  have hpos := (shape hv).period_pos
  have hcorrect := fun h : 0 < size => objectsTo_layout hv h
  rw [shape_period] at hpos
  have hrow := Nat.mul_le_mul_left layout.stripeCount hle
  have hcell := Nat.le_mul_of_pos_right layout.stripeCount (Nat.pos_of_mul_pos_left hpos)
  have hunit := layout.stripeUnit_lt
  unfold getNumObjects
  dsimp only
  rw [u32_of_lt hperiod, u32_of_lt (hrow.trans_lt hperiod)]
  generalize layout.stripeCount * layout.objectSize = period at *
  have hrest := Nat.mod_lt size hpos
  have hobjs : (size + period - 1) / period * layout.stripeCount < 2 ^ 64 := by
    have hbytes := Nat.div_mul_le_self (size + period - 1) period
    have hmul := Nat.mul_le_mul_left ((size + period - 1) / period) hcell
    omega
  rw [if_neg hpos.ne', u64_of_lt (show size + period - 1 < 2 ^ 64 by omega), u64_of_lt hobjs,
    u64_of_lt (show size % period + layout.stripeUnit - 1 < 2 ^ 64 by omega)]
  by_cases hzero : size = 0
  · subst hzero
    rw [if_pos rfl, Nat.zero_add, Nat.div_eq_of_lt (by omega), Nat.zero_mod, if_neg (by omega),
      Nat.zero_mul, sub64_of_le le_rfl (by omega)]
  · rw [if_neg hzero, hcorrect (Nat.pos_of_ne_zero hzero)]
    have hone : 0 < (size + period - 1) / period := Nat.div_pos (by omega) hpos
    have hall := Nat.le_mul_of_pos_left layout.stripeCount hone
    by_cases hshort : 0 < size % period ∧ size % period < layout.stripeCount * layout.stripeUnit
    · have hmet : (size % period + layout.stripeUnit - 1) / layout.stripeUnit ≤
          layout.stripeCount := by
        rw [← Nat.lt_succ_iff]
        apply Nat.div_lt_of_lt_mul
        rw [Nat.mul_succ, Nat.mul_comm layout.stripeUnit]
        omega
      rw [if_pos hshort, if_pos hshort, sub64_of_le hmet (by omega),
        sub64_of_le ((Nat.sub_le _ _).trans hall) hobjs]
    · rw [if_neg hshort, if_neg hshort, sub64_of_le (Nat.zero_le _) hobjs]

/-- Where the bytes of an object set do not fit 32 bits, some file is miscounted. -/
theorem getNumObjects_overflow (hperiod : 2 ^ 32 ≤ layout.stripeCount * layout.objectSize) :
    ∃ size, size + layout.stripeCount * layout.objectSize < 2 ^ 64 ∧ 0 < size ∧
      getNumObjects layout size ≠ some ((shape hv).objectsTo (size - 1)) := by
  obtain ⟨hunit0, -, -, hmask, -, -, hcount⟩ := layout.valid_iff.mp hv
  have hproduct : layout.stripeCount * layout.objectSize ≤ (2 ^ 32 - 1) * (2 ^ 32 - 1) :=
    Nat.mul_le_mul (Nat.le_pred_of_lt layout.stripeCount_lt)
      (Nat.le_pred_of_lt layout.objectSize_lt)
  have hless : u32 (layout.stripeCount * layout.objectSize) < 2 ^ 32 := Nat.mod_lt _ (by decide)
  have hmultiple : 65536 ∣ u32 (layout.stripeCount * layout.objectSize) := by
    have hsize : 65536 ∣ layout.objectSize := by
      rw [Nat.dvd_iff_mod_eq_zero, ← hmask]
      exact (Nat.and_two_pow_sub_one_eq_mod layout.objectSize 16).symm
    exact (Nat.dvd_mod_iff (by decide)).mpr (hsize.mul_left _)
  refine ⟨u32 (layout.stripeCount * layout.objectSize) + 1, by omega, by omega, ?_⟩
  -- the whole range lies in the first object set
  have htrue : (shape hv).objectsTo (u32 (layout.stripeCount * layout.objectSize)) ≤
      layout.stripeCount := by
    unfold Shape.objectsTo
    rw [shape_period, Nat.div_eq_of_lt (by omega), Nat.zero_mul, Nat.zero_add]
    exact min_le_left _ _
  unfold getNumObjects
  dsimp only
  rw [Nat.add_sub_cancel]
  generalize u32 (layout.stripeCount * layout.objectSize) = period at *
  by_cases hzero : period = 0
  · rw [if_pos hzero]
    exact nofun
  · have htwo : (period + 1 + period - 1) / period = 2 := by
      rw [show period + 1 + period - 1 = 2 * period by omega, Nat.mul_div_cancel _ (by omega)]
    have hone : (period + 1) % period = 1 := by
      rw [Nat.add_mod_left, Nat.mod_eq_of_lt (by omega)]
    have hsc := layout.stripeCount_lt
    rw [if_neg hzero, u64_of_lt (show period + 1 + period - 1 < 2 ^ 64 by omega), htwo, hone,
      u64_of_lt (show 2 * layout.stripeCount < 2 ^ 64 by omega)]
    intro heq
    have hn := Option.some.inj heq
    split_ifs at hn with hshort
    · have hunit : (1 + layout.stripeUnit - 1) / layout.stripeUnit = 1 := by
        rw [Nat.add_sub_cancel_left, Nat.div_self (Nat.pos_of_ne_zero hunit0)]
      have hsu := layout.stripeUnit_lt
      rw [u64_of_lt (by omega), hunit,
        sub64_of_le (show 1 ≤ layout.stripeCount by omega) (by omega),
        sub64_of_le (show layout.stripeCount - 1 ≤ 2 * layout.stripeCount by omega)
          (by omega)] at hn
      omega
    · rw [sub64_of_le (by omega) (by omega)] at hn
      omega

end

/-- For a valid layout, `get_num_objects` counts the objects of the files of every size exactly
when the bytes of an object set fit 32 bits. -/
theorem getNumObjects_iff (layout : FileLayout) (hv : cephFileLayoutIsValid layout = true) :
    (∀ ino truncSize size, size + layout.stripeCount * layout.objectSize < 2 ^ 64 →
      ∃ n, getNumObjects layout size = some n ∧ CountsObjects layout ino truncSize size n) ↔
    layout.stripeCount * layout.objectSize < 2 ^ 32 := by
  constructor
  · intro hall
    by_contra hover
    obtain ⟨size, hrange, hpos, hne⟩ := getNumObjects_overflow hv (not_lt.mp hover)
    obtain ⟨n, hn, hcount⟩ := hall 1 0 size hrange
    rw [(countsObjects_iff hv 1 0 hpos (by omega) n).mp hcount] at hn
    exact hne hn
  · intro hperiod ino truncSize size hrange
    refine ⟨_, getNumObjects_eq hv hperiod hrange, ?_⟩
    by_cases hzero : size = 0
    · rw [if_pos hzero, CountsObjects, if_pos hzero]
    · rw [if_neg hzero, countsObjects_iff hv ino truncSize (by omega) (by omega)]

/-- Objects of four units in sets of three. -/
theorem getNumObjects_iff_threeStripes :
    let layout : FileLayout :=
      { stripeUnit := 65536, stripeCount := 3, objectSize := 262144, pgPool := 0 }
    cephFileLayoutIsValid layout = true ∧
    ((∀ ino truncSize size, size + layout.stripeCount * layout.objectSize < 2 ^ 64 →
      ∃ n, getNumObjects layout size = some n ∧ CountsObjects layout ino truncSize size n) ↔
    layout.stripeCount * layout.objectSize < 2 ^ 32) :=
  ⟨by decide, getNumObjects_iff _ (by decide)⟩

/-- With 65536 objects of 64k in a set the period is zero. -/
theorem getNumObjects_divides_by_zero :
    let layout : FileLayout :=
      { stripeUnit := 65536, stripeCount := 65536, objectSize := 65536, pgPool := 0 }
    cephFileLayoutIsValid layout = true ∧
    1 + layout.stripeCount * layout.objectSize < 2 ^ 64 ∧ getNumObjects layout 1 = none := by
  decide

end CephDokan.Striper
