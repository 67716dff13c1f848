import CephDokan.Osdc.FileToExtents

/-!
# Truncation of a file, object by object

A truncated file keeps the bytes below the new size. In each object these are the bytes
below an offset, because the offsets of an object are handed out in file order; the cases
of `object_truncate_size` compare the object with the one that holds the byte at the new
size, first by object set, then by stripe position.
-/

namespace CephDokan.Striper

open Striping

theorem objectTruncateSize_position {layout} (hv : cephFileLayoutIsValid layout = true)
    (objectno : ℕ) {truncSize : ℕ} (hzero : truncSize ≠ 0) (hmax : truncSize ≠ 2 ^ 64 - 1) :
    ∃ size, objectTruncateSize layout objectno truncSize = .ok size ∧
      ∀ x < layout.objectSize,
        ((FileLayout.shape hv).position objectno x < truncSize ↔ x < size) := by
  obtain ⟨hunit, -, -, -, hle, hmod, hcount⟩ := layout.valid_iff.mp hv
  have hsize := Nat.div_mul_cancel (Nat.dvd_of_mod_eq_zero hmod)
  have hset : truncSize / layout.objectSize / layout.stripeCount =
      truncSize / layout.stripeUnit / layout.stripeCount /
        (layout.objectSize / layout.stripeUnit) := by
    conv_lhs => rw [← hsize]
    rw [Nat.div_div_eq_div_mul, Nat.div_div_eq_div_mul, Nat.div_div_eq_div_mul]
    congr 1
    ring
  have hlt : ∀ x < layout.objectSize, _ := fun x hx =>
    (FileLayout.shape hv).position_lt_iff (o := objectno) (x := x)
      ((FileLayout.shape_capacity hv).symm ▸ hx) truncSize
  simp only [FileLayout.shape] at hlt ⊢
  unfold objectTruncateSize
  rw [if_neg (by omega)]
  dsimp only
  rw [assertThat_of hle, Fallible.ok_bind, hset]
  have hobj := Nat.div_add_mod' objectno layout.stripeCount
  have hpos := Nat.pos_of_ne_zero hunit
  have hr := Nat.mod_lt truncSize hpos
  generalize truncSize / layout.stripeUnit / layout.stripeCount /
    (layout.objectSize / layout.stripeUnit) = set at hlt ⊢
  generalize truncSize / layout.stripeUnit / layout.stripeCount %
    (layout.objectSize / layout.stripeUnit) = k at hlt ⊢
  generalize truncSize / layout.stripeUnit % layout.stripeCount = q at hlt ⊢
  generalize truncSize % layout.stripeUnit = r at hlt hr ⊢
  by_cases hgt : objectno / layout.stripeCount > set
  · rw [if_pos hgt]
    refine ⟨0, rfl, fun x hx => ?_⟩
    rw [hlt x hx]
    omega
  by_cases hless : objectno / layout.stripeCount < set
  · rw [if_neg hgt, if_pos hless]
    refine ⟨layout.objectSize, rfl, fun x hx => ?_⟩
    rw [hlt x hx]
    omega
  have heq : objectno / layout.stripeCount = set := by omega
  rw [if_neg hgt, if_neg hless]
  rw [heq] at hobj hlt
  -- in the object set that is cut, compare the place in the stripe
  by_cases hbefore : objectno < set * layout.stripeCount + q
  · rw [if_pos hbefore]
    refine ⟨(k + 1) * layout.stripeUnit, rfl, fun x hx => ?_⟩
    rw [hlt x hx, ← Nat.div_lt_iff_lt_mul hpos]
    omega
  by_cases hafter : objectno > set * layout.stripeCount + q
  · rw [if_neg hbefore, if_pos hafter]
    refine ⟨k * layout.stripeUnit, rfl, fun x hx => ?_⟩
    rw [hlt x hx, ← Nat.div_lt_iff_lt_mul hpos]
    omega
  · rw [if_neg hbefore, if_neg hafter]
    refine ⟨k * layout.stripeUnit + r, rfl, fun x hx => ?_⟩
    conv_rhs => rw [← Nat.div_add_mod' x layout.stripeUnit]
    rw [hlt x hx, mul_add_lt_iff (Nat.mod_lt x hpos) hr]
    omega

/-- For every object number and every size but the two that stand for themselves, the bytes of
the object below the truncated size are those that come before the size in the file. -/
theorem objectTruncateSize_iff (layout : FileLayout) (hv : cephFileLayoutIsValid layout = true)
    (objectno truncSize : ℕ) (hzero : truncSize ≠ 0) (hmax : truncSize ≠ 2 ^ 64 - 1) :
    ∃ size, objectTruncateSize layout objectno truncSize = .ok size ∧
      ∀ x < layout.objectSize, ∃ pos,
        layout.objectAt pos = objectno ∧ layout.offsetAt pos = x ∧
        (∀ q, layout.objectAt q = objectno → layout.offsetAt q = x → q = pos) ∧
        (pos < truncSize ↔ x < size) := by
  obtain ⟨size, hsize, hiff⟩ := objectTruncateSize_position hv objectno hzero hmax
  refine ⟨size, hsize, fun x hx => ?_⟩
  have hcap : x < (FileLayout.shape hv).capacity := (FileLayout.shape_capacity hv).symm ▸ hx
  refine ⟨(FileLayout.shape hv).position objectno x, ?_, ?_, ?_, hiff x hx⟩
  · exact (FileLayout.shape hv).object_position hcap
  · exact (FileLayout.shape hv).offset_position hcap
  · rintro q rfl rfl
    exact ((FileLayout.shape hv).position_object q).symm

/-- Two objects of two units each, cut in the second stripe. -/
theorem objectTruncateSize_iff_twoStripes :
    let layout : FileLayout :=
      { stripeUnit := 65536, stripeCount := 2, objectSize := 131072, pgPool := 0 }
    cephFileLayoutIsValid layout = true ∧
    ∃ size, objectTruncateSize layout 1 200000 = .ok size ∧
      ∀ x < layout.objectSize, ∃ pos,
        layout.objectAt pos = 1 ∧ layout.offsetAt pos = x ∧
        (∀ q, layout.objectAt q = 1 → layout.offsetAt q = x → q = pos) ∧
        (pos < 200000 ↔ x < size) :=
  ⟨by decide, objectTruncateSize_iff _ (by decide) 1 200000 (by decide) (by decide)⟩

end CephDokan.Striper
