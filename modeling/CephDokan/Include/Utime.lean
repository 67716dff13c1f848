import Mathlib.Data.Prod.Lex
import Mathlib.Tactic

/-!
# Arithmetic of times

Sums and differences of `utime_t`, with the carry and the borrow that each operator computes on
its own. `normalize` leaves exactly one full second in the nanoseconds.
-/

namespace CephDokan

/-- `utime_t`. A `time_t` is taken to hold every `__u32`. -/
structure Utime where
  sec : UInt32
  nsec : UInt32
  deriving DecidableEq, Repr

namespace Utime

def zero : Utime := ⟨0, 0⟩

def normalize (t : Utime) : Utime :=
  if t.nsec > 1000000000 then ⟨t.sec + t.nsec / 1000000000, t.nsec % 1000000000⟩ else t

/-- `l += r`; the nanoseconds are added as `int` for the carry. -/
def add (l r : Utime) : Utime where
  sec := l.sec + r.sec + ((l.nsec.toInt32 + r.nsec.toInt32) / 1000000000).toUInt32
  nsec := (l.nsec + r.nsec) % 1000000000

/-- `l -= (double)s / 4`. -/
def subQuarter (l : Utime) (s : UInt32) : Utime :=
  let nsl := s % 4 * 250000000
  normalize <|
    if nsl ≠ 0 then ⟨l.sec - s / 4 - 1, 1000000000 + l.nsec - nsl⟩ else ⟨l.sec - s / 4, l.nsec⟩

/-- `nsec()`, an `int`. -/
def nsecInt (t : Utime) : ℤ := t.nsec.toInt32.toInt

def key (t : Utime) : ℕ ×ₗ ℤ := toLex (t.sec.toNat, t.nsecInt)

theorem key_injective : Function.Injective key := by
  rintro ⟨s, n⟩ ⟨s', n'⟩ h
  obtain ⟨hs, hn⟩ := Prod.mk.inj (toLex.injective h)
  have hnsec : n = n' := congrArg Int32.toUInt32 (Int32.toInt_inj.mp hn)
  rw [hnsec, (UInt32.toNat_inj.mp hs : s = s')]

instance : LinearOrder Utime := LinearOrder.lift' key key_injective

/-- `utime_t(s, n)`; both are narrowed to 32 bits. -/
def make (s n : ℤ) : Utime :=
  normalize ⟨.ofNat (s % 2 ^ 32).toNat, .ofNat (n % 2 ^ 32).toNat⟩

/-- `to_nsec`; the sum does not wrap in 64 bits. -/
def toNsec (t : Utime) : ℕ := t.nsec.toNat + t.sec.toNat * 1000000000

/-- `l + r` -/
def plus (l r : Utime) : Utime :=
  make (l.sec.toNat + r.sec.toNat + (l.nsecInt + r.nsecInt).tdiv 1000000000)
    ((l.nsecInt + r.nsecInt).tmod 1000000000)

/-- `l - r` -/
def minus (l r : Utime) : Utime :=
  make (l.sec.toNat - r.sec.toNat - if l.nsecInt < r.nsecInt then 1 else 0)
    (l.nsecInt - r.nsecInt + if l.nsecInt < r.nsecInt then 1000000000 else 0)

/-- `l -= r` -/
def sub (l r : Utime) : Utime :=
  if l.nsecInt ≥ r.nsecInt then ⟨l.sec - r.sec, l.nsec - r.nsec⟩
  else ⟨l.sec - r.sec - 1, l.nsec + (1000000000 - r.nsec)⟩

def lt (a b : Utime) : Bool := a.sec < b.sec || a.sec = b.sec && a.nsecInt < b.nsecInt

def gt (a b : Utime) : Bool := a.sec > b.sec || a.sec = b.sec && a.nsecInt > b.nsecInt

def eq (a b : Utime) : Bool := a.sec = b.sec && a.nsecInt = b.nsecInt

def le (a b : Utime) : Bool := !a.gt b

def ge (a b : Utime) : Bool := !a.lt b

def ne (a b : Utime) : Bool := a.sec ≠ b.sec || a.nsecInt ≠ b.nsecInt

variable {t l r : Utime} {s n : ℤ}

theorem nsecInt_eq (h : t.nsec.toNat ≤ 10 ^ 9) : t.nsecInt = t.nsec.toNat :=
  BitVec.toInt_eq_toNat_of_lt (show 2 * t.nsec.toNat < 2 ^ 32 by omega)

theorem toNsec_make (hs : 0 ≤ s) (hn : 0 ≤ n ∧ n < 2 ^ 31)
    (hsum : s * 10 ^ 9 + n < 2 ^ 32 * 10 ^ 9) : ((make s n).nsec.toNat < 10 ^ 9 ↔ n ≠ 10 ^ 9) ∧
      (make s n).toNsec = s * 10 ^ 9 + n := by
  obtain ⟨s, rfl⟩ := Int.eq_ofNat_of_zero_le hs
  obtain ⟨n, rfl⟩ := Int.eq_ofNat_of_zero_le hn.1
  unfold make normalize toNsec
  split_ifs with h <;>
    simp [UInt32.lt_iff_toNat_lt] at h ⊢ <;> omega

/-- The time is normalized and has so many nanoseconds. -/
def Is (t : Utime) (v : ℤ) : Prop := t.nsec.toNat < 10 ^ 9 ∧ t.toNsec = v

theorem is_make {v : ℤ} (hn : 0 ≤ n ∧ n < 10 ^ 9) (hv : s * 10 ^ 9 + n = v)
    (hrange : 0 ≤ v ∧ v < 2 ^ 32 * 10 ^ 9) : (make s n).Is v := by
  obtain ⟨hnsec, heq⟩ := toNsec_make (by omega) ⟨hn.1, by omega⟩ (hv.trans_lt hrange.2)
  exact ⟨hnsec.mpr (by omega), heq.trans hv⟩

/-- As the sum of the nanoseconds is not negative, its `int` division is that of the words. -/
theorem carry_eq {x y : UInt32} (hx : x.toNat < 10 ^ 9) (hy : y.toNat < 10 ^ 9) :
    ((x.toInt32 + y.toInt32) / 1000000000).toUInt32.toNat = (x.toNat + y.toNat) / 10 ^ 9 := by
  have hsum : (x + y).toNat = x.toNat + y.toNat :=
    (UInt32.toNat_add ..).trans (Nat.mod_eq_of_lt (by omega))
  have hmsb : (x + y).toBitVec.msb = false :=
    BitVec.msb_eq_false_iff_two_mul_lt.mpr (show 2 * (x + y).toNat < 2 ^ 32 by omega)
  rw [← UInt32.toInt32_add, ← hsum]
  change (BitVec.sdiv (x + y).toBitVec 1000000000#32).toNat = _
  rw [BitVec.sdiv_eq, hmsb]
  rfl

theorem Is.unique {v : ℤ} (hl : l.Is v) (hr : r.Is v) : l = r := by
  cases l
  cases r
  simp only [Is, toNsec] at hl hr
  simp only [mk.injEq, ← UInt32.toNat_inj]
  omega

/-- The comparisons order the times by their nanoseconds. -/
def Compares (l r : Utime) : Prop :=
  (l.lt r ↔ l.toNsec < r.toNsec) ∧ (l.gt r ↔ l.toNsec > r.toNsec) ∧
    (l.le r ↔ l.toNsec ≤ r.toNsec) ∧ (l.ge r ↔ l.toNsec ≥ r.toNsec) ∧
    (l.eq r ↔ l.toNsec = r.toNsec) ∧ (l.ne r ↔ l.toNsec ≠ r.toNsec)

theorem Is.compares {v w : ℤ} (hl : l.Is v) (hr : r.Is w) : Compares l r := by
  obtain ⟨hl, -⟩ := hl
  obtain ⟨hr, -⟩ := hr
  simp only [Compares, le, ge, lt, gt, eq, ne, toNsec, nsecInt_eq hl.le, nsecInt_eq hr.le,
    Bool.not_eq_true', ← Bool.not_eq_true, Bool.or_eq_true, Bool.and_eq_true, decide_eq_true_eq,
    ne_eq, UInt32.lt_iff_toNat_lt, ← UInt32.toNat_inj]
  omega

end Utime

/-- `+`, `+=`, `-` and `-=` -/
inductive TimeOp
  | plus
  | add
  | minus
  | sub

namespace TimeOp

open Utime

def apply : TimeOp → Utime → Utime → Utime
  | plus => .plus
  | add => .add
  | minus => .minus
  | sub => .sub

def exact : TimeOp → ℤ → ℤ → ℤ
  | plus, v, w | add, v, w => v + w
  | minus, v, w | sub, v, w => v - w

theorem is_apply (o : TimeOp) {l r : Utime} {v w : ℤ} (hl : l.Is v) (hr : r.Is w)
    (hrange : 0 ≤ o.exact v w ∧ o.exact v w < 2 ^ 32 * 10 ^ 9) :
    (o.apply l r).Is (o.exact v w) := by
  obtain ⟨hl, rfl⟩ := hl
  obtain ⟨hr, rfl⟩ := hr
  have hlsec := l.sec.toNat_lt
  cases o with
  | plus =>
    simp only [apply, exact, Utime.plus, nsecInt_eq hl.le, nsecInt_eq hr.le] at hrange ⊢
    rw [Int.tdiv_eq_ediv_of_nonneg (by omega), Int.tmod_eq_emod_of_nonneg (by omega)]
    exact is_make (by omega) (by simp only [toNsec]; omega) hrange
  | add =>
    simp only [apply, exact, Is, toNsec, Utime.add, UInt32.toNat_add, UInt32.toNat_mod,
      carry_eq hl hr, UInt32.reduceToNat] at hrange ⊢
    omega
  | minus =>
    simp only [apply, exact, Utime.minus, nsecInt_eq hl.le, nsecInt_eq hr.le, toNsec] at hrange ⊢
    exact is_make (by split_ifs <;> omega) (by split_ifs <;> omega) hrange
  | sub =>
    simp only [apply, exact, Is, Utime.sub, nsecInt_eq hl.le, nsecInt_eq hr.le, toNsec] at hrange ⊢
    split_ifs <;> simp only [UInt32.toNat_add, UInt32.toNat_sub, UInt32.reduceToNat] <;> omega

end TimeOp

/-- How a time comes about. -/
inductive TimeExpr
  | make (s n : ℤ)
  | op (o : TimeOp) (a b : TimeExpr)

namespace TimeExpr

def eval : TimeExpr → Utime
  | make s n => .make s n
  | op o a b => o.apply a.eval b.eval

def nanos : TimeExpr → ℤ
  | make s n => s * 10 ^ 9 + n
  | op o a b => o.exact a.nanos b.nanos

/-- Nothing goes below zero or leaves the 32 bits of the seconds. -/
def InRange : TimeExpr → Prop
  | make s n => 0 ≤ s ∧ (0 ≤ n ∧ n < 2 ^ 31) ∧ nanos (make s n) < 2 ^ 32 * 10 ^ 9
  | op o a b => a.InRange ∧ b.InRange ∧
      0 ≤ nanos (op o a b) ∧ nanos (op o a b) < 2 ^ 32 * 10 ^ 9

/-- Every time on the way is normalized and exact. -/
def Exact : TimeExpr → Prop
  | make s n => (eval (make s n)).Is (nanos (make s n))
  | op o a b => a.Exact ∧ b.Exact ∧ (eval (op o a b)).Is (nanos (op o a b))

def NoFullSecond : TimeExpr → Prop
  | make _ n => n ≠ 10 ^ 9
  | op _ a b => a.NoFullSecond ∧ b.NoFullSecond

variable {a b e : TimeExpr}

theorem Exact.is (h : e.Exact) : e.eval.Is e.nanos := by
  cases e with
  | make s n => exact h
  | op o a b => exact h.2.2

theorem InRange.nanos (h : e.InRange) : 0 ≤ e.nanos ∧ e.nanos < 2 ^ 32 * 10 ^ 9 := by
  cases e with
  | make s n =>
    obtain ⟨hs, hn, hlt⟩ := h
    exact ⟨by unfold TimeExpr.nanos; omega, hlt⟩
  | op o a b => exact h.2.2

theorem exact_iff (h : e.InRange) : e.Exact ↔ e.NoFullSecond := by
  induction e with
  | make s n =>
    obtain ⟨hnsec, hv⟩ := Utime.toNsec_make h.1 h.2.1 h.2.2
    exact (and_iff_left hv).trans hnsec
  | op o a b iha ihb =>
    obtain ⟨ha, hb, hrange⟩ := h
    rw [Exact, NoFullSecond, ← iha ha, ← ihb hb, ← and_assoc]
    exact and_iff_left_of_imp fun h => o.is_apply h.1.is h.2.is hrange

/-- What one expects of two times, and of their sum if it is in range. -/
def Lawful (a b : TimeExpr) : Prop :=
  a.Exact ∧ b.Exact ∧ a.eval.Compares b.eval ∧
    ((op .plus a b).InRange →
      (op .minus (op .plus a b) b).Exact ∧ (op .minus (op .plus a b) b).eval = a.eval)

/-- Times are exact and normalized, and behave as their nanoseconds do, exactly if none of them
was built from `1000000000` nanoseconds. -/
theorem lawful_iff (ha : a.InRange) (hb : b.InRange) :
    Lawful a b ↔ a.NoFullSecond ∧ b.NoFullSecond := by
  rw [← exact_iff ha, ← exact_iff hb]
  constructor
  · rintro ⟨ha', hb', -⟩
    exact ⟨ha', hb'⟩
  · rintro ⟨ha', hb'⟩
    refine ⟨ha', hb', ha'.is.compares hb'.is, fun h => ?_⟩
    have hback : a.nanos + b.nanos - b.nanos = a.nanos := add_sub_cancel_right _ _
    have hsum : (op .plus a b).Exact := ⟨ha', hb', TimeOp.plus.is_apply ha'.is hb'.is h.2.2⟩
    have hrange := ha.nanos
    rw [← hback] at hrange
    have hdiff := TimeOp.minus.is_apply hsum.is hb'.is hrange
    refine ⟨⟨hsum, hb', hdiff⟩, Utime.Is.unique hdiff ?_⟩
    exact ⟨ha'.is.1, ha'.is.2.trans hback.symm⟩

theorem lawful_halves :
    Lawful (.make 3 600000000) (.op .sub (.make 5 300000000) (.make 1 2000000000)) := by
  apply (lawful_iff _ _).mpr
  · simp [NoFullSecond]
  · simp [InRange, nanos]
  · simp [InRange, nanos, TimeOp.exact]

/-- `utime_t(0, 1000000000)` is not normalized, and smaller than `utime_t(1, 0)`. -/
theorem not_lawful_second : ¬Lawful (.make 0 1000000000) (.make 1 0) := by
  rintro ⟨hexact, -⟩
  exact absurd hexact.1 (by decide)

end TimeExpr

end CephDokan
