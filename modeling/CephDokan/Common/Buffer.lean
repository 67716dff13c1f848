import CephDokan.Lib.Fallible

/-!
# Byte strings and the ways a call can stop

A `bufferlist` is modelled by the bytes it holds, in one list however many buffers the
chain has. `substrOf` and `splice` keep the bounds checks of `buffer::list`; the sizes
they receive are `unsigned`, so a caller that passes a 64-bit value narrows it with
`u32` first.
-/

namespace CephDokan

abbrev Bytes := List UInt8

/-- Why a call does not return: a failed assertion, `buffer::end_of_buffer`, a
pointer that leads nowhere, or a loop that does not come to its end. -/
inductive Fault
  | assertion
  | endOfBuffer
  | dangling
  | diverged
  deriving DecidableEq, Repr

abbrev Run := Except Fault

/-- Narrowing to `unsigned`. -/
def u32 (n : ℕ) : ℕ := n % 2 ^ 32

theorem u32_of_lt {n} (h : n < 2 ^ 32) : u32 n = n := Nat.mod_eq_of_lt h

/-- Arithmetic in `uint64_t`. -/
def u64 (n : ℕ) : ℕ := n % 2 ^ 64

theorem u64_of_lt {n} (h : n < 2 ^ 64) : u64 n = n := Nat.mod_eq_of_lt h

/-- `a - b` in `uint64_t`. -/
def sub64 (a b : ℕ) : ℕ := u64 (a + 2 ^ 64 - u64 b)

theorem sub64_of_le {a b} (h : b ≤ a) (ha : a < 2 ^ 64) : sub64 a b = a - b := by
  unfold sub64 u64
  omega

def assertThat (c : Prop) [Decidable c] : Run Unit := Fallible.check .assertion c

variable {c : Prop}

theorem assertThat_eq_ok [Decidable c] {u} : assertThat c = .ok u ↔ c := Fallible.check_eq_ok

theorem assertThat_of [Decidable c] (h : c) : assertThat c = .ok () :=
  Fallible.check_of h

namespace Bytes

/-- `len` zero bytes, as `bufferptr bp(len); bp.zero()` makes them. -/
def zero (len : ℕ) : Bytes := List.replicate len 0

/-- The bytes `[off, off + len)` of `other`. -/
def substrOf (other : Bytes) (off len : ℕ) : Run Bytes :=
  if u32 (off + len) > other.length then .error .endOfBuffer
  -- a sum that wraps passes the check and walks past the end of the buffer chain
  else if off + len > other.length then .error .dangling
  else .ok ((other.drop off).take len)

theorem substrOf_of_le {other} {off len} (h : off + len ≤ other.length) :
    substrOf other off len = .ok ((other.drop off).take len) := by
  have hwrap : u32 (off + len) ≤ off + len := Nat.mod_le _ _
  unfold substrOf
  rw [if_neg (by omega), if_neg (by omega)]

theorem length_of_substrOf {other part : Bytes} {off len}
    (h : other.substrOf off len = .ok part) : part.length = len := by
  unfold substrOf at h
  split_ifs at h with hout
  cases h
  rw [List.length_take, List.length_drop]
  omega


/-- Cut `[off, off + len)` out and hand it to the claimer: what stays, what is claimed. -/
def splice (bl : Bytes) (off len : ℕ) : Run (Bytes × Bytes) :=
  if len = 0 then .ok (bl, [])
  else if bl.length ≤ off then .error .endOfBuffer
  -- a request beyond the last buffer walks past the end of the buffer chain
  else if bl.length < off + len then .error .dangling
  else .ok (bl.take off ++ bl.drop (off + len), (bl.drop off).take len)

theorem splice_zero {bl} {len} (h : len ≤ bl.length) :
    splice bl 0 len = .ok (bl.drop len, bl.take len) := by
  unfold splice
  split_ifs with h0 h1 h2
  · simp [h0]
  · omega
  · omega
  · simp

end Bytes

end CephDokan
