import CephDokan.Common.Buffer

/-!
# Zeroing a range of a buffer list

The buffers of a `buffer::list` are parts of raw buffers, which they may share. Where
`list::zero` starts inside of a buffer it goes on to the end of the buffer, also when the range
ends before.
-/

namespace CephDokan.BufferList

open Fallible

/-- The bytes of the raw buffers, by buffer and offset. -/
abbrev Memory := ℕ × ℕ → UInt8

/-- `buffer::ptr` -/
structure Ptr where
  raw : ℕ
  off : ℕ
  len : ℕ

/-- `memset(c_str() + o, 0, l)` -/
def Ptr.memset (it : Ptr) (o l : ℕ) (m : Memory) : Memory := fun c =>
  if c.1 = it.raw ∧ it.off + o ≤ c.2 ∧ c.2 < it.off + o + l then 0 else m c

/-- `ptr::zero(o, l)` -/
def Ptr.zero (it : Ptr) (o l : ℕ) (m : Memory) : Run Memory := do
  assertThat (o + l ≤ it.len)
  return it.memset o l m

/-- What a round of `list::zero` does to its buffer, which starts at position `p`. -/
def zeroBuffer (o l p : ℕ) (it : Ptr) (m : Memory) : Run Memory :=
  if o < p + it.len then
    if o ≤ p ∧ p + it.len ≤ o + l then .ok (it.memset 0 it.len m)
    else if o ≤ p then it.zero 0 (o + l - p) m
    else it.zero (o - p) (it.len - (o - p)) m
  else .ok m

/-- The loop of `list::zero`; no sum wraps while `o + l` is not more than the length. -/
def zeroLoop (o l : ℕ) : ℕ → List Ptr → Memory → Run Memory
  | _, [], m => .ok m
  | p, it :: rest, m => do
    let m ← zeroBuffer o l p it m
    if o + l ≤ p + it.len then .ok m else zeroLoop o l (p + it.len) rest m

/-- `list::length` -/
def length (bl : List Ptr) : ℕ := (bl.map Ptr.len).sum

/-- `list::zero(o, l)` -/
def zero (bl : List Ptr) (o l : ℕ) (m : Memory) : Run Memory := do
  assertThat (o + l ≤ length bl)
  zeroLoop o l 0 bl m

/-- Where the byte at a position of the list is. -/
def cellAt : List Ptr → ℕ → Option (ℕ × ℕ)
  | [], _ => none
  | it :: rest, j => if j < it.len then some (it.raw, it.off + j) else cellAt rest (j - it.len)

def byteAt (m : Memory) (bl : List Ptr) (j : ℕ) : Option UInt8 := (cellAt bl j).map m

/-- The end of the buffer that position `a` is inside of, and `a` where a buffer starts. -/
def bufferEnd : List Ptr → ℕ → ℕ
  | [], a => a
  | it :: rest, a =>
    if a = 0 then 0 else if a < it.len then it.len else it.len + bufferEnd rest (a - it.len)

/-- The bytes of the range are zero afterwards, and the others are what they were. -/
def ZeroesExactly (bl : List Ptr) (o l : ℕ) (m : Memory) : Prop :=
  ∃ m', zero bl o l m = .ok m' ∧ ∀ j < length bl,
    byteAt m' bl j = if o ≤ j ∧ j < o + l then some 0 else byteAt m bl j

/-- The bytes in `S` are set to zero. -/
def Cleared (S : Set (ℕ × ℕ)) (m m' : Memory) : Prop :=
  ∀ c, (c ∈ S → m' c = 0) ∧ (c ∉ S → m' c = m c)

/-- Where the bytes from position `a` up to position `b` are. -/
def cells (bl : List Ptr) (a b : ℕ) : Set (ℕ × ℕ) := {c | ∃ j, a ≤ j ∧ j < b ∧ cellAt bl j = some c}

/-- The part of this that the first buffer has. -/
def Ptr.cells (it : Ptr) (a b : ℕ) : Set (ℕ × ℕ) :=
  {c | c.1 = it.raw ∧ it.off + a ≤ c.2 ∧ c.2 < it.off + b ∧ c.2 < it.off + it.len}

variable {it : Ptr} {rest bl : List Ptr} {m m1 m' : Memory} {o l p a b : ℕ}

theorem mem_cells_cons {c} :
    c ∈ cells (it :: rest) a b ↔ c ∈ it.cells a b ∨ c ∈ cells rest (a - it.len) (b - it.len) := by
  constructor
  · rintro ⟨j, ha, hb, hc⟩
    rw [cellAt] at hc
    split_ifs at hc with hj
    · cases hc
      exact .inl ⟨rfl, by omega⟩
    · exact .inr ⟨j - it.len, by omega, by omega, hc⟩
  · rintro (⟨hraw, ha, hb, hlen⟩ | ⟨j, ha, hb, hc⟩)
    · refine ⟨c.2 - it.off, by omega, by omega, ?_⟩
      rw [cellAt, if_pos (by omega), ← hraw, Nat.add_sub_cancel' (by omega)]
    · refine ⟨j + it.len, by omega, by omega, ?_⟩
      rwa [cellAt, if_neg (by omega), Nat.add_sub_cancel]

theorem Cleared.cons (h1 : Cleared (it.cells a b) m m1)
    (h2 : Cleared (cells rest (a - it.len) (b - it.len)) m1 m') :
    Cleared (cells (it :: rest) a b) m m' := by
  intro c
  rw [mem_cells_cons]
  by_cases hc : c ∈ cells rest (a - it.len) (b - it.len)
  · simp [hc, (h2 c).1 hc]
  · rw [(h2 c).2 hc]
    simpa [hc] using h1 c

theorem cleared_memset (h : ∀ i, o ≤ i ∧ i < o + l ↔ a ≤ i ∧ i < b ∧ i < it.len) (m : Memory) :
    Cleared (it.cells a b) m (it.memset o l m) := by
  intro c
  have hmem : c ∈ it.cells a b ↔ c.1 = it.raw ∧ it.off + o ≤ c.2 ∧ c.2 < it.off + o + l := by
    have := h (c.2 - it.off)
    change _ ∧ _ ∧ _ ∧ _ ↔ _
    omega
  rw [hmem, Ptr.memset]
  exact ⟨fun hc => if_pos hc, fun hc => if_neg hc⟩

theorem cleared_of_empty {S} (h : ∀ c, c ∉ S) (m : Memory) : Cleared S m m :=
  fun c => ⟨fun hc => absurd hc (h c), fun _ => rfl⟩

theorem zero_eq_memset (h : o + l ≤ it.len) : it.zero o l m = .ok (it.memset o l m) := by
  rw [Ptr.zero, assertThat_of h]
  rfl

theorem bufferEnd_zero (bl : List Ptr) : bufferEnd bl 0 = 0 := by
  cases bl <;> rfl

theorem zeroBuffer_spec (it : Ptr) (rest : List Ptr) (hp : p ≤ o + l) (m : Memory) :
    ∃ m', zeroBuffer o l p it m = .ok m' ∧
      Cleared (it.cells (o - p) (max (o + l - p) (bufferEnd (it :: rest) (o - p)))) m m' := by
  unfold zeroBuffer
  by_cases hbefore : p + it.len ≤ o
  · rw [if_neg (by omega)]
    exact ⟨m, rfl, cleared_of_empty (by rintro c ⟨-, h1, -, h2⟩; omega) m⟩
  rw [if_pos (by omega)]
  by_cases hstart : o ≤ p
  · have hend : bufferEnd (it :: rest) (o - p) = 0 := by rw [Nat.sub_eq_zero_of_le hstart]; rfl
    rw [hend]
    by_cases hall : p + it.len ≤ o + l
    · rw [if_pos ⟨hstart, hall⟩]
      exact ⟨_, rfl, cleared_memset (by omega) m⟩
    · rw [if_neg (fun h => hall h.2), if_pos hstart, zero_eq_memset (by omega)]
      exact ⟨_, rfl, cleared_memset (by omega) m⟩
  · -- the range starts inside, so the end of the range does not count any more
    have hend : bufferEnd (it :: rest) (o - p) = it.len := by
      rw [bufferEnd, if_neg (by omega), if_pos (by omega)]
    rw [hend, if_neg (fun h => hstart h.1), if_neg hstart, zero_eq_memset (by omega)]
    exact ⟨_, rfl, cleared_memset (by omega) m⟩

theorem zeroLoop_spec (bl : List Ptr) (hp : p ≤ o + l) (m : Memory) :
    ∃ m', zeroLoop o l p bl m = .ok m' ∧
      Cleared (cells bl (o - p) (max (o + l - p) (bufferEnd bl (o - p)))) m m' := by
  induction bl generalizing p m with
  | nil => exact ⟨m, rfl, cleared_of_empty (by rintro c ⟨j, -, -, hc⟩; cases hc) m⟩
  | cons it rest ih =>
    obtain ⟨m1, hround, hfirst⟩ := zeroBuffer_spec it rest hp m
    have hend : bufferEnd (it :: rest) (o - p) = if o ≤ p then 0 else if o < p + it.len then it.len
        else it.len + bufferEnd rest (o - (p + it.len)) := by
      rw [bufferEnd, Nat.sub_sub]
      split_ifs <;> omega
    have hzero := bufferEnd_zero rest
    rw [zeroLoop, hround]
    by_cases hlast : o + l ≤ p + it.len
    · have hle : max (o + l - p) (bufferEnd (it :: rest) (o - p)) ≤ it.len := by
        rw [hend]
        split_ifs with h1 h2
        · omega
        · omega
        · rw [Nat.sub_eq_zero_of_le (by omega : o ≤ p + it.len), hzero]
          omega
      refine ⟨m1, if_pos hlast, hfirst.cons (cleared_of_empty ?_ m1)⟩
      rintro c ⟨j, -, hj, -⟩
      omega
    · obtain ⟨m', hloop, hrest⟩ := ih (p := p + it.len) (by omega) m1
      refine ⟨m', (if_neg hlast).trans hloop, hfirst.cons ?_⟩
      have hmax : max (o + l - p) (bufferEnd (it :: rest) (o - p)) - it.len =
          max (o + l - (p + it.len)) (bufferEnd rest (o - (p + it.len))) := by
        rw [hend]
        split_ifs with h1 h2
        · rw [Nat.sub_eq_zero_of_le (by omega : o ≤ p + it.len), hzero]
          omega
        · rw [Nat.sub_eq_zero_of_le (by omega : o ≤ p + it.len), hzero]
          omega
        · omega
      rwa [hmax, Nat.sub_sub]

theorem cellAt_isSome (h : a < length bl) : ∃ c, cellAt bl a = some c := by
  induction bl generalizing a with
  | nil => exact absurd h (Nat.not_lt_zero a)
  | cons it rest ih =>
    rw [cellAt]
    split_ifs with ha
    · exact ⟨_, rfl⟩
    · rw [length, List.map_cons, List.sum_cons] at h
      exact ih (by rw [length]; omega)

/-- `list::zero` zeroes exactly its range when the bytes that it shares memory with, and those up
to the end of the buffer in which the range starts, are zero already. -/
theorem zero_exact_iff (bl : List Ptr) (o l : ℕ) (m : Memory) (h : o + l ≤ length bl) :
    ZeroesExactly bl o l m ↔ ∀ i j, o ≤ i → i < max (o + l) (bufferEnd bl o) →
      j < length bl → ¬(o ≤ j ∧ j < o + l) → cellAt bl i = cellAt bl j →
      byteAt m bl j = some 0 := by
  obtain ⟨m', hrun, hclear⟩ := zeroLoop_spec bl (o.zero_le.trans (o.le_add_right l)) m
  have hzero : zero bl o l m = .ok m' := by
    rw [zero, assertThat_of h]
    exact hrun
  rw [Nat.sub_zero, Nat.sub_zero] at hclear
  constructor
  · rintro ⟨m1, hm, hbytes⟩ i j hoi hi hj hout hij
    obtain rfl : m' = m1 := Except.ok.inj (hzero.symm.trans hm)
    obtain ⟨c, hc⟩ := cellAt_isSome hj
    have hj' := hbytes j hj
    rw [if_neg hout, byteAt, hc, Option.map_some, (hclear c).1 ⟨i, hoi, hi, hij.trans hc⟩] at hj'
    exact hj'.symm
  · intro hshared
    refine ⟨m', hzero, fun j hj => ?_⟩
    obtain ⟨c, hc⟩ := cellAt_isSome hj
    have hbyte : byteAt m' bl j = some (m' c) := by rw [byteAt, hc, Option.map_some]
    split_ifs with hin
    · rw [hbyte, (hclear c).1 ⟨j, hin.1, by omega, hc⟩]
    · by_cases hcell : c ∈ cells bl o (max (o + l) (bufferEnd bl o))
      · obtain ⟨i, hoi, hi, hci⟩ := hcell
        rw [hbyte, (hclear c).1 ⟨i, hoi, hi, hci⟩]
        exact (hshared i j hoi hi hj hin (hci.trans hc.symm)).symm
      · rw [hbyte, (hclear c).2 hcell, byteAt, hc, Option.map_some]

/-- Two buffers of two bytes each, of which the second byte and the third are zeroed. -/
theorem zero_exact_across :
    ZeroesExactly [⟨0, 0, 2⟩, ⟨1, 0, 2⟩] 1 2 (fun _ => 7) := by
  refine (zero_exact_iff _ _ _ _ (by decide)).2 fun i j hi hi' hj hout => ?_
  change i < 3 at hi'
  change j < 4 at hj
  intro hij
  exfalso
  revert hout hij
  interval_cases i <;> interval_cases j <;> decide

/-- Of four bytes in one buffer the second is to be zeroed, and the two after it are too. -/
theorem zero_past_range : ¬ZeroesExactly [⟨0, 0, 4⟩] 1 1 (fun _ => 7) := by
  rintro ⟨m', hm, hbytes⟩
  cases hm
  exact absurd (hbytes 2 (by decide)) (by decide)

end CephDokan.BufferList
