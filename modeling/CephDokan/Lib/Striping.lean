import Mathlib.Tactic

/-!
# Round-robin striping of a linear range over objects

Positions are dealt in units of `unit` consecutive positions to `count` objects in
turn; once each of them has received `depth` units the next `count` objects follow.
The mathematics of such a layout is the bijection between positions and pairs of
object and offset, and its compatibility with cutting a range at unit boundaries.
-/

namespace Striping

open List Nat

variable {m a b c d : ℕ}

/-- Numbers with two digits are compared by the first one, then by the second. -/
theorem mul_add_lt_iff (hb : b < m) (hd : d < m) :
    a * m + b < c * m + d ↔ a < c ∨ a = c ∧ b < d := by
  rcases lt_trichotomy a c with h | h | h
  · have hm := mul_le_mul_right m (show a + 1 ≤ c from h)
    rw [add_mul, one_mul] at hm
    omega
  · subst h
    omega
  · have hm := mul_le_mul_right m (show c + 1 ≤ a from h)
    rw [add_mul, one_mul] at hm
    omega

theorem mul_add_eq_iff (hb : b < m) (hd : d < m) : a * m + b = c * m + d ↔ a = c ∧ b = d := by
  constructor
  · intro h
    have hlt := (mul_add_lt_iff (a := a) (c := c) hb hd).not.mp h.not_lt
    have hgt := (mul_add_lt_iff (a := c) (c := a) hd hb).not.mp h.not_gt
    omega
  · rintro ⟨rfl, rfl⟩
    rfl

theorem mul_add_mod_div (hm : 0 < m) (a b : ℕ) : (a * m + b % m) / m = a := by
  rw [add_comm, add_mul_div_right _ _ hm, div_eq_of_lt (mod_lt _ hm), zero_add]

structure Shape where
  unit : ℕ
  count : ℕ
  depth : ℕ
  unit_pos : 0 < unit
  count_pos : 0 < count
  depth_pos : 0 < depth

namespace Shape

variable (s : Shape)

def capacity : ℕ := s.depth * s.unit

def object (p : ℕ) : ℕ := p / s.unit / s.count / s.depth * s.count + p / s.unit % s.count

def offset (p : ℕ) : ℕ := p / s.unit / s.count % s.depth * s.unit + p % s.unit

/-- The position of offset `x` of object `o`. -/
def position (o x : ℕ) : ℕ :=
  ((x / s.unit + o / s.count * s.depth) * s.count + o % s.count) * s.unit + x % s.unit

variable {n p x o q left cur : ℕ}

theorem offset_add_le (h : p % s.unit + n ≤ s.unit) : s.offset p + n ≤ s.capacity := by
  have hd : p / s.unit / s.count % s.depth + 1 ≤ s.depth := mod_lt _ s.depth_pos
  have hm := mul_le_mul_right s.unit hd
  unfold offset capacity
  rw [add_mul, one_mul] at hm
  omega

theorem offset_lt (p : ℕ) : s.offset p < s.capacity :=
  s.offset_add_le (n := 1) (mod_lt _ s.unit_pos)

theorem offset_mod (p : ℕ) : s.offset p % s.unit = p % s.unit := by
  simp [offset, add_mod]

theorem position_mod (o x : ℕ) : s.position o x % s.unit = x % s.unit := by
  simp [position, add_mod]

theorem position_div (o x : ℕ) :
    s.position o x / s.unit = (x / s.unit + o / s.count * s.depth) * s.count + o % s.count := by
  rw [position, mul_add_mod_div s.unit_pos]

theorem position_stripe (o x : ℕ) :
    s.position o x / s.unit / s.count = x / s.unit + o / s.count * s.depth := by
  rw [position_div, mul_add_mod_div s.count_pos]

/-- None of the intermediate values of `position` exceeds the result. -/
theorem position_bounds (o x : ℕ) : x ≤ s.position o x ∧
    x / s.unit + o / s.count * s.depth ≤ s.position o x ∧
    (x / s.unit + o / s.count * s.depth) * s.count + o % s.count ≤ s.position o x ∧
    ((x / s.unit + o / s.count * s.depth) * s.count + o % s.count) * s.unit + x % s.unit ≤
      s.position o x := by
  have h1 := Nat.le_mul_of_pos_right (x / s.unit + o / s.count * s.depth) s.count_pos
  have h2 := Nat.le_mul_of_pos_right
    ((x / s.unit + o / s.count * s.depth) * s.count + o % s.count) s.unit_pos
  have h3 : x / s.unit * s.unit ≤
      ((x / s.unit + o / s.count * s.depth) * s.count + o % s.count) * s.unit :=
    mul_le_mul_right _ (by omega)
  have h4 := div_add_mod' x s.unit
  unfold position
  omega

theorem object_position (hx : x < s.capacity) : s.object (s.position o x) = o := by
  have hd : x / s.unit < s.depth := Nat.div_lt_of_lt_mul (by rwa [Nat.mul_comm])
  unfold object
  rw [position_stripe, position_div, add_mul_div_right _ _ s.depth_pos,
    div_eq_of_lt hd, zero_add, mul_add_mod_of_lt (mod_lt _ s.count_pos)]
  exact div_add_mod' o s.count

theorem offset_position (hx : x < s.capacity) : s.offset (s.position o x) = x := by
  have hd : x / s.unit < s.depth := Nat.div_lt_of_lt_mul (by rwa [Nat.mul_comm])
  unfold offset
  rw [position_stripe, position_mod, add_mul_mod_self_right, mod_eq_of_lt hd]
  exact div_add_mod' x s.unit

theorem object_div (p : ℕ) : s.object p / s.count = p / s.unit / s.count / s.depth := by
  rw [object, mul_add_mod_div s.count_pos]

theorem object_mod (p : ℕ) : s.object p % s.count = p / s.unit % s.count := by
  unfold object
  rw [mul_add_mod_of_lt (mod_lt _ s.count_pos)]

theorem position_object (p : ℕ) : s.position (s.object p) (s.offset p) = p := by
  have hd : s.offset p / s.unit = p / s.unit / s.count % s.depth := by
    rw [offset, mul_add_mod_div s.unit_pos]
  unfold position
  rw [hd, object_div, object_mod, offset_mod, mod_add_div', div_add_mod', div_add_mod']

theorem position_strictMono (o : ℕ) : StrictMono (s.position o) := by
  intro x y h
  have hx := mod_lt x s.unit_pos
  have hy := mod_lt y s.unit_pos
  have ho := mod_lt o s.count_pos
  unfold position
  rw [← div_add_mod' x s.unit, ← div_add_mod' y s.unit, mul_add_lt_iff hx hy] at h
  rw [mul_add_lt_iff hx hy, mul_add_lt_iff ho ho]
  rcases h with h | ⟨h, h'⟩
  · exact .inl (.inl (Nat.add_lt_add_right h _))
  · exact .inr ⟨by rw [h], h'⟩

/-- An offset of an object comes before a position when its round of objects does, or its row
in the round, or its object in the row, or it is earlier in the same unit. -/
theorem position_lt_iff (hx : x < s.capacity) (p : ℕ) : s.position o x < p ↔
      o / s.count < p / s.unit / s.count / s.depth ∨
      o / s.count = p / s.unit / s.count / s.depth ∧
        (x / s.unit < p / s.unit / s.count % s.depth ∨
          x / s.unit = p / s.unit / s.count % s.depth ∧
            (o % s.count < p / s.unit % s.count ∨
              o % s.count = p / s.unit % s.count ∧ x % s.unit < p % s.unit)) := by
  have hdepth : x / s.unit < s.depth := Nat.div_lt_of_lt_mul (by rwa [Nat.mul_comm])
  have hp : p = ((p / s.unit / s.count / s.depth * s.depth + p / s.unit / s.count % s.depth) *
      s.count + p / s.unit % s.count) * s.unit + p % s.unit := by
    rw [div_add_mod', div_add_mod', div_add_mod']
  have hr := mod_lt p s.unit_pos
  have hq := mod_lt (p / s.unit) s.count_pos
  have hk := mod_lt (p / s.unit / s.count) s.depth_pos
  generalize p / s.unit / s.count / s.depth = round at hp ⊢
  generalize p / s.unit / s.count % s.depth = k at hp hk ⊢
  generalize p / s.unit % s.count = q at hp hq ⊢
  generalize p % s.unit = r at hp hr ⊢
  have ho := mod_lt o s.count_pos
  rw [hp, position, add_comm (x / s.unit), mul_add_lt_iff (mod_lt x s.unit_pos) hr,
    mul_add_lt_iff ho hq, mul_add_eq_iff ho hq, mul_add_lt_iff hdepth hk, mul_add_eq_iff hdepth hk]
  simp only [and_assoc, or_assoc, and_or_left]

/-- How many positions below `p` belong to object `o`. -/
def filled (o p : ℕ) : ℕ := Nat.count (fun q => s.object q = o) p

theorem filled_position (hx : x < s.capacity) : s.filled o (s.position o x) = x := by
  have himage : (Finset.range (s.position o x)).filter (fun q => s.object q = o) =
      (Finset.range x).image (s.position o) := by
    ext q
    simp only [Finset.mem_filter, Finset.mem_range, Finset.mem_image]
    constructor
    · rintro ⟨hq, rfl⟩
      refine ⟨s.offset q, ?_, s.position_object q⟩
      rwa [← (s.position_strictMono _).lt_iff_lt, s.position_object]
    · rintro ⟨y, hy, rfl⟩
      exact ⟨s.position_strictMono o hy, s.object_position (hy.trans hx)⟩
  unfold filled
  rw [count_eq_card_filter_range, himage,
    Finset.card_image_of_injective _ (s.position_strictMono o).injective, Finset.card_range]

theorem offset_eq_filled (p : ℕ) : s.offset p = s.filled (s.object p) p := by
  have h := s.filled_position (o := s.object p) (s.offset_lt p)
  rw [s.position_object] at h
  exact h.symm

theorem filled_mono (o : ℕ) (h : p ≤ q) : s.filled o p ≤ s.filled o q := Nat.count_monotone _ h

theorem filled_le_capacity (o p : ℕ) : s.filled o p ≤ s.capacity := by
  induction p with
  | zero => simp [filled]
  | succ p ih =>
    have hoff := s.offset_lt p
    rw [s.offset_eq_filled] at hoff
    unfold filled at ih hoff ⊢
    rw [count_succ]
    split_ifs with ho
    · subst ho
      exact hoff
    · exact ih

section

variable (h : p % s.unit + n < s.unit)

include h

theorem div_add : (p + n) / s.unit = p / s.unit := by
  conv_lhs => rw [← div_add_mod p s.unit, add_assoc]
  rw [mul_add_div s.unit_pos, div_eq_of_lt h, add_zero]

theorem object_add : s.object (p + n) = s.object p := by
  simp only [object, s.div_add h]

theorem offset_add : s.offset (p + n) = s.offset p + n := by
  have hm : (p + n) % s.unit = p % s.unit + n := by
    rw [add_mod, mod_eq_of_lt (show n < s.unit by omega), mod_eq_of_lt h]
  simp only [offset, s.div_add h, hm]
  omega

end

theorem filled_add (o : ℕ) (h : p % s.unit + n ≤ s.unit) :
    s.filled o (p + n) = s.filled o p + if s.object p = o then n else 0 := by
  induction n with
  | zero => simp
  | succ n ih =>
    have hobj := s.object_add (p := p) (n := n) (by omega)
    have hn := ih (by omega)
    unfold filled at hn ⊢
    rw [← add_assoc, count_succ, hn, hobj]
    split_ifs <;> omega

theorem filled_add_le (o p n : ℕ) : s.filled o (p + n) ≤ s.filled o p + n := by
  unfold filled
  rw [count_add]
  exact Nat.add_le_add_left (count_le _) _

theorem filled_lt_iff (o : ℕ) :
    s.filled o p < s.filled o q ↔ ∃ r, p ≤ r ∧ r < q ∧ s.object r = o := by
  constructor
  · intro h
    obtain ⟨r, ⟨hpr, hrq⟩, hr⟩ := exists_of_count_lt_count h
    exact ⟨r, hpr, hrq, hr⟩
  · rintro ⟨r, hpr, hrq, hr⟩
    exact (s.filled_mono o hpr).trans_lt (count_strict_mono hr hrq)

/-- Cut `[cur, cur + left)` at the unit boundaries. -/
def blocks (cur left : ℕ) : List (ℕ × ℕ) :=
  if _h : left = 0 then []
  else
    let n := min left (s.unit - cur % s.unit)
    (cur, n) :: blocks (cur + n) (left - n)
termination_by left
decreasing_by
  have hm := mod_lt cur s.unit_pos
  omega

/-- The same cut of offsets `[x, x + len)` of one object, as positions. -/
def objectBlocks (o x len : ℕ) : List (ℕ × ℕ) :=
  if _h : len = 0 then []
  else
    let n := min len (s.unit - x % s.unit)
    (s.position o x, n) :: objectBlocks o (x + n) (len - n)
termination_by len
decreasing_by
  have hm := mod_lt x s.unit_pos
  omega

@[simp] theorem blocks_zero (cur : ℕ) : s.blocks cur 0 = [] := by
  rw [blocks]; simp

theorem blocks_pos (h : left ≠ 0) : s.blocks cur left = (cur, min left (s.unit - cur % s.unit)) ::
      s.blocks (cur + min left (s.unit - cur % s.unit))
        (left - min left (s.unit - cur % s.unit)) := by
  rw [blocks, dif_neg h]

@[simp] theorem objectBlocks_zero (o x : ℕ) : s.objectBlocks o x 0 = [] := by
  rw [objectBlocks]; simp

theorem objectBlocks_pos (o x : ℕ) {len : ℕ} (h : len ≠ 0) :
    s.objectBlocks o x len = (s.position o x, min len (s.unit - x % s.unit)) ::
      s.objectBlocks o (x + min len (s.unit - x % s.unit))
        (len - min len (s.unit - x % s.unit)) := by
  rw [objectBlocks, dif_neg h]

theorem blocks_induction {motive : ℕ → ℕ → Prop} (zero : ∀ cur, motive cur 0)
    (step : ∀ cur left, left ≠ 0 → ∀ n, n = min left (s.unit - cur % s.unit) → 0 < n → n ≤ left →
      cur % s.unit + n ≤ s.unit → motive (cur + n) (left - n) → motive cur left) :
    ∀ cur left, motive cur left := by
  intro cur left
  induction left using Nat.strong_induction_on generalizing cur with
  | _ left ih =>
    by_cases h : left = 0
    · subst h
      exact zero cur
    · have hm := mod_lt cur s.unit_pos
      exact step cur left h _ rfl (by omega) (by omega) (by omega)
        (ih _ (by omega) _)

theorem mem_blocks {e : ℕ × ℕ} (h : e ∈ s.blocks cur left) :
    0 < e.2 ∧ e.1 % s.unit + e.2 ≤ s.unit ∧ cur ≤ e.1 ∧ e.1 + e.2 ≤ cur + left := by
  induction cur, left using s.blocks_induction with
  | zero cur => simp at h
  | step cur left hl n hn hpos hle hu ih =>
    rw [s.blocks_pos hl, ← hn] at h
    rcases mem_cons.mp h with rfl | h
    · exact ⟨hpos, hu, le_rfl, by dsimp only; omega⟩
    · obtain ⟨h1, h2, h3, h4⟩ := ih h
      exact ⟨h1, h2, by omega, by omega⟩

theorem exists_mem_blocks (h1 : cur ≤ p) (h2 : p < cur + left) :
    ∃ e ∈ s.blocks cur left, e.1 ≤ p ∧ p < e.1 + e.2 := by
  induction cur, left using s.blocks_induction with
  | zero cur => omega
  | step cur left hl n hn hpos hle hu ih =>
    rw [s.blocks_pos hl, ← hn]
    by_cases hp : p < cur + n
    · exact ⟨(cur, n), mem_cons_self, h1, hp⟩
    · obtain ⟨e, he, hin⟩ := ih (by omega) (by omega)
      exact ⟨e, mem_cons_of_mem _ he, hin⟩

theorem blocks_pairwise (cur left : ℕ) :
    (s.blocks cur left).Pairwise (fun a b => a.1 + a.2 ≤ b.1) := by
  induction cur, left using s.blocks_induction with
  | zero cur => simp
  | step cur left hl n hn hpos hle hu ih =>
    rw [s.blocks_pos hl, ← hn]
    exact List.Pairwise.cons (fun e he => (s.mem_blocks he).2.2.1) ih

/-- Projecting the pieces of a range on one object is cutting that object's part of it. -/
theorem blocks_filter (o cur left : ℕ) : (s.blocks cur left).filter (fun e => s.object e.1 = o) =
      s.objectBlocks o (s.filled o cur) (s.filled o (cur + left) - s.filled o cur) := by
  induction cur, left using s.blocks_induction with
  | zero cur => simp
  | step cur left hl n hn hpos hle hu ih =>
    have hadd := s.filled_add o hu
    have hmono := s.filled_mono o (show cur + n ≤ cur + left by omega)
    have hend : cur + n + (left - n) = cur + left := by omega
    rw [s.blocks_pos hl, ← hn, filter_cons, ih, hend]
    by_cases ho : s.object cur = o
    · have hoff : s.filled o cur = s.offset cur := by rw [s.offset_eq_filled, ho]
      rw [if_pos ho] at hadd
      have hbound := s.filled_add_le o (cur + n) (left - n)
      rw [hend] at hbound
      -- the piece taken here is as long as the one cut from the object's own part
      have hlen : min (s.filled o (cur + left) - s.filled o cur)
          (s.unit - s.filled o cur % s.unit) = n := by
        rw [hoff, s.offset_mod]
        omega
      have hpiece := s.objectBlocks_pos o (s.filled o cur)
        (show s.filled o (cur + left) - s.filled o cur ≠ 0 by omega)
      rw [hlen, show s.position o (s.filled o cur) = cur by rw [hoff, ← ho, s.position_object],
        Nat.sub_sub, ← hadd] at hpiece
      rw [if_pos (by simpa using ho), hpiece]
    · rw [if_neg ho, add_zero] at hadd
      rw [if_neg (by simpa using ho), hadd]

/-- Only an object that holds more than one unit has more than one piece of a range. -/
theorem two_le_depth
    (h : 1 < ((s.blocks cur left).filter (fun e => s.object e.1 = o)).length) : 2 ≤ s.depth := by
  rw [s.blocks_filter] at h
  have hcap := s.filled_le_capacity o (cur + left)
  have hmono := s.filled_mono o (Nat.le_add_right cur left)
  generalize s.filled o cur = x at h hmono
  obtain ⟨n, hn⟩ : ∃ n, n = s.filled o (cur + left) - x := ⟨_, rfl⟩
  rw [← hn] at h
  have hend : x + n ≤ s.depth * s.unit := by
    unfold capacity at hcap
    omega
  by_cases hzero : n = 0
  · subst hzero
    simp at h
  · rw [s.objectBlocks_pos o x hzero, length_cons] at h
    -- there is a second piece, so the first one ends with its unit
    have hlt : s.unit - x % s.unit < n := by
      by_contra hle
      have hall : n - min n (s.unit - x % s.unit) = 0 := by omega
      rw [hall] at h
      simp at h
    have hunit : s.unit < s.depth * s.unit := by
      have := div_add_mod x s.unit
      omega
    by_contra hd
    have hone : s.depth * s.unit ≤ 1 * s.unit := mul_le_mul_right _ (by omega)
    omega

theorem objectBlocks_sum (o x len : ℕ) : ((s.objectBlocks o x len).map Prod.snd).sum = len := by
  induction len using Nat.strong_induction_on generalizing x with
  | _ len ih =>
    by_cases hzero : len = 0
    · simp [hzero]
    · have hunit := Nat.mod_lt x s.unit_pos
      rw [s.objectBlocks_pos o x hzero, map_cons, sum_cons, ih _ (by omega)]
      omega

theorem blocks_filter_sum (o cur left : ℕ) :
    (((s.blocks cur left).filter (fun e => s.object e.1 = o)).map Prod.snd).sum =
      s.filled o (cur + left) - s.filled o cur := by
  rw [s.blocks_filter, s.objectBlocks_sum]

/-! ### The objects of a range that starts at zero -/

def period : ℕ := s.unit * (s.count * s.depth)

theorem period_pos : 0 < s.period := mul_pos s.unit_pos (mul_pos s.count_pos s.depth_pos)

/-- How many objects the positions up to `q` meet. -/
def objectsTo (q : ℕ) : ℕ :=
  q / s.period * s.count + min s.count (q % s.period / s.unit + 1)

theorem object_eq (p : ℕ) :
    s.object p = p / s.period * s.count + p % s.period / s.unit % s.count := by
  unfold object period
  rw [Nat.mod_mul_right_div_self, Nat.mod_mul_right_mod, Nat.div_div_eq_div_mul,
    Nat.div_div_eq_div_mul]

theorem object_lt_objectsTo (h : p ≤ q) : s.object p < s.objectsTo q := by
  have hcount := s.count_pos
  have hcol := Nat.mod_lt (p % s.period / s.unit) hcount
  have hset : p / s.period ≤ q / s.period := Nat.div_le_div_right h
  rw [object_eq]
  unfold objectsTo
  rcases hset.lt_or_eq with hlt | heq
  · have hmul := mul_le_mul_right s.count (show p / s.period + 1 ≤ q / s.period from hlt)
    rw [add_mul, one_mul] at hmul
    have hmin : 1 ≤ min s.count (q % s.period / s.unit + 1) := le_min hcount (le_add_left _ _)
    omega
  · have hrest : p % s.period ≤ q % s.period := by
      have hp := div_add_mod p s.period
      have hq := div_add_mod q s.period
      rw [heq] at hp
      omega
    have hblock := Nat.div_le_div_right (c := s.unit) hrest
    have hle := Nat.mod_le (p % s.period / s.unit) s.count
    rw [heq]
    omega

theorem exists_object_objectsTo (q : ℕ) : ∃ p ≤ q, s.object p + 1 = s.objectsTo q := by
  unfold objectsTo
  by_cases hrow : q % s.period / s.unit < s.count
  · refine ⟨q, le_rfl, ?_⟩
    rw [object_eq, mod_eq_of_lt hrow]
    omega
  · -- the last object of the first row of the set
    have hlast : (s.count - 1) * s.unit ≤ q % s.period := by
      rw [← le_div_iff_mul_le s.unit_pos]
      omega
    have hlt := mod_lt q s.period_pos
    have hcount := s.count_pos
    refine ⟨s.period * (q / s.period) + (s.count - 1) * s.unit, ?_, ?_⟩
    · have hq := div_add_mod q s.period
      omega
    · rw [object_eq, mul_add_div s.period_pos, mul_add_mod,
        div_eq_of_lt (show (s.count - 1) * s.unit < s.period by omega),
        Nat.mod_eq_of_lt (show (s.count - 1) * s.unit < s.period by omega),
        Nat.mul_div_cancel _ s.unit_pos, Nat.mod_eq_of_lt (by omega),
        min_eq_left (by omega), Nat.add_zero (q / s.period),
        Nat.add_assoc, Nat.sub_add_cancel hcount]

/-- A range that ends past the first row of a set meets all objects of the set. -/
theorem count_le_of_row {r : ℕ} (h : s.count * s.unit ≤ r + 1) : s.count ≤ r / s.unit + 1 := by
  have hunit := s.unit_pos
  have hblocks : s.count - 1 ≤ r / s.unit := by
    rw [Nat.le_div_iff_mul_le hunit, Nat.sub_mul]
    omega
  omega

/-- The same number, from the length of the range: whole periods, less the objects that a short
first row leaves out. -/
theorem objectsTo_eq {size : ℕ} (hsize : 0 < size) :
    s.objectsTo (size - 1) = (size + s.period - 1) / s.period * s.count -
      if 0 < size % s.period ∧ size % s.period < s.count * s.unit then
        s.count - (size % s.period + s.unit - 1) / s.unit
      else 0 := by
  obtain ⟨q, rfl⟩ : ∃ q, size = q + 1 := ⟨size - 1, by omega⟩
  have hpos := s.period_pos
  have hunit := s.unit_pos
  have hperiods : (q + 1 + s.period - 1) / s.period = q / s.period + 1 := by
    rw [show q + 1 + s.period - 1 = q + s.period by omega, add_div_right _ hpos]
  have hlt := mod_lt q hpos
  have hrow : s.count * s.unit ≤ s.period := by
    unfold period
    rw [← Nat.mul_assoc, Nat.mul_comm s.count]
    exact Nat.le_mul_of_pos_right _ s.depth_pos
  have hq := Nat.div_add_mod q s.period
  rw [hperiods, Nat.add_sub_cancel, Nat.add_mul, Nat.one_mul]
  unfold objectsTo
  by_cases hend : q % s.period + 1 = s.period
  · have hzero : (q + 1) % s.period = 0 := by
      rw [← hq, Nat.add_assoc, hend, ← Nat.mul_succ, Nat.mul_mod_right]
    rw [hzero, if_neg (by omega), min_eq_left (s.count_le_of_row (by omega)), Nat.sub_zero]
  · have hnext : (q + 1) % s.period = q % s.period + 1 := by
      conv_lhs => rw [← hq, add_assoc, mul_add_mod]
      exact mod_eq_of_lt (by omega)
    have hceil : (q % s.period + 1 + s.unit - 1) / s.unit = q % s.period / s.unit + 1 := by
      rw [show q % s.period + 1 + s.unit - 1 = q % s.period + s.unit by omega,
        add_div_right _ hunit]
    rw [hnext, hceil]
    split_ifs with hshort
    · have hle : q % s.period / s.unit < s.count := Nat.div_lt_of_lt_mul (by
        rw [Nat.mul_comm]
        omega)
      rw [min_eq_right (show q % s.period / s.unit + 1 ≤ s.count from hle)]
      generalize q % s.period / s.unit = k at hle ⊢
      omega
    · rw [min_eq_left (s.count_le_of_row (by omega)), Nat.sub_zero]

end Shape

end Striping
